import JaxDas.Lib.Triangular
import JaxDas.ReentrantHash.Table

/-!
# Where a probe looks

A probe for a hash is at a group after the other, a triangular number of group widths
behind its first position. The groups together show every slot, so a slot that is empty is
seen sooner or later, at its own byte or at the byte that mirrors it.
-/

namespace JaxDas.ReentrantHash

variable {Key : Type} {W : ℕ}

/-- The position of the `n`-th group of a probe. -/
def probeAt (W capacity hash n : ℕ) : ℕ := (h1 hash + W * triangle n) % capacity

/-- The control byte at position `p` is that of slot `i`, or mirrors it. -/
def Shows (W capacity p i : ℕ) : Prop := p = i ∨ (i < W ∧ p = i + capacity)

instance (W capacity p i : ℕ) : Decidable (Shows W capacity p i) :=
  inferInstanceAs (Decidable (p = i ∨ (i < W ∧ p = i + capacity)))

theorem probeAt_zero (W capacity hash : ℕ) : probeAt W capacity hash 0 = h1 hash % capacity := by
  rw [probeAt, triangle, Nat.mul_zero, Nat.add_zero]

theorem probeAt_succ (W capacity hash n : ℕ) :
    (probeAt W capacity hash n + (n * W + W)) % capacity = probeAt W capacity hash (n + 1) := by
  rw [probeAt, probeAt, triangle, Nat.mod_add_mod]
  congr 1
  ring

theorem probeAt_lt {capacity : ℕ} (h : 0 < capacity) (W hash n : ℕ) :
    probeAt W capacity hash n < capacity := Nat.mod_lt _ h

/-- A shown slot is the one that the probe computes from the position. -/
theorem Shows.mod {capacity p i : ℕ} (h : Shows W capacity p i) (hi : i < capacity) :
    p % capacity = i := by
  rcases h with rfl | ⟨-, rfl⟩
  · exact Nat.mod_eq_of_lt hi
  · rw [Nat.add_mod_right, Nat.mod_eq_of_lt hi]

/-- A position of a group that is not behind the mirrored bytes shows a slot. -/
theorem shows_mod {capacity s o : ℕ} (hs : s < capacity) (ho : o < W)
    (hp : s + o < 2 * capacity) : Shows W capacity (s + o) ((s + o) % capacity) := by
  by_cases h : s + o < capacity
  · exact .inl (Nat.mod_eq_of_lt h).symm
  · have hmod : (s + o) % capacity = s + o - capacity := by
      rw [Nat.mod_eq_sub_mod (by omega), Nat.mod_eq_of_lt (by omega)]
    exact .inr ⟨by omega, by omega⟩

/-- What a group width and a capacity are. -/
structure Sizes (W capacity : ℕ) : Prop where
  width : W = 8 ∨ W = 16
  capacity : ∃ k, 3 ≤ k ∧ capacity = 2 ^ k

theorem Sizes.eight_le {capacity : ℕ} (h : Sizes W capacity) : 8 ≤ capacity := by
  obtain ⟨k, hk, rfl⟩ := h.capacity
  exact Nat.pow_le_pow_right (by omega : 0 < 2) hk

/-- A capacity that is not that of a group of 16 on 8 slots is a number of groups. -/
theorem Sizes.groups {capacity : ℕ} (h : Sizes W capacity) (hsmall : ¬ (W = 16 ∧ capacity = 8)) :
    ∃ j, capacity = W * 2 ^ j := by
  obtain ⟨k, hk, rfl⟩ := h.capacity
  rcases h.width with rfl | rfl
  · refine ⟨k - 3, ?_⟩
    rw [show 8 = 2 ^ 3 from rfl, ← Nat.pow_add]
    congr 1
    omega
  · have hk' : k ≠ 3 := by
      rintro rfl
      exact hsmall ⟨rfl, rfl⟩
    refine ⟨k - 4, ?_⟩
    rw [show 16 = 2 ^ 4 from rfl, ← Nat.pow_add]
    congr 1
    omega

/-- Every slot is shown by one of the first `capacity` groups of every probe. -/
theorem exists_shows {capacity : ℕ} (h : Sizes W capacity) (hash : ℕ) {i : ℕ} (hi : i < capacity) :
    ∃ n < capacity, ∃ o < W, Shows W capacity (probeAt W capacity hash n + o) i := by
  have h8 := h.eight_le
  have hpos : 0 < capacity := by omega
  -- how far the slot is behind the first position
  let s := h1 hash % capacity
  have hs : s < capacity := Nat.mod_lt _ hpos
  obtain ⟨d, hd, hsd⟩ : ∃ d < capacity, (s + d) % capacity = i := by
    refine ⟨(i + (capacity - s)) % capacity, Nat.mod_lt _ hpos, ?_⟩
    rw [Nat.add_mod_mod, show s + (i + (capacity - s)) = i + capacity by omega,
      Nat.add_mod_right, Nat.mod_eq_of_lt hi]
  by_cases hsmall : W = 16 ∧ capacity = 8
  · obtain ⟨rfl, rfl⟩ := hsmall
    refine ⟨0, by omega, d, by omega, ?_⟩
    rw [probeAt_zero, ← hsd]
    exact shows_mod hs (by omega) (by omega)
  · obtain ⟨j, hj⟩ := h.groups hsmall
    have hW : 0 < W := by rcases h.width with rfl | rfl <;> omega
    have hpow : 0 < 2 ^ j := Nat.two_pow_pos j
    have hq : d / W < 2 ^ j := Nat.div_lt_of_lt_mul (hj ▸ hd)
    obtain ⟨n, hn, htri⟩ := exists_triangle_mod j hq
    have hle : 2 ^ j ≤ capacity := hj ▸ Nat.le_mul_of_pos_left _ hW
    have hWle : W ≤ capacity := hj ▸ Nat.le_mul_of_pos_right _ hpow
    have ho : d % W < W := Nat.mod_lt _ hW
    refine ⟨n, by omega, d % W, ho, ?_⟩
    -- `W` times the triangle is `W * (d / W)` modulo the capacity
    have hmul : W * triangle n % capacity = W * (d / W) := by
      rw [hj, Nat.mul_mod_mul_left, htri]
    have hmod : (probeAt W capacity hash n + d % W) % capacity = i := by
      rw [probeAt, Nat.mod_add_mod, Nat.add_assoc, ← Nat.mod_add_mod, ← Nat.add_mod_mod,
        ← Nat.mod_add_mod (W * triangle n), hmul, Nat.div_add_mod, Nat.add_mod_mod]
      exact hsd
    have hlt := probeAt_lt hpos W hash n
    have hshows := shows_mod hlt ho (by omega)
    rwa [hmod] at hshows

end JaxDas.ReentrantHash
