import Mathlib.Data.Set.Function
import Mathlib.Tactic.Common

/-!
# An interval in windows of one size

`n` items from `offset` on are cut at the multiples of `size`. The first window may start late and
the last one may end early; the two may be the same window.
-/

namespace JaxDas

/-- `llvm::divideCeil` -/
def divideCeil (numerator denominator : ℕ) : ℕ := (numerator + denominator - 1) / denominator

/-- The remainder, but `b` in the place of `0`. -/
def positiveMod (a b : ℕ) : ℕ := (a - 1) % b + 1

/-- Where the items start in the window `k`. -/
def windowStart (offset k : ℕ) : ℕ := if k = 0 then offset else 0

/-- Where they end. -/
def windowEnd (offset n size k : ℕ) : ℕ :=
  if k + 1 = divideCeil (offset + n) size then positiveMod (offset + n) size else size

section

variable {offset n size : ℕ}

/-- The last item, by its window and its place in there. -/
theorem last_item (hoffset : offset < size) (hn : 0 < n) :
    ∃ q r, offset + n = q * size + r + 1 ∧ r < size ∧ divideCeil (offset + n) size = q + 1 ∧
      positiveMod (offset + n) size = r + 1 := by
  have hsize : 0 < size := by omega
  have hlast := Nat.div_add_mod (offset + n - 1) size
  rw [Nat.mul_comm] at hlast
  refine ⟨(offset + n - 1) / size, (offset + n - 1) % size, by omega, Nat.mod_lt _ hsize, ?_, rfl⟩
  have hnum : offset + n + size - 1 = offset + n - 1 + size := by omega
  rw [divideCeil, hnum, Nat.add_div_right _ hsize]

theorem divideCeil_of_le (hn : 0 < n) (h : offset + n ≤ size) :
    divideCeil (offset + n) size = 1 := by
  obtain ⟨q, r, hlast, hr, hcount, -⟩ := last_item (by omega : offset < size) hn
  have hq : q = 0 := by
    by_contra hne
    have := Nat.le_mul_of_pos_left size (Nat.pos_of_ne_zero hne)
    omega
  rw [hcount, hq]

theorem window_bounds (hoffset : offset < size) (hn : 0 < n) {k : ℕ}
    (hk : k < divideCeil (offset + n) size) :
    windowStart offset k < windowEnd offset n size k ∧ windowEnd offset n size k ≤ size := by
  obtain ⟨q, r, hlast, hr, hcount, hmod⟩ := last_item hoffset hn
  unfold windowStart windowEnd
  rw [hcount, hmod]
  rcases Nat.eq_zero_or_pos k with rfl | hpos
  · rcases Nat.eq_zero_or_pos q with rfl | hq
    · simp only [if_true]
      omega
    · rw [if_pos rfl, if_neg (by omega)]
      omega
  · rw [if_neg (by omega)]
    split <;> omega

/-- The places of a window between its start and its end are those of the items. -/
theorem mem_window_iff (hoffset : offset < size) (hn : 0 < n) {k p : ℕ}
    (hk : k < divideCeil (offset + n) size) :
    (windowStart offset k ≤ p ∧ p < windowEnd offset n size k) ↔
      p < size ∧ offset ≤ k * size + p ∧ k * size + p < offset + n := by
  obtain ⟨q, r, hlast, hr, hcount, hmod⟩ := last_item hoffset hn
  rw [hcount] at hk
  have hstart : windowStart offset k ≤ p ↔ offset ≤ k * size + p := by
    unfold windowStart
    rcases Nat.eq_zero_or_pos k with rfl | hpos
    · simp
    · have := Nat.le_mul_of_pos_left size hpos
      rw [if_neg (by omega)]
      omega
  have hend : p < windowEnd offset n size k ↔ p < size ∧ k * size + p < offset + n := by
    unfold windowEnd
    rw [hcount, hmod, hlast]
    split
    · next h =>
        obtain rfl : k = q := by omega
        omega
    · next h =>
        have hle : (k + 1) * size ≤ q * size := Nat.mul_le_mul_right size (by omega)
        rw [Nat.succ_mul] at hle
        omega
  rw [hstart, hend]
  tauto

theorem div_lt_windows (hoffset : offset < size) {i : ℕ} (hi : i < n) :
    (offset + i) / size < divideCeil (offset + n) size := by
  obtain ⟨q, r, hlast, hr, hcount, -⟩ := last_item hoffset (by omega : 0 < n)
  rw [hcount]
  have hle := Nat.div_le_div_right (c := size) (by omega : offset + i ≤ q * size + r)
  rw [Nat.mul_comm, Nat.mul_add_div (by omega), Nat.div_eq_of_lt hr] at hle
  omega

/-- Each item has one place in one window, and no place is left over. -/
theorem windows_bijOn (hoffset : offset < size) (hn : 0 < n) :
    Set.BijOn (fun i => ((offset + i) / size, (offset + i) % size)) {i | i < n}
      {w | w.1 < divideCeil (offset + n) size ∧ windowStart offset w.1 ≤ w.2 ∧
        w.2 < windowEnd offset n size w.1} := by
  have hsize : 0 < size := by omega
  have hplace : ∀ i, (offset + i) / size * size + (offset + i) % size = offset + i := by
    intro i
    rw [Nat.mul_comm]
    exact Nat.div_add_mod (offset + i) size
  refine ⟨fun i hi => ?_, fun i _ j _ hij => ?_, fun w hw => ?_⟩
  · have hlt : i < n := hi
    have hk := div_lt_windows hoffset hlt
    refine ⟨hk, (mem_window_iff hoffset hn hk).mpr ⟨Nat.mod_lt _ hsize, ?_⟩⟩
    rw [hplace]
    omega
  · have hdiv : (offset + i) / size = (offset + j) / size := congrArg Prod.fst hij
    have hmod : (offset + i) % size = (offset + j) % size := congrArg Prod.snd hij
    have hi := hplace i
    rw [hdiv, hmod, hplace j] at hi
    omega
  · obtain ⟨k, p⟩ := w
    have hk : k < divideCeil (offset + n) size := hw.1
    obtain ⟨hlt, hle, htop⟩ := (mem_window_iff hoffset hn (p := p) hk).mp hw.2
    refine ⟨k * size + p - offset, show k * size + p - offset < n by omega, ?_⟩
    have hsum : offset + (k * size + p - offset) = k * size + p := by omega
    simp only [hsum]
    rw [Nat.mul_comm, Nat.mul_add_div hsize, Nat.mul_add_mod, Nat.div_eq_of_lt hlt,
      Nat.mod_eq_of_lt hlt, Nat.add_zero]

end

end JaxDas
