import Mathlib.Algebra.Order.Ring.Nat
import Mathlib.Data.Fintype.EquivFin
import Mathlib.Data.Int.ModEq
import Mathlib.Data.Nat.Prime.Basic
import Mathlib.Tactic.Ring

/-!
# Triangular numbers modulo a power of two

A probe sequence whose step grows by one each time is at the triangular numbers. Modulo a
power of two these are all the residues, which is why such a probe finds whatever is there.
-/

namespace JaxDas

/-- The sum of the first `n` positive numbers. -/
def triangle : ℕ → ℕ
  | 0 => 0
  | n + 1 => triangle n + (n + 1)

theorem two_mul_triangle (n : ℕ) : 2 * triangle n = n * (n + 1) := by
  induction n with
  | zero => rfl
  | succ n ih =>
      rw [triangle, Nat.mul_add, ih]
      ring

theorem triangle_le_add (n d : ℕ) : triangle n ≤ triangle (n + d) := by
  induction d with
  | zero => exact Nat.le_refl _
  | succ d ih =>
      rw [← Nat.add_assoc, triangle]
      omega

/-- Two different numbers below `2 ^ k` have different triangles modulo `2 ^ k`. -/
theorem triangle_mod_ne {k a b : ℕ} (hab : a < b) (hb : b < 2 ^ k) :
    triangle a % 2 ^ k ≠ triangle b % 2 ^ k := by
  intro heq
  obtain ⟨d, rfl⟩ := Nat.exists_eq_add_of_lt hab
  have ha := two_mul_triangle a
  have hb' := two_mul_triangle (a + d + 1)
  have hle : triangle a ≤ triangle (a + d + 1) := triangle_le_add a (d + 1)
  have hdvd : 2 ^ k ∣ triangle (a + d + 1) - triangle a :=
    (Nat.modEq_iff_dvd' hle).mp heq
  have hprod : 2 * (triangle (a + d + 1) - triangle a) = (d + 1) * (2 * a + d + 2) := by
    rw [Nat.mul_sub, ha, hb']
    have : (a + d + 1) * (a + d + 1 + 1) = (d + 1) * (2 * a + d + 2) + a * (a + 1) := by ring
    omega
  have hpow : 2 ^ (k + 1) ∣ (d + 1) * (2 * a + d + 2) := by
    rw [← hprod, pow_succ']
    exact Nat.mul_dvd_mul_left 2 hdvd
  have hlt : 2 ^ (k + 1) = 2 * 2 ^ k := pow_succ' 2 k
  -- the factors are of different parity, so one of them has all the twos
  rcases Nat.even_or_odd (d + 1) with heven | hodd
  · have hcop : (2 ^ (k + 1)).Coprime (2 * a + d + 2) := by
      refine Nat.Coprime.pow_left _ ((Nat.coprime_two_left).mpr ?_)
      obtain ⟨e, he⟩ := heven
      exact ⟨a + e, by omega⟩
    have := Nat.le_of_dvd (by omega) (hcop.dvd_of_dvd_mul_right hpow)
    omega
  · have hcop : (2 ^ (k + 1)).Coprime (d + 1) :=
      Nat.Coprime.pow_left _ ((Nat.coprime_two_left).mpr hodd)
    have := Nat.le_of_dvd (by omega) (hcop.dvd_of_dvd_mul_left hpow)
    omega

/-- Every residue modulo `2 ^ k` is that of a triangular number. -/
theorem exists_triangle_mod (k : ℕ) {r : ℕ} (hr : r < 2 ^ k) :
    ∃ n < 2 ^ k, triangle n % 2 ^ k = r := by
  have hpos : 0 < 2 ^ k := Nat.two_pow_pos k
  let f : Fin (2 ^ k) → Fin (2 ^ k) := fun i => ⟨triangle i % 2 ^ k, Nat.mod_lt _ hpos⟩
  have hinj : Function.Injective f := by
    intro i j hij
    have hij : triangle i % 2 ^ k = triangle j % 2 ^ k := congrArg Fin.val hij
    rcases Nat.lt_trichotomy i j with h | h | h
    · exact absurd hij (triangle_mod_ne h j.isLt)
    · exact Fin.ext h
    · exact absurd hij.symm (triangle_mod_ne h i.isLt)
  obtain ⟨i, hi⟩ := Finite.injective_iff_surjective.mp hinj ⟨r, hr⟩
  exact ⟨i, i.isLt, congrArg Fin.val hi⟩

end JaxDas
