import Mathlib.Algebra.Order.Group.Int
import Mathlib.Order.Lattice
import Mathlib.Tactic.Common

/-!
# Vector clocks

A vector clock is an array of 32-bit integers. Two events are ordered when the clock of one
is nowhere above that of the other, and somewhere below it.
-/

namespace JaxDas.Interpret

/-- An array of `n` entries of the type `np.int32`. -/
abbrev VectorClock (n : ℕ) := Fin n → ℤ

/-- The largest `np.int32`. -/
def int32Max : ℤ := 2147483647

namespace VectorClock

variable {n : ℕ}

/-- `make_vector_clock` -/
def make (n : ℕ) : VectorClock n := fun _ => 0

/-- `update_vector_clock` -/
def update (x y : VectorClock n) : VectorClock n := fun i => max (x i) (y i)

/-- `vector_clock.lt` -/
def lt (x y : VectorClock n) : Bool :=
  decide (∀ i, x i ≤ y i) && decide (∃ i, x i < y i)

/-- `vector_clock.ordered` -/
def ordered (x y : VectorClock n) : Bool :=
  lt x y || lt y x

/-- `inc_vector_clock`: the largest entry wraps. -/
def inc (x : VectorClock n) (i : Fin n) : VectorClock n :=
  Function.update x i (if x i = int32Max then -int32Max - 1 else x i + 1)

theorem lt_iff {x y : VectorClock n} :
    lt x y = true ↔ (∀ i, x i ≤ y i) ∧ ∃ i, x i < y i := by
  rw [lt, Bool.and_eq_true, decide_eq_true_iff, decide_eq_true_iff]

theorem ordered_comm (x y : VectorClock n) : ordered x y = ordered y x :=
  Bool.or_comm _ _

theorem le_update_left (x y : VectorClock n) : x ≤ update x y := fun _ => le_max_left _ _

theorem le_update_right (x y : VectorClock n) : y ≤ update x y := fun _ => le_max_right _ _

theorem update_le {x y z : VectorClock n} (hx : x ≤ z) (hy : y ≤ z) : update x y ≤ z :=
  fun i => max_le (hx i) (hy i)

/-- An entry that does not wrap takes the clock up. -/
theorem le_inc {x : VectorClock n} {i : Fin n} (h : x i ≠ int32Max) : x ≤ inc x i := by
  intro k
  unfold inc
  by_cases hk : k = i
  · subst hk
    rw [Function.update_self, if_neg h]
    exact Int.le_of_lt (Int.lt_add_one_of_le (Int.le_refl _))
  · rw [Function.update_of_ne hk]

theorem lt_inc {x y : VectorClock n} {i : Fin n} (h : x i ≠ int32Max) (hy : y ≤ x) :
    lt y (inc x i) = true := by
  refine lt_iff.mpr ⟨fun k => (hy k).trans (le_inc h k), i, ?_⟩
  rw [inc, Function.update_self, if_neg h]
  exact Int.lt_add_one_of_le (hy i)

theorem lt_of_lt_of_le {x y z : VectorClock n} (h : lt x y = true) (hz : y ≤ z) :
    lt x z = true := by
  obtain ⟨hle, i, hi⟩ := lt_iff.mp h
  exact lt_iff.mpr ⟨fun k => (hle k).trans (hz k), i, hi.trans_le (hz i)⟩

theorem le_of_lt {x y : VectorClock n} (h : lt x y = true) : x ≤ y := (lt_iff.mp h).1

end VectorClock

end JaxDas.Interpret
