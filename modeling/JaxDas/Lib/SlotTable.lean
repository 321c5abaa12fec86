import Mathlib.Data.List.Basic
import Mathlib.Tactic.Common

/-!
# Tables as lists of slots

A hash table that is looked at from outside is the list of its full slots, in some
order. `find` answers with the slot it stopped at and with the slots on either side,
as an iterator would; erasing or overwriting the slot is then a matter of leaving it
out or putting another one in its place.
-/

namespace JaxDas.SlotTable

variable {α : Type}

/-- The first slot that answers, with the slots before and after it. -/
def find (p : α → Bool) : List α → Option (List α × α × List α)
  | [] => none
  | x :: xs =>
      if p x then some ([], x, xs)
      else (find p xs).map fun (before, y, after) => (x :: before, y, after)

/-- What was found. -/
theorem find_some {p : α → Bool} : ∀ {xs before after : List α} {x : α},
    find p xs = some (before, x, after) →
      xs = before ++ x :: after ∧ p x = true ∧ ∀ y ∈ before, p y = false
  | y :: ys, before, after, x, h => by
      unfold find at h
      split at h
      · rename_i hp
        injection h with h; injection h with h₁ h; injection h with h₂ h₃
        rw [← h₁, ← h₂, ← h₃]
        exact ⟨rfl, hp, by simp⟩
      · rename_i hp
        obtain ⟨⟨b, z, a⟩, hf, h⟩ := Option.map_eq_some_iff.mp h
        injection h with h₁ h; injection h with h₂ h₃
        obtain ⟨hys, hz, hb⟩ := find_some hf
        rw [← h₁, ← h₂, ← h₃, hys]
        exact ⟨rfl, hz, List.forall_mem_cons.mpr ⟨Bool.eq_false_iff.mpr hp, hb⟩⟩

/-- Nothing was found. -/
theorem find_none {p : α → Bool} : ∀ {xs : List α}, find p xs = none → ∀ x ∈ xs, p x = false
  | [], _, x, hx => absurd hx (by simp)
  | y :: ys, h, x, hx => by
      unfold find at h
      split at h
      · exact absurd h (by simp)
      · rename_i hp
        rcases List.mem_cons.mp hx with rfl | hx
        · exact Bool.eq_false_iff.mpr hp
        · exact find_none (Option.map_eq_none_iff.mp h) x hx

end JaxDas.SlotTable
