import Mathlib.Logic.Relation
import Mathlib.Tactic.Common

/-!
# The happens-before relation of a trace

A trace is a list of events that grows at its end. One event happens before another if there
is a chain of later and later events between them, of which each orders the next.

The events are known wherever events of some kind `P` are known: those events themselves, and
all that happens before them (`Knows`). The next event of the trace has before it what is
known where it is ordered after (`before_snoc`).
-/

namespace JaxDas

variable {E : Type} (orders : E → E → Prop)

/-- A later event that the earlier one orders. -/
def OrdersIn (tr : List E) (i j : ℕ) : Prop :=
  i < j ∧ ∃ a b, tr[i]? = some a ∧ tr[j]? = some b ∧ orders a b

/-- The event number `i` of the trace happens before number `j`. -/
def Before (tr : List E) : ℕ → ℕ → Prop := Relation.TransGen (OrdersIn orders tr)

/-- Number `i` is an event of the kind `P`, or happens before one. -/
def Knows (tr : List E) (P : E → Prop) (i : ℕ) : Prop :=
  ∃ k a, tr[k]? = some a ∧ P a ∧ (i = k ∨ Before orders tr i k)

variable {orders} {tr : List E} {e : E} {i j : ℕ} {P Q : E → Prop}

theorem OrdersIn.lt_length (h : OrdersIn orders tr i j) : j < tr.length := by
  obtain ⟨-, a, b, -, hb, -⟩ := h
  exact (List.getElem?_eq_some_iff.mp hb).1

theorem Before.lt (h : Before orders tr i j) : i < j := by
  induction h with
  | single h => exact h.1
  | tail _ h ih => exact Nat.lt_trans ih h.1

theorem Before.lt_length (h : Before orders tr i j) : j < tr.length := by
  cases h with
  | single h => exact h.lt_length
  | tail _ h => exact h.lt_length

theorem Knows.lt_length (h : Knows orders tr P i) : i < tr.length := by
  obtain ⟨k, a, hk, -, rfl | hb⟩ := h
  · exact (List.getElem?_eq_some_iff.mp hk).1
  · exact Nat.lt_trans hb.lt hb.lt_length

theorem ordersIn_snoc (hj : j < tr.length) :
    OrdersIn orders (tr ++ [e]) i j ↔ OrdersIn orders tr i j := by
  unfold OrdersIn
  refine and_congr_right fun hlt => ?_
  rw [List.getElem?_append_left hj, List.getElem?_append_left (Nat.lt_trans hlt hj)]

/-- What happens before an old event does not change. -/
theorem before_snoc_of_lt (hj : j < tr.length) :
    Before orders (tr ++ [e]) i j ↔ Before orders tr i j := by
  constructor
  · intro h
    induction h with
    | single h => exact .single ((ordersIn_snoc hj).mp h)
    | @tail k l _ h ih =>
        have hk : k < tr.length := Nat.lt_trans h.1 hj
        exact (ih hk).tail ((ordersIn_snoc hj).mp h)
  · intro h
    induction h with
    | single h => exact .single ((ordersIn_snoc hj).mpr h)
    | @tail k l _ h ih =>
        have hk : k < tr.length := Nat.lt_trans h.1 hj
        exact (ih hk).tail ((ordersIn_snoc hj).mpr h)

/-- What happens before the new event is known where an event orders it. -/
theorem before_snoc : Before orders (tr ++ [e]) i tr.length ↔
    Knows orders tr (orders · e) i := by
  have hlast : (tr ++ [e])[tr.length]? = some e := by
    rw [List.getElem?_append_right (Nat.le_refl _), Nat.sub_self]
    rfl
  constructor
  · intro h
    obtain ⟨k, hik, hk⟩ : ∃ k, (i = k ∨ Before orders (tr ++ [e]) i k) ∧
        OrdersIn orders (tr ++ [e]) k tr.length := by
      cases h with
      | single h => exact ⟨i, .inl rfl, h⟩
      | tail h h' => exact ⟨_, .inr h, h'⟩
    obtain ⟨hlt, a, b, ha, hb, hab⟩ := hk
    rw [hlast] at hb
    injection hb with hb
    rw [List.getElem?_append_left hlt] at ha
    exact ⟨k, a, ha, hb ▸ hab, hik.imp_right (before_snoc_of_lt hlt).mp⟩
  · rintro ⟨k, a, ha, hab, hik⟩
    have hlt : k < tr.length := (List.getElem?_eq_some_iff.mp ha).1
    have hedge : OrdersIn orders (tr ++ [e]) k tr.length :=
      ⟨hlt, a, e, by rwa [List.getElem?_append_left hlt], hlast, hab⟩
    obtain rfl | hb := hik
    · exact .single hedge
    · exact ((before_snoc_of_lt hlt).mpr hb).tail hedge

theorem knows_snoc : Knows orders (tr ++ [e]) P i ↔ Knows orders tr P i ∨
    (P e ∧ (i = tr.length ∨ Knows orders tr (orders · e) i)) := by
  constructor
  · rintro ⟨k, a, ha, hP, hik⟩
    by_cases hlt : k < tr.length
    · rw [List.getElem?_append_left hlt] at ha
      exact .inl ⟨k, a, ha, hP, hik.imp_right (before_snoc_of_lt hlt).mp⟩
    · have hlen := (List.getElem?_eq_some_iff.mp ha).1
      rw [List.length_append, List.length_singleton] at hlen
      obtain rfl : k = tr.length := by omega
      rw [List.getElem?_append_right (Nat.le_refl _), Nat.sub_self] at ha
      injection ha with ha
      exact .inr ⟨ha ▸ hP, hik.imp_right before_snoc.mp⟩
  · rintro (⟨k, a, ha, hP, hik⟩ | ⟨hP, hi⟩)
    · have hlt : k < tr.length := (List.getElem?_eq_some_iff.mp ha).1
      exact ⟨k, a, by rwa [List.getElem?_append_left hlt], hP,
        hik.imp_right (before_snoc_of_lt hlt).mpr⟩
    · refine ⟨tr.length, e, ?_, hP, hi.imp_right before_snoc.mpr⟩
      rw [List.getElem?_append_right (Nat.le_refl _), Nat.sub_self]
      rfl

/-- What is known where events of a kind are is known where any of these events is. -/
theorem Knows.imp (h : Knows orders tr P i) (hPQ : ∀ a, P a → Q a) :
    Knows orders tr Q i := by
  obtain ⟨k, a, ha, hP, hik⟩ := h
  exact ⟨k, a, ha, hPQ a hP, hik⟩

theorem Knows.or (h : Knows orders tr (fun a => P a ∨ Q a) i) :
    Knows orders tr P i ∨ Knows orders tr Q i := by
  obtain ⟨k, a, ha, hP | hQ, hik⟩ := h
  · exact .inl ⟨k, a, ha, hP, hik⟩
  · exact .inr ⟨k, a, ha, hQ, hik⟩

end JaxDas
