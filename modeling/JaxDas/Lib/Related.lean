import Mathlib.Data.List.Basic
import Mathlib.Data.List.Forall2
import Mathlib.Tactic.Common

/-!
# Lists that are related element by element

What `List.Forall₂` says of the parts of a list: of the two halves of a
concatenation, of the elements that pass a test and those that do not, and of two
lists that are both related to a third one.
-/

namespace JaxDas.Related

variable {β γ : Type}

/-- An element of the first list is related to one of the second. -/
theorem exists_of_forall₂_left {S : β → γ → Prop} {xs : List β} {ys : List γ}
    (h : List.Forall₂ S xs ys) {x : β} (hx : x ∈ xs) : ∃ y ∈ ys, S x y := by
  induction h with
  | nil => cases hx
  | cons hxy _ ih =>
      rcases List.mem_cons.mp hx with rfl | hx
      · exact ⟨_, List.mem_cons_self, hxy⟩
      · obtain ⟨y, hy, hxy⟩ := ih hx
        exact ⟨y, List.mem_cons_of_mem _ hy, hxy⟩

theorem exists_of_forall₂_right {S : β → γ → Prop} {xs : List β} {ys : List γ}
    (h : List.Forall₂ S xs ys) {y : γ} (hy : y ∈ ys) : ∃ x ∈ xs, S x y :=
  exists_of_forall₂_left h.flip hy

theorem forall₂_split {S : β → γ → Prop} : ∀ {xs ys : List β} {zs : List γ},
    List.Forall₂ S (xs ++ ys) zs →
    ∃ us vs, zs = us ++ vs ∧ List.Forall₂ S xs us ∧ List.Forall₂ S ys vs
  | [], _, zs, h => ⟨[], zs, rfl, .nil, h⟩
  | x :: xs, ys, _, .cons hxz h =>
      let ⟨us, vs, hz, hu, hv⟩ := forall₂_split h
      ⟨_ :: us, vs, by rw [hz, List.cons_append], .cons hxz hu, hv⟩

/-- Related concatenations have related parts, once the lengths of the first parts agree. -/
theorem forall₂_append_inj {S : β → γ → Prop} {xs ys : List β} {us vs : List γ}
    (h : List.Forall₂ S (xs ++ ys) (us ++ vs)) (hlen : xs.length = us.length) :
    List.Forall₂ S xs us ∧ List.Forall₂ S ys vs := by
  obtain ⟨us', vs', heq, hx, hy⟩ := forall₂_split h
  obtain ⟨rfl, rfl⟩ := List.append_inj heq (hlen.symm.trans hx.length_eq)
  exact ⟨hx, hy⟩

/-- The same for a last element. -/
theorem forall₂_concat_inj {S : β → γ → Prop} {xs : List β} {us : List γ} {x : β} {u : γ}
    (h : List.Forall₂ S (xs ++ [x]) (us ++ [u])) : List.Forall₂ S xs us ∧ S x u := by
  have hlen := h.length_eq
  rw [List.length_append, List.length_append] at hlen
  obtain ⟨hxs, hx⟩ := forall₂_append_inj h (Nat.add_right_cancel hlen)
  cases hx with
  | cons hx _ => exact ⟨hxs, hx⟩

/-- Lists that are related to one list, element by element. -/
theorem forall₂_of_common {S : β → γ → Prop} {T : γ → γ → Prop} {xs : List β} {ys : List γ}
    (h : List.Forall₂ S xs ys) : ∀ {zs : List γ}, List.Forall₂ S xs zs →
    (∀ x ∈ xs, ∀ y ∈ ys, ∀ z ∈ zs, S x y → S x z → T y z) → List.Forall₂ T ys zs := by
  induction h with
  | nil => intro zs hz _; cases hz; exact .nil
  | cons hxy _ ih =>
      intro zs hz hT
      cases hz with
      | cons hxz hz =>
          refine .cons (hT _ List.mem_cons_self _ List.mem_cons_self _ List.mem_cons_self hxy hxz)
            (ih hz fun x hx y hy z hz => ?_)
          exact hT x (List.mem_cons_of_mem _ hx) y (List.mem_cons_of_mem _ hy) z
            (List.mem_cons_of_mem _ hz)

/-- Lists that are cut by a test in the same pattern are related if both parts are. -/
theorem forall₂_of_filter {S : β → γ → Prop} {p : β → Bool} {q : γ → Bool} :
    ∀ {xs : List β} {ys : List γ}, xs.map p = ys.map q →
      List.Forall₂ S (xs.filter p) (ys.filter q) →
      List.Forall₂ S (xs.filter fun x => !p x) (ys.filter fun y => !q y) → List.Forall₂ S xs ys
  | [], [], _, _, _ => .nil
  | [], _ :: _, hpq, _, _ => absurd hpq (by simp)
  | _ :: _, [], hpq, _, _ => absurd hpq (by simp)
  | x :: xs, y :: ys, hpq, h, h' => by
      rw [List.map_cons, List.map_cons] at hpq
      injection hpq with hp hpq
      by_cases hx : p x = true
      · have hy : q y = true := hp ▸ hx
        simp only [List.filter_cons, hx, hy, if_true, Bool.not_true, Bool.false_eq_true, if_false]
          at h h'
        cases h with
        | cons hxy h => exact .cons hxy (forall₂_of_filter hpq h h')
      · have hy : ¬ q y = true := hp ▸ hx
        rw [Bool.not_eq_true] at hx hy
        simp only [List.filter_cons, hx, hy, if_true, Bool.not_false, Bool.false_eq_true, if_false]
          at h h'
        cases h' with
        | cons hxy h' => exact .cons hxy (forall₂_of_filter hpq h h')

end JaxDas.Related
