import JaxDas.Lib.Fallible
import JaxDas.Lib.PostOrder

/-!
# Walks over trees

A walk replaces the labels of a tree one after the other, children before parents, and stops
at the first label that cannot be replaced. It succeeds if every label can be replaced, and
then the result is related to the tree label by label (`walksM_ok`). A walk after a walk leads to
what a relation asks for if and only if it does so for each label alone (`walksM_back`).
-/

namespace JaxDas.PostOrder

variable {ν μ κ ε : Type}

mutual

/-- Replaces every label, in post-order. -/
def LabelTree.walkM (f : ν → Except ε μ) : LabelTree ν → Except ε (LabelTree μ)
  | .node x ts => do
      let us ← walksM f ts
      let y ← f x
      pure (.node y us)

def walksM (f : ν → Except ε μ) : List (LabelTree ν) → Except ε (List (LabelTree μ))
  | [] => pure []
  | t :: ts => do
      let u ← LabelTree.walkM f t
      let us ← walksM f ts
      pure (u :: us)

end

/-- Trees of the same shape with related labels. -/
inductive LabelTree.Rel (R : ν → μ → Prop) : LabelTree ν → LabelTree μ → Prop
  | node {x : ν} {y : μ} {ts : List (LabelTree ν)} {us : List (LabelTree μ)} (label : R x y)
      (children : List.Forall₂ (LabelTree.Rel R) ts us) :
      LabelTree.Rel R (.node x ts) (.node y us)

theorem mem_postorders {ts : List (LabelTree ν)} {x : ν} :
    x ∈ postorders ts ↔ ∃ t ∈ ts, x ∈ t.postorder :=
  List.mem_flatMap

section

variable {f : ν → Except ε μ}

theorem walkM_ok {x : ν} {ts : List (LabelTree ν)} {t : LabelTree μ} :
    LabelTree.walkM f (.node x ts) = .ok t ↔
      ∃ y us, walksM f ts = .ok us ∧ f x = .ok y ∧ t = .node y us := by
  rw [LabelTree.walkM]
  constructor
  · intro h
    obtain ⟨us, hus, h⟩ := bind_ok.mp h
    obtain ⟨y, hy, h⟩ := bind_ok.mp h
    cases h
    exact ⟨y, us, hus, hy, rfl⟩
  · rintro ⟨y, us, hus, hy, rfl⟩
    rw [hus, hy]
    rfl

theorem walksM_cons {t : LabelTree ν} {ts : List (LabelTree ν)} {us : List (LabelTree μ)} :
    walksM f (t :: ts) = .ok us ↔
      ∃ u vs, LabelTree.walkM f t = .ok u ∧ walksM f ts = .ok vs ∧ us = u :: vs := by
  rw [walksM]
  constructor
  · intro h
    obtain ⟨u, hu, h⟩ := bind_ok.mp h
    obtain ⟨vs, hvs, h⟩ := bind_ok.mp h
    cases h
    exact ⟨u, vs, hu, hvs, rfl⟩
  · rintro ⟨u, vs, hu, hvs, rfl⟩
    rw [hu, hvs]
    rfl

/-- A row is walked tree after tree. -/
theorem walksM_ok {ts : List (LabelTree ν)} {us : List (LabelTree μ)} :
    walksM f ts = .ok us ↔ List.Forall₂ (fun t u => LabelTree.walkM f t = .ok u) ts us := by
  induction ts generalizing us with
  | nil =>
      rw [walksM]
      constructor
      · intro h
        cases h
        exact .nil
      · intro h
        cases h
        rfl
  | cons t ts ih =>
      rw [walksM_cons]
      constructor
      · rintro ⟨u, vs, hu, hvs, rfl⟩
        exact .cons hu (ih.mp hvs)
      · intro h
        cases h with
        | cons hu hvs => exact ⟨_, _, hu, ih.mpr hvs, rfl⟩

theorem exists_of_forall₂ {R : ν → μ → Prop} {xs : List ν} {ys : List μ}
    (h : List.Forall₂ R xs ys) {x : ν} (hx : x ∈ xs) : ∃ y, R x y := by
  induction h with
  | nil => exact absurd hx List.not_mem_nil
  | cons hxy _ ih =>
      rcases List.mem_cons.mp hx with rfl | hx
      · exact ⟨_, hxy⟩
      · exact ih hx

/-- A walk that succeeds has replaced every label. -/
theorem exists_of_walkM {t : LabelTree ν} : ∀ {s : LabelTree μ}, LabelTree.walkM f t = .ok s →
    ∀ x ∈ t.postorder, ∃ y, f x = .ok y := by
  induction t with
  | node x ts ih =>
      intro s hs x' hx'
      obtain ⟨y, us, hus, hy, rfl⟩ := walkM_ok.mp hs
      rw [postorder_node] at hx'
      rcases List.mem_append.mp hx' with hx' | hx'
      · obtain ⟨t, ht, hx'⟩ := mem_postorders.mp hx'
        obtain ⟨u, hu⟩ := exists_of_forall₂ (walksM_ok.mp hus) ht
        exact ih t ht hu x' hx'
      · cases List.mem_singleton.mp hx'
        exact ⟨y, hy⟩

theorem exists_of_walksM {ts : List (LabelTree ν)} {us : List (LabelTree μ)}
    (h : walksM f ts = .ok us) : ∀ x ∈ postorders ts, ∃ y, f x = .ok y := by
  intro x hx
  obtain ⟨t, ht, hx⟩ := mem_postorders.mp hx
  obtain ⟨u, hu⟩ := exists_of_forall₂ (walksM_ok.mp h) ht
  exact exists_of_walkM hu x hx

end

section

variable {f : ν → Except ε μ} {g : μ → Except ε κ} {R : ν → κ → Prop}

/-- Two replacements after another lead from the label to what `R` asks for. -/
def Back (f : ν → Except ε μ) (g : μ → Except ε κ) (R : ν → κ → Prop) (x : ν) : Prop :=
  ∃ y z, f x = .ok y ∧ g y = .ok z ∧ R x z

theorem walksM_back {ts : List (LabelTree ν)} {us : List (LabelTree μ)}
    (hts : List.Forall₂ (fun t u => LabelTree.walkM f t = .ok u) ts us)
    (ih : ∀ t ∈ ts, ∀ u, LabelTree.walkM f t = .ok u →
      ((∃ t', LabelTree.walkM g u = .ok t' ∧ LabelTree.Rel R t t') ↔
        ∀ x ∈ t.postorder, Back f g R x)) :
    (∃ ts', walksM g us = .ok ts' ∧ List.Forall₂ (LabelTree.Rel R) ts ts') ↔
      ∀ x ∈ postorders ts, Back f g R x := by
  induction hts with
  | nil => exact ⟨fun _ x hx => absurd hx List.not_mem_nil, fun _ => ⟨[], rfl, .nil⟩⟩
  | @cons t u ts us ht _ ihts =>
      have hhead := ih t List.mem_cons_self u ht
      have htail := ihts fun t ht => ih t (List.mem_cons_of_mem _ ht)
      rw [postorders_cons]
      constructor
      · rintro ⟨ts', hts', hrel⟩ x hx
        obtain ⟨t', us', ht', hus', rfl⟩ := walksM_cons.mp hts'
        cases hrel with
        | cons hr hrs =>
            rcases List.mem_append.mp hx with hx | hx
            · exact hhead.mp ⟨t', ht', hr⟩ x hx
            · exact htail.mp ⟨us', hus', hrs⟩ x hx
      · intro hall
        obtain ⟨t', ht', hr⟩ := hhead.mpr fun x hx => hall x (List.mem_append_left _ hx)
        obtain ⟨us', hus', hrs⟩ := htail.mpr fun x hx => hall x (List.mem_append_right _ hx)
        exact ⟨t' :: us', walksM_cons.mpr ⟨t', us', ht', hus', rfl⟩, .cons hr hrs⟩

/-- A second walk takes a tree to what `R` asks for if and only if it takes each label there. -/
theorem walkM_back {t : LabelTree ν} : ∀ {s : LabelTree μ}, LabelTree.walkM f t = .ok s →
    ((∃ t', LabelTree.walkM g s = .ok t' ∧ LabelTree.Rel R t t') ↔
      ∀ x ∈ t.postorder, Back f g R x) := by
  induction t with
  | node x ts ih =>
      intro s hs
      obtain ⟨y, us, hus, hy, rfl⟩ := walkM_ok.mp hs
      have hrow := walksM_back (g := g) (R := R) (walksM_ok.mp hus) fun t ht u hu => ih t ht hu
      rw [postorder_node]
      constructor
      · rintro ⟨t', ht', hrel⟩ x' hx'
        obtain ⟨z, us', hus', hz, rfl⟩ := walkM_ok.mp ht'
        cases hrel with
        | node hr hrs =>
            rcases List.mem_append.mp hx' with hx' | hx'
            · exact hrow.mp ⟨us', hus', hrs⟩ x' hx'
            · cases List.mem_singleton.mp hx'
              exact ⟨y, z, hy, hz, hr⟩
      · intro hall
        obtain ⟨us', hus', hrs⟩ := hrow.mpr fun x hx => hall x (List.mem_append_left _ hx)
        obtain ⟨y', z, hy', hz, hr⟩ := hall x (List.mem_append_right _ (List.mem_singleton.mpr rfl))
        cases hy.symm.trans hy'
        exact ⟨.node z us', walkM_ok.mpr ⟨z, us', hus', hz, rfl⟩, .node hr hrs⟩

end

end JaxDas.PostOrder
