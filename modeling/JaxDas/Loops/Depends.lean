import JaxDas.Loops.ClosedJaxpr

/-!
# Outputs that depend on inputs

Which outputs of a jaxpr depend on the inputs that a mask marks.
-/

namespace JaxDas

/-- The same element everywhere. -/
def NdArray.fill {α : Type} (shape : List ℕ) (a : α) : NdArray α where
  shape := shape
  get? := fun idx => if Within shape idx then some a else none
  within := by
    intro idx
    split <;> simp [*]

/-- Two lists of inputs that differ in marked inputs only, and have different outputs `i`. -/
def Depends {α : Type} (jaxpr : ClosedJaxpr α) (mask : List Bool) (i : ℕ) : Prop :=
  ∃ xs ys : List (NdArray α), xs.map NdArray.shape = jaxpr.in_avals ∧
    ys.map NdArray.shape = jaxpr.in_avals ∧
    (∀ k : ℕ, mask[k]? = some false → xs[k]? = ys[k]?) ∧
    (jaxpr.eval xs)[i]? ≠ (jaxpr.eval ys)[i]?

open Classical in
/-- The outputs that do. -/
noncomputable def dependents {α : Type} (jaxpr : ClosedJaxpr α) (mask : List Bool) : List Bool :=
  (List.range jaxpr.out_avals.length).map fun i => decide (Depends jaxpr mask i)

theorem length_dependents {α : Type} (jaxpr : ClosedJaxpr α) (mask : List Bool) :
    (dependents jaxpr mask).length = jaxpr.out_avals.length := by
  rw [dependents, List.length_map, List.length_range]

end JaxDas
