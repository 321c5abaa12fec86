import JaxDas.Lib.NdArray

/-!
# Jaxprs of loops

The rules for loops take the jaxprs of a condition or a body as they are: by the shapes of their
inputs and outputs, and what they compute.
-/

namespace JaxDas

/-- A jaxpr without effects. -/
structure ClosedJaxpr (α : Type) where
  in_avals : List (List ℕ)
  out_avals : List (List ℕ)
  eval : List (NdArray α) → List (NdArray α)
  typed : ∀ args, args.map NdArray.shape = in_avals → (eval args).map NdArray.shape = out_avals

instance {α : Type} : Inhabited (NdArray α) where
  default := ⟨[0], fun _ => none, fun idx => by
    refine iff_of_false (by simp) fun h => ?_
    cases h with
    | cons hi _ => exact absurd hi (Nat.not_lt_zero _)⟩

end JaxDas
