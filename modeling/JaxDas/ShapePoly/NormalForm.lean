import JaxDas.ShapePoly.Operations

/-!
# Whatever way an expression is written

A formula is one way to write an expression down: atoms and integers under `+`, `-` and `*`.
The code computes with it and always ends in a canonical dimension, the one of the polynomial
that the formula stands for. So two formulas give the same stored terms when, and only when,
they are equal as polynomials.
-/

namespace JaxDas.ShapePoly

/-- A variable, or an operation on expressions whose exponents are positive. -/
abbrev Atom := {f : DimFactor // f.Proper}

/-- Ways to write an expression. Multiplication by an integer is a product too. -/
inductive Formula where
  | atom (f : Atom)
  | int (k : ℤ)
  | neg (a : Formula)
  | add (a b : Formula)
  | sub (a b : Formula)
  | mul (a b : Formula)

namespace Formula

/-- What the code computes in a scope without equality constraints. -/
def eval : Formula → DimSize
  | atom f => fromTerm [] [(f.1, 1)] 1
  | int k => .int k
  | neg a => a.eval.neg []
  | add a b => a.eval.add [] b.eval
  | sub a b => a.eval.sub [] b.eval
  | mul a b => a.eval.mul [] b.eval

/-- The polynomial over the atoms. -/
noncomputable def toPoly : Formula → MvPolynomial DimFactor ℤ
  | atom f => MvPolynomial.X f.1
  | int k => MvPolynomial.C k
  | neg a => -a.toPoly
  | add a b => a.toPoly + b.toPoly
  | sub a b => a.toPoly - b.toPoly
  | mul a b => a.toPoly * b.toPoly

theorem eval_spec : ∀ a : Formula, a.eval.Denotes a.toPoly
  | atom f => by
      have h := DimExpr.canonical_single (DimTerm.canonical_factor f.2) one_ne_zero
      refine ⟨⟨h, rfl⟩, ?_⟩
      rw [toPoly, MvPolynomial.X, eval, fromTerm, normalizeSortedTerms_nil, h.denotes.toPoly,
        DimExpr.toPoly_cons, DimExpr.toPoly_nil, add_zero, DimTerm.exponents_cons]
      change MvPolynomial.monomial (Finsupp.single f.1 1 + 0) 1 = _
      rw [add_zero]
  | int k => DimSize.denotes_int k
  | neg a => by
      have h := DimSize.neg_spec a.eval_spec.canonical
      rw [a.eval_spec.toPoly] at h
      exact h
  | add a b => by
      have h := DimSize.add_spec a.eval_spec.canonical b.eval_spec.canonical
      rw [a.eval_spec.toPoly, b.eval_spec.toPoly] at h
      exact h
  | sub a b => by
      have h := DimSize.sub_spec a.eval_spec.canonical b.eval_spec.canonical
      rw [a.eval_spec.toPoly, b.eval_spec.toPoly] at h
      exact h
  | mul a b => by
      have h := DimSize.mul_spec a.eval_spec.canonical b.eval_spec.canonical
      rw [a.eval_spec.toPoly, b.eval_spec.toPoly] at h
      exact h

/-- The stored form is canonical, for a strict total order, and two formulas compare equal and
are stored alike when they are the same polynomial. -/
theorem canonical_form :
    (IsStrictTotalOrder DimFactor fun f g => f.syntacticCmp g = .lt) ∧
    (IsStrictTotalOrder DimTerm fun t u => t.syntacticCmp u = .lt) ∧
    (IsStrictTotalOrder DimExpr fun e e' => e.syntacticCmp e' = .lt) ∧
    ∀ a b : Formula, a.eval.Canonical ∧ b.eval.Canonical ∧
      (a.eval.eq [] b.eval = true ↔ a.toPoly = b.toPoly) ∧
      (a.eval = b.eval ↔ a.toPoly = b.toPoly) := by
  refine ⟨strictTotalOrder_of_laws DimFactor.syntacticCmp_swap DimFactor.eq_of_syntacticCmp
      DimFactor.syntacticCmp_trans,
    strictTotalOrder_of_laws DimTerm.syntacticCmp_swap DimTerm.eq_of_syntacticCmp
      DimTerm.syntacticCmp_trans,
    strictTotalOrder_of_laws DimExpr.syntacticCmp_swap DimExpr.eq_of_syntacticCmp
      DimExpr.syntacticCmp_trans, fun a b => ?_⟩
  have ha := a.eval_spec
  have hb := b.eval_spec
  refine ⟨ha.canonical, hb.canonical, ?_, ?_⟩
  · rw [DimSize.eq_iff ha.canonical hb.canonical, ha.toPoly, hb.toPoly]
  · constructor
    · intro h
      rw [← ha.toPoly, ← hb.toPoly, h]
    · intro h
      refine ha.canonical.eq_of_toPoly hb.canonical ?_
      rw [ha.toPoly, hb.toPoly, h]

end Formula

end JaxDas.ShapePoly
