import Mathlib.Algebra.MvPolynomial.Basic
import JaxDas.ShapePoly.Arith

/-!
# What a symbolic expression denotes

A term is a monomial over its factors and an expression a polynomial, whatever the factors
themselves stand for. Merging factors multiplies monomials, merging terms adds polynomials,
and the dictionary of a product adds its items up.

Nothing here needs the stored sequences to be sorted. A factor must not have a negative
exponent, which is all that `Positive` says.
-/

namespace JaxDas.ShapePoly

open SortedPairs

/-- The exponents of a term are at least 1. -/
def DimTerm.Positive (t : DimTerm) : Prop := ∀ m ∈ t, 1 ≤ m.2

/-- Every term of an expression is. -/
def DimExpr.Positive (e : DimExpr) : Prop := ∀ m ∈ e, DimTerm.Positive m.1

/-- The exponent of each factor. -/
noncomputable def DimTerm.exponents (t : DimTerm) : DimFactor →₀ ℕ :=
  (t.map fun m => Finsupp.single m.1 m.2.toNat).sum

/-- The polynomial an expression denotes. -/
noncomputable def DimExpr.toPoly (e : DimExpr) : MvPolynomial DimFactor ℤ :=
  (e.map fun m => MvPolynomial.monomial m.1.exponents m.2).sum

/-- The polynomial a dimension denotes. -/
noncomputable def DimSize.toPoly : DimSize → MvPolynomial DimFactor ℤ
  | .int k => MvPolynomial.C k
  | .expr e => e.toPoly

/-! ## Terms -/

namespace DimTerm

theorem Positive.tail {m : DimFactor × ℤ} {t : DimTerm} (h : Positive (m :: t)) : Positive t :=
  fun m' hm => h m' (List.mem_cons_of_mem _ hm)

theorem positive_one : one.Positive := fun _ hm => absurd hm List.not_mem_nil

@[simp] theorem exponents_one : one.exponents = 0 := rfl

theorem exponents_cons (m : DimFactor × ℤ) (t : DimTerm) :
    exponents (m :: t) = Finsupp.single m.1 m.2.toNat + exponents t := rfl

theorem exponents_apply {t : DimTerm} (h : t.Positive) (f : DimFactor) :
    (t.exponents f : ℤ) = coeff f t := by
  induction t with
  | nil => rfl
  | cons m t ih =>
      have hpos := h m List.mem_cons_self
      rw [exponents_cons, coeff_cons, Finsupp.add_apply, Nat.cast_add, ih h.tail,
        Finsupp.single_apply]
      split <;> simp
      omega

/-- Terms with the same exponents are the same, when they are sorted. -/
theorem eq_of_exponents {t u : DimTerm} (ht : t.Positive) (hu : u.Positive)
    (hdt : Desc DimFactor.syntacticCmp t) (hdu : Desc DimFactor.syntacticCmp u)
    (h : t.exponents = u.exponents) : t = u := by
  have hz : ∀ {v : DimTerm}, v.Positive → NonZero v := by
    intro v hv m hm
    have := hv m hm
    omega
  refine eq_of_coeff hdt hdu (hz ht) (hz hu) fun f => ?_
  rw [← exponents_apply ht, ← exponents_apply hu, h]

theorem mem_mul {t u : DimTerm} {m : DimFactor × ℤ} (ht : t.Positive) (hu : u.Positive)
    (hm : m ∈ t.mul u) : 1 ≤ m.2 := by
  unfold mul at hm
  induction t, u using merge_induction DimFactor.syntacticCmp with
  | nil u =>
      obtain ⟨c, hc, _, hk⟩ := mem_scaled hm
      have := hu _ hc
      omega
  | nil_right t =>
      rw [merge_nil_right] at hm
      obtain ⟨c, hc, _, hk⟩ := mem_scaled hm
      have := ht _ hc
      omega
  | lt m₁ t m₂ u hcmp ih =>
      rw [merge_cons, hcmp] at hm
      rcases List.mem_cons.mp hm with rfl | hm
      · have := hu _ List.mem_cons_self
        omega
      · exact ih ht hu.tail hm
  | gt m₁ t m₂ u hcmp ih =>
      rw [merge_cons, hcmp] at hm
      rcases List.mem_cons.mp hm with rfl | hm
      · have := ht _ List.mem_cons_self
        omega
      · exact ih ht.tail hu hm
  | eq m₁ t m₂ u hcmp ih =>
      have h₁ := ht _ List.mem_cons_self
      have h₂ := hu _ List.mem_cons_self
      rw [merge_cons, hcmp] at hm
      simp only [show m₁.2 * 1 + m₂.2 * 1 ≠ 0 by omega, if_false] at hm
      rcases List.mem_cons.mp hm with rfl | hm
      · simp only
        omega
      · exact ih ht.tail hu.tail hm

theorem positive_mul {t u : DimTerm} (ht : t.Positive) (hu : u.Positive) : (t.mul u).Positive :=
  fun _ hm => mem_mul ht hu hm

/-- `mul` multiplies. -/
theorem exponents_mul {t u : DimTerm} (ht : t.Positive) (hu : u.Positive) :
    (t.mul u).exponents = t.exponents + u.exponents := by
  ext f
  have h := coeff_merge (fun _ _ h => DimFactor.eq_of_syntacticCmp h) f 1 1 t u
  rw [one_mul, one_mul, ← exponents_apply ht, ← exponents_apply hu] at h
  have hmul := exponents_apply (positive_mul ht hu) f
  rw [mul, h] at hmul
  rw [Finsupp.add_apply]
  exact_mod_cast hmul

end DimTerm

/-- A monomial as a product of powers. -/
theorem monomial_exponents (t : DimTerm) (c : ℤ) :
    MvPolynomial.monomial t.exponents c =
      MvPolynomial.C c * (t.map fun m => MvPolynomial.X m.1 ^ m.2.toNat).prod := by
  induction t with
  | nil =>
      rw [List.map_nil, List.prod_nil, mul_one]
      rfl
  | cons m t ih =>
      rw [DimTerm.exponents_cons, MvPolynomial.monomial_single_add, ih, List.map_cons,
        List.prod_cons]
      ring

/-! ## Expressions -/

namespace DimExpr

@[simp] theorem toPoly_nil : toPoly [] = 0 := rfl

theorem toPoly_cons (m : DimTerm × ℤ) (e : DimExpr) :
    toPoly (m :: e) = MvPolynomial.monomial m.1.exponents m.2 + toPoly e := rfl

theorem toPoly_append (e e' : DimExpr) : toPoly (e ++ e') = toPoly e + toPoly e' := by
  unfold toPoly
  rw [List.map_append, List.sum_append]

/-- The coefficient of a monomial is the sum of those of the terms that denote it. -/
theorem coeff_toPoly (s : DimFactor →₀ ℕ) (e : DimExpr) :
    MvPolynomial.coeff s e.toPoly = total (fun t => if t.exponents = s then 1 else 0) e := by
  classical
  induction e with
  | nil => rfl
  | cons m e ih =>
      rw [toPoly_cons, MvPolynomial.coeff_add, ih, total_cons, MvPolynomial.coeff_monomial]
      split <;> simp

theorem toPoly_perm {e e' : DimExpr} (h : e.Perm e') : e.toPoly = e'.toPoly :=
  (h.map _).sum_eq

/-- Merging terms adds. -/
theorem toPoly_combineTerms (f₁ f₂ : ℤ) (e₁ e₂ : DimExpr) :
    toPoly (combineTerms f₁ f₂ e₁ e₂) =
      MvPolynomial.C f₁ * e₁.toPoly + MvPolynomial.C f₂ * e₂.toPoly := by
  ext s
  rw [MvPolynomial.coeff_add, MvPolynomial.coeff_C_mul, MvPolynomial.coeff_C_mul, coeff_toPoly,
    coeff_toPoly, coeff_toPoly]
  exact total_merge (fun t u h => by rw [DimTerm.eq_of_syntacticCmp h]) f₁ f₂ e₁ e₂

theorem toPoly_filter (e : DimExpr) : toPoly (e.filter fun m => m.2 ≠ 0) = toPoly e := by
  ext s
  rw [coeff_toPoly, coeff_toPoly, total_filter]

theorem toPoly_dictAdd (t : DimTerm) (k : ℤ) (e : DimExpr) :
    toPoly (dictAdd t k e) = MvPolynomial.monomial t.exponents k + toPoly e := by
  induction e with
  | nil => rfl
  | cons m e ih =>
      unfold dictAdd
      split
      · rename_i heq
        rw [toPoly_cons, toPoly_cons, ← heq, map_add]
        ring
      · rw [toPoly_cons, toPoly_cons, ih]
        ring

theorem toPoly_addCoeff (e : DimExpr) (m : DimTerm × ℤ) :
    toPoly (addCoeff e m) = toPoly e + MvPolynomial.monomial m.1.exponents m.2 := by
  unfold addCoeff
  split
  · rename_i hz
    rw [hz, map_zero, add_zero]
  · rw [toPoly_dictAdd, add_comm]

theorem toPoly_foldl_addCoeff (pairs e : DimExpr) :
    toPoly (pairs.foldl addCoeff e) = toPoly e + toPoly pairs := by
  induction pairs generalizing e with
  | nil => rw [List.foldl_nil, toPoly_nil, add_zero]
  | cons m pairs ih => rw [List.foldl_cons, ih, toPoly_addCoeff, toPoly_cons, add_assoc]

theorem toPoly_coeffToSortedTerms (e : DimExpr) : toPoly (coeffToSortedTerms e) = toPoly e := by
  unfold coeffToSortedTerms
  rw [toPoly_perm (List.perm_insertionSort _ _), toPoly_filter]

/-- One row of the product. -/
theorem toPoly_mulTerm {m : DimTerm × ℤ} (hm : m.1.Positive) :
    ∀ {e : DimExpr}, e.Positive →
    toPoly (e.map fun m₂ => (m.1.mul m₂.1, m.2 * m₂.2)) =
      MvPolynomial.monomial m.1.exponents m.2 * toPoly e
  | [], _ => by rw [List.map_nil, toPoly_nil, mul_zero]
  | m₂ :: e, h => by
      rw [List.map_cons, toPoly_cons, toPoly_cons, mul_add, MvPolynomial.monomial_mul,
        toPoly_mulTerm hm fun m' hm' => h m' (List.mem_cons_of_mem _ hm'),
        DimTerm.exponents_mul hm (h m₂ List.mem_cons_self)]

/-- The items of the dictionary of a product add up to the product. -/
theorem toPoly_productCoeffs {e₁ e₂ : DimExpr} (h₁ : e₁.Positive) (h₂ : e₂.Positive) :
    toPoly (DimSize.productCoeffs e₁ e₂) = toPoly e₁ * toPoly e₂ := by
  unfold DimSize.productCoeffs
  rw [toPoly_foldl_addCoeff, toPoly_nil, zero_add]
  induction e₁ with
  | nil => rw [List.flatMap_nil, toPoly_nil, zero_mul]
  | cons m e₁ ih =>
      rw [List.flatMap_cons, toPoly_append, toPoly_cons, add_mul,
        toPoly_mulTerm (h₁ m List.mem_cons_self) h₂,
        ih fun m' hm' => h₁ m' (List.mem_cons_of_mem _ hm')]

end DimExpr

end JaxDas.ShapePoly
