import JaxDas.ShapePoly.Polynomial

/-!
# The canonical form

A dimension is canonical when its stored terms are strictly descending and none of them has a
zero coefficient, when the factors of each term are strictly descending with exponents of at
least 1, and when it is a Python integer if it is constant. Two canonical dimensions that
denote the same polynomial are the same, so it is enough that every operation keeps the form
and does what it says to the polynomial.

The factors of a sum of an operation are sums again. There only the exponents matter: they
are positive at every depth, which makes the cached sizes positive and the constant term the
smallest.
-/

namespace JaxDas.ShapePoly

open SortedPairs

/-! ## Sizes -/

mutual

/-- The exponents inside a factor are at least 1, at every depth. -/
def DimFactor.Proper : DimFactor → Prop
  | .var _ => True
  | .operation _ e₁ e₂ => properExpr e₁ ∧ properExpr e₂
termination_by structural f => f

def properTerm : List (DimFactor × ℤ) → Prop
  | [] => True
  | (f, fexp) :: fs => f.Proper ∧ 1 ≤ fexp ∧ properTerm fs
termination_by structural t => t

def properExpr : List (List (DimFactor × ℤ) × ℤ) → Prop
  | [] => True
  | (t, _) :: ts => properTerm t ∧ properExpr ts
termination_by structural e => e

end

theorem properTerm_iff {t : DimTerm} : properTerm t ↔ ∀ m ∈ t, m.1.Proper ∧ 1 ≤ m.2 := by
  induction t with
  | nil => simp [properTerm]
  | cons m t ih => simp [properTerm, ih, and_assoc]

mutual

theorem DimFactor.one_le_size : ∀ {f : DimFactor}, f.Proper → 1 ≤ f.size
  | .var _, _ => le_refl _
  | .operation _ e₁ e₂, h => by
      rw [DimFactor.Proper] at h
      have h₁ := exprSize_nonneg h.1
      have h₂ := exprSize_nonneg h.2
      rw [DimFactor.size]
      omega
termination_by structural f => f

theorem termSize_nonneg : ∀ {t : List (DimFactor × ℤ)}, properTerm t → 0 ≤ termSize t
  | [], _ => le_refl _
  | (f, fexp) :: fs, h => by
      rw [properTerm] at h
      obtain ⟨hf, hexp, hfs⟩ := h
      have hsize := f.one_le_size hf
      have hrest := termSize_nonneg hfs
      have hmul : 0 ≤ fexp * f.size := Int.mul_nonneg (by omega) (by omega)
      rw [termSize]
      omega
termination_by structural t => t

theorem exprSize_nonneg : ∀ {e : List (List (DimFactor × ℤ) × ℤ)}, properExpr e → 0 ≤ exprSize e
  | [], _ => le_refl _
  | (t, k) :: ts, h => by
      rw [properExpr] at h
      have ht := termSize_nonneg h.1
      have hts := exprSize_nonneg h.2
      have hmul : 0 ≤ |k| * termSize t := Int.mul_nonneg (abs_nonneg k) ht
      rw [exprSize]
      omega
termination_by structural e => e

end

/-- The constant term is the smallest. -/
theorem syntacticCmp_one {t : DimTerm} (h : properTerm t) (hne : t ≠ []) :
    DimTerm.syntacticCmp t [] = .gt := by
  cases t with
  | nil => exact absurd rfl hne
  | cons m fs =>
      obtain ⟨hf, hexp, hfs⟩ := h
      have hrest := termSize_nonneg hfs
      have hmul : 0 ≤ m.2 * m.1.size :=
        Int.mul_nonneg (by omega) (by have := m.1.one_le_size hf; omega)
      have hlt : termSize [] < termSize (m :: fs) := by
        rw [show termSize [] = 0 from rfl, termSize]
        omega
      unfold DimTerm.syntacticCmp
      rw [compare_gt_iff_gt.mpr hlt]
      rfl

/-! ## Canonical dimensions -/

structure DimTerm.Canonical (t : DimTerm) : Prop where
  proper : properTerm t
  desc : Desc DimFactor.syntacticCmp t

structure DimExpr.Canonical (e : DimExpr) : Prop where
  term : ∀ m ∈ e, DimTerm.Canonical m.1
  desc : Desc DimTerm.syntacticCmp e
  nonZero : NonZero e

/-- A symbolic dimension is not constant. -/
def DimSize.Canonical : DimSize → Prop
  | .int _ => True
  | .expr e => e.Canonical ∧ e.leadingTerm.1.isConstant = false

namespace DimTerm

theorem Canonical.positive {t : DimTerm} (h : t.Canonical) : t.Positive :=
  fun m hm => (properTerm_iff.mp h.proper m hm).2

theorem canonical_one : one.Canonical := ⟨trivial, List.Pairwise.nil⟩

theorem canonical_factor {f : DimFactor} (h : f.Proper) : Canonical [(f, 1)] :=
  ⟨⟨h, le_refl _, trivial⟩, List.pairwise_singleton _ _⟩

theorem canonical_mul {t u : DimTerm} (ht : t.Canonical) (hu : u.Canonical) :
    (t.mul u).Canonical := by
  refine ⟨properTerm_iff.mpr fun m hm => ⟨?_, mem_mul ht.positive hu.positive hm⟩,
    desc_merge ht.desc hu.desc⟩
  rcases mem_merge_keys hm with ⟨c, hc⟩ | ⟨c, hc⟩
  · exact (properTerm_iff.mp ht.proper _ hc).1
  · exact (properTerm_iff.mp hu.proper _ hc).1

theorem Canonical.exponents_inj {t u : DimTerm} (ht : t.Canonical) (hu : u.Canonical)
    (h : t.exponents = u.exponents) : t = u :=
  eq_of_exponents ht.positive hu.positive ht.desc hu.desc h

end DimTerm

namespace DimExpr

theorem Canonical.tail {m : DimTerm × ℤ} {e : DimExpr} (h : Canonical (m :: e)) : e.Canonical :=
  ⟨fun m' hm => h.term m' (List.mem_cons_of_mem _ hm), h.desc.tail,
    fun m' hm => h.nonZero m' (List.mem_cons_of_mem _ hm)⟩

theorem Canonical.positive {e : DimExpr} (h : e.Canonical) : e.Positive :=
  fun m hm => (h.term m hm).positive

theorem canonical_nil : Canonical [] :=
  ⟨fun _ hm => absurd hm List.not_mem_nil, List.Pairwise.nil,
    fun _ hm => absurd hm List.not_mem_nil⟩

theorem canonical_single {t : DimTerm} {k : ℤ} (ht : t.Canonical) (hk : k ≠ 0) :
    Canonical [(t, k)] := by
  refine ⟨fun m hm => ?_, List.pairwise_singleton _ _, fun m hm => ?_⟩
  · rw [List.mem_singleton.mp hm]
    exact ht
  · rw [List.mem_singleton.mp hm]
    exact hk

/-- Only the last term may be constant. -/
theorem Canonical.eq_nil_of_constant {t : DimTerm} {k : ℤ} {ts : DimExpr}
    (h : Canonical ((t, k) :: ts)) (ht : t.isConstant = true) : ts = [] := by
  cases ts with
  | nil => rfl
  | cons m ts =>
      obtain rfl : t = [] := List.isEmpty_iff.mp ht
      have hgt : DimTerm.syntacticCmp [] m.1 = .gt :=
        h.desc.head_gt (show (m.1, m.2) ∈ m :: ts from List.mem_cons_self)
      by_cases hm : m.1 = []
      · rw [hm, DimTerm.syntacticCmp_self] at hgt
        injection hgt
      · have hswap := DimTerm.syntacticCmp_swap m.1 []
        rw [syntacticCmp_one (h.term m (by simp)).proper hm, hgt] at hswap
        injection hswap

/-- The coefficient of a term is that of the monomial it denotes. -/
theorem Canonical.coeff_toPoly {e : DimExpr} (he : e.Canonical) {t : DimTerm} (ht : t.Canonical) :
    MvPolynomial.coeff t.exponents e.toPoly = coeff t e := by
  rw [DimExpr.coeff_toPoly]
  refine total_congr fun m hm => ?_
  by_cases heq : m.1 = t
  · rw [heq]
    simp
  · rw [if_neg heq, if_neg fun h => heq ((he.term m hm).exponents_inj ht h)]

/-- **An expression in canonical form is determined by its polynomial.** -/
theorem Canonical.eq_of_toPoly {e e' : DimExpr} (he : e.Canonical) (he' : e'.Canonical)
    (h : e.toPoly = e'.toPoly) : e = e' := by
  refine eq_of_coeff he.desc he'.desc he.nonZero he'.nonZero fun t => ?_
  by_cases ht : t.Canonical
  · rw [← he.coeff_toPoly ht, ← he'.coeff_toPoly ht, h]
  · rw [coeff_eq_zero fun c hc => ht (he.term _ hc), coeff_eq_zero fun c hc => ht (he'.term _ hc)]

end DimExpr

/-! ## Normalization without equality constraints -/

theorem normalizeFactors_nil (t : DimTerm) (tk : ℤ) (fs : List (DimFactor × ℤ)) :
    normalizeFactors [] t tk fs = [] := by
  induction fs with
  | nil => rfl
  | cons f fs ih => exact ih

theorem normalizeTerm_nil (t : DimTerm) (tk : ℤ) : normalizeTerm [] t tk = [] := by
  have h : normalizeTerm [] t tk = if t.length ≤ 1 then [] else normalizeFactors [] t tk t := rfl
  rw [h, normalizeFactors_nil, ite_self]

theorem firstUpdates_nil (terms : DimExpr) : firstUpdates [] terms = [] := by
  induction terms with
  | nil => rfl
  | cons m terms ih =>
      rw [firstUpdates, normalizeTerm_nil]
      exact ih

@[simp] theorem normalizeSortedTerms_nil (terms : DimExpr) :
    normalizeSortedTerms [] terms = ofSortedTerms terms := by
  unfold normalizeSortedTerms normalizedTerms
  rw [firstUpdates_nil]

/-- Sorted terms make a canonical dimension of the same meaning. -/
theorem ofSortedTerms_spec {e : DimExpr} (h : e.Canonical) :
    (ofSortedTerms e).Canonical ∧ (ofSortedTerms e).toPoly = e.toPoly := by
  cases e with
  | nil => exact ⟨trivial, map_zero _⟩
  | cons m ts =>
      obtain ⟨t, k⟩ := m
      rw [ofSortedTerms]
      split
      · rename_i ht
        obtain rfl := h.eq_nil_of_constant ht
        obtain rfl : t = [] := List.isEmpty_iff.mp ht
        refine ⟨trivial, ?_⟩
        rw [DimSize.toPoly, DimExpr.toPoly_cons, DimExpr.toPoly_nil, add_zero]
        rfl
      · rename_i ht
        exact ⟨⟨h, Bool.eq_false_iff.mpr ht⟩, rfl⟩

end JaxDas.ShapePoly
