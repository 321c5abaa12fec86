import Mathlib.Algebra.MvPolynomial.CommRing
import JaxDas.Lib.Fallible
import JaxDas.ShapePoly.TermOrder

/-!
# One iteration of the division

The loop of `_divmod` cancels the leading term of the running dividend with a multiple of the
divisor. Its comment says that the leading term decreases. That holds of an iteration exactly
when every other term of the divisor, multiplied by the same monomial, stays below the term
that is cancelled: those that do not are what the next dividend starts with.

The arithmetic is that of a scope without equality constraints.
-/

namespace JaxDas.ShapePoly

open SortedPairs

namespace DimSize

/-- The leading term, for an integer that of the constant. -/
def lead (d : DimSize) : DimTerm × ℤ := d.ensurePoly.leadingTerm

/-- The terms below the leading one. -/
def lower (d : DimSize) : DimExpr := d.ensurePoly.tail

/-- What one can divide by. -/
structure Divisor (d : DimSize) : Prop where
  canonical : d.Canonical
  ne_zero : d ≠ .int 0

theorem toPoly_ensurePoly (d : DimSize) : d.ensurePoly.toPoly = d.toPoly := by
  cases d with
  | int k =>
      rw [ensurePoly, DimExpr.toPoly_cons, DimExpr.toPoly_nil, add_zero]
      rfl
  | expr e => rfl

theorem Divisor.terms {d : DimSize} (h : d.Divisor) :
    d.ensurePoly.Canonical ∧ d.ensurePoly = d.lead :: d.lower := by
  obtain ⟨hc, hne⟩ := h
  cases d with
  | int k =>
      have hk : k ≠ 0 := fun h0 => hne (h0 ▸ rfl)
      exact ⟨DimExpr.canonical_single DimTerm.canonical_one hk, rfl⟩
  | expr e =>
      refine ⟨hc.1, ?_⟩
      cases e with
      | nil => exact absurd rfl (Bool.eq_false_iff.mp hc.2)
      | cons m ts => rfl

theorem Divisor.lead_canonical {d : DimSize} (h : d.Divisor) : d.lead.1.Canonical := by
  have hterms := h.terms
  exact hterms.1.term d.lead (by rw [hterms.2]; exact List.mem_cons_self)

theorem Divisor.lead_ne_zero {d : DimSize} (h : d.Divisor) : d.lead.2 ≠ 0 := by
  have hterms := h.terms
  exact hterms.1.nonZero d.lead (by rw [hterms.2]; exact List.mem_cons_self)

/-- The leading term of a dimension that is not constant. -/
theorem Canonical.lead_ne_one {e : DimExpr} (h : (expr e).Canonical) :
    (expr e).lead.1 ≠ DimTerm.one := by
  intro hone
  have hlead := h.2
  rw [show e.leadingTerm.1 = DimTerm.one from hone] at hlead
  injection hlead

theorem divisor_expr {e : DimExpr} (h : (expr e).Canonical) : (expr e).Divisor :=
  ⟨h, fun heq => by injection heq⟩

/-- What occurs in a dimension is at most its leading term. -/
theorem Canonical.le_lead {d : DimSize} (h : d.Canonical) {t : DimTerm} (ht : t.Canonical)
    (hc : MvPolynomial.coeff t.exponents d.toPoly ≠ 0) :
    t = d.lead.1 ∨ t.syntacticCmp d.lead.1 = .lt := by
  classical
  cases d with
  | int k =>
      refine .inl (ht.exponents_inj DimTerm.canonical_one ?_)
      by_contra hne
      rw [toPoly, MvPolynomial.coeff_C, if_neg fun h0 => hne h0.symm] at hc
      exact hc rfl
  | expr e =>
      have hterms := (divisor_expr h).terms
      have hcoeff := h.1.coeff_toPoly ht
      have hmem : (t, coeff t e) ∈ e := by
        refine (mem_iff_coeff h.1.desc h.1.nonZero).mpr ⟨rfl, ?_⟩
        rw [← hcoeff]
        exact hc
      have heq : e = (expr e).lead :: (expr e).lower := hterms.2
      rw [heq] at hmem
      rcases List.mem_cons.mp hmem with hhead | htail
      · exact .inl (congrArg Prod.fst hhead)
      · refine .inr ?_
        have hdesc := h.1.desc
        rw [heq] at hdesc
        rw [← DimTerm.syntacticCmp_swap, hdesc.head_gt htail]
        rfl

theorem Divisor.coeff_lead {d : DimSize} (h : d.Divisor) :
    MvPolynomial.coeff d.lead.1.exponents d.toPoly = d.lead.2 := by
  have hterms := h.terms
  rw [← toPoly_ensurePoly, hterms.1.coeff_toPoly h.lead_canonical]
  exact coeff_of_mem hterms.1.desc (show (d.lead.1, d.lead.2) ∈ _ by
    rw [hterms.2]; exact List.mem_cons_self)

end DimSize

/-! ## The quotient of the leading terms -/

/-- Division of terms undoes multiplication. -/
theorem DimTerm.divide_iff {t d q : DimTerm} (ht : t.Canonical) (hd : d.Canonical) :
    t.divide d = .ok q ↔ q.Canonical ∧ q.mul d = t := by
  have hquot : ∀ f, coeff f (t.quotient d) = coeff f t - coeff f d := by
    intro f
    rw [quotient, coeff_merge fun _ _ h => DimFactor.eq_of_syntacticCmp h]
    ring
  have hdesc : Desc DimFactor.syntacticCmp (t.quotient d) := desc_merge ht.desc hd.desc
  unfold divide
  constructor
  · intro h
    split at h
    · rename_i hall
      injection h with h
      subst h
      have hcan : (t.quotient d).Canonical := by
        refine ⟨properTerm_iff.mpr fun m hm => ⟨?_, ?_⟩, hdesc⟩
        · rcases mem_merge_keys hm with ⟨c, hc⟩ | ⟨c, hc⟩
          · exact (properTerm_iff.mp ht.proper _ hc).1
          · exact (properTerm_iff.mp hd.proper _ hc).1
        · exact of_decide_eq_true (List.all_eq_true.mp hall m hm)
      refine ⟨hcan, (canonical_mul hcan hd).ext ht fun f => ?_⟩
      rw [coeff_mul, hquot]
      ring
    · injection h
  · intro h
    obtain ⟨hq, hmul⟩ := h
    have hzero : NonZero (t.quotient d) :=
      nonZero_merge one_ne_zero (by omega) ht.nonZero hd.nonZero
    have heq : t.quotient d = q := by
      refine eq_of_coeff hdesc hq.desc hzero hq.nonZero fun f => ?_
      rw [hquot, ← hmul, coeff_mul]
      ring
    rw [heq, if_pos]
    exact List.all_eq_true.mpr fun m hm => decide_eq_true (hq.positive m hm)

theorem DimTerm.Canonical.mul_one {t : DimTerm} (h : t.Canonical) : t.mul DimTerm.one = t :=
  (DimTerm.canonical_mul h DimTerm.canonical_one).ext h fun f => by
    rw [DimTerm.coeff_mul, show coeff f DimTerm.one = 0 from rfl, add_zero]

/-- A monomial with the quotient of two coefficients, when that leaves no remainder. -/
def exactQuotient (count dcount : ℤ) (qterm : DimTerm) : Option (DimTerm × ℤ) :=
  if count.fmod dcount = 0 then some (qterm, count.fdiv dcount) else none

/-- The monomial and the coefficient that one iteration adds to the quotient, when the leading
terms divide. -/
def quotientTerm (divisor : DimSize) (e : DimExpr) : Option (DimTerm × ℤ) :=
  match divisor with
  | .int k => exactQuotient e.leadingTerm.2 k e.leadingTerm.1
  | .expr d =>
      (e.leadingTerm.1.divide d.leadingTerm.1).toOption.bind
        (exactQuotient e.leadingTerm.2 d.leadingTerm.2)

theorem exactQuotient_iff {count dcount k : ℤ} (hd : dcount ≠ 0) {qterm q : DimTerm} :
    exactQuotient count dcount qterm = some (q, k) ↔ qterm = q ∧ k * dcount = count := by
  unfold exactQuotient
  constructor
  · intro h
    split at h
    · rename_i hmod
      injection h with h
      injection h with hq hk
      rw [← hk]
      exact ⟨hq, Int.fdiv_mul_cancel_of_fmod_eq_zero hmod⟩
    · injection h
  · intro h
    obtain ⟨hq, hk⟩ := h
    rw [← hk, if_pos (Int.fmod_eq_zero_of_dvd (Dvd.intro_left k rfl)),
      Int.mul_fdiv_cancel k hd, hq]

/-- The leading term of the dividend is the product of the two. -/
theorem quotientTerm_iff {divisor : DimSize} (hd : divisor.Divisor) {e : DimExpr}
    (he : (DimSize.expr e).Canonical) {q : DimTerm} {k : ℤ} :
    quotientTerm divisor e = some (q, k) ↔
      q.Canonical ∧ q.mul divisor.lead.1 = e.leadingTerm.1 ∧
        k * divisor.lead.2 = e.leadingTerm.2 := by
  have hlead : DimTerm.Canonical e.leadingTerm.1 := (DimSize.divisor_expr he).lead_canonical
  cases divisor with
  | int c =>
      have hone : ∀ {t : DimTerm}, t.Canonical → t.mul (DimSize.int c).lead.1 = t :=
        fun ht => ht.mul_one
      refine (exactQuotient_iff hd.lead_ne_zero).trans ⟨?_, ?_⟩
      · intro h
        obtain ⟨rfl, hk⟩ := h
        exact ⟨hlead, hone hlead, hk⟩
      · intro h
        obtain ⟨hq, hmul, hk⟩ := h
        rw [hone hq] at hmul
        exact ⟨hmul.symm, hk⟩
  | expr d =>
      have hdivide := @DimTerm.divide_iff _ _ q hlead hd.lead_canonical
      rw [← and_assoc, ← hdivide]
      refine Option.bind_eq_some_iff.trans ⟨?_, ?_⟩
      · intro h
        obtain ⟨qterm, hdiv, h⟩ := h
        obtain ⟨rfl, hk⟩ := (exactQuotient_iff hd.lead_ne_zero).mp h
        exact ⟨toOption_eq_some_iff.mp hdiv, hk⟩
      · intro h
        exact ⟨q, toOption_eq_some_iff.mpr h.1,
          (exactQuotient_iff hd.lead_ne_zero).mpr ⟨rfl, h.2⟩⟩

/-- The coefficient is not zero, because that of the leading term is not. -/
theorem quotientTerm_ne_zero {divisor : DimSize} (hd : divisor.Divisor) {e : DimExpr}
    (he : (DimSize.expr e).Canonical) {q : DimTerm} {k : ℤ}
    (hqk : quotientTerm divisor e = some (q, k)) : k ≠ 0 := by
  obtain ⟨_, _, hcount⟩ := (quotientTerm_iff hd he).mp hqk
  intro h0
  rw [h0, zero_mul] at hcount
  exact (DimSize.divisor_expr he).lead_ne_zero hcount.symm

/-! ## The next dividend -/

/-- `dividend -= q * divisor` -/
def nextDividend (divisor : DimSize) (e : DimExpr) (q : DimTerm) (k : ℤ) : DimSize :=
  (DimSize.expr e).sub [] ((fromTerm [] q k).mul [] divisor)

theorem fromTerm_spec {q : DimTerm} (hq : q.Canonical) {k : ℤ} (hk : k ≠ 0) :
    (fromTerm [] q k).Denotes (MvPolynomial.monomial q.exponents k) := by
  have h := (DimExpr.canonical_single hq hk).denotes
  rw [DimExpr.toPoly_cons, DimExpr.toPoly_nil, add_zero] at h
  rw [fromTerm, normalizeSortedTerms_nil]
  exact h

theorem nextDividend_spec {divisor : DimSize} (hd : divisor.Divisor) {e : DimExpr}
    (he : (DimSize.expr e).Canonical) {q : DimTerm} (hq : q.Canonical) {k : ℤ} (hk : k ≠ 0) :
    (nextDividend divisor e q k).Denotes
      (e.toPoly - MvPolynomial.monomial q.exponents k * divisor.toPoly) := by
  have hqk := fromTerm_spec hq hk
  have hmul := DimSize.mul_spec hqk.canonical hd.canonical
  have hsub := DimSize.sub_spec he hmul.canonical
  rw [hmul.toPoly, hqk.toPoly] at hsub
  exact hsub

/-- The coefficients of a monomial times the divisor. -/
theorem coeff_monomial_mul_divisor {divisor : DimSize} (hd : divisor.Divisor) {q u : DimTerm}
    (hq : q.Canonical) (hu : u.Canonical) (k : ℤ) :
    MvPolynomial.coeff (q.mul u).exponents
        (MvPolynomial.monomial q.exponents k * divisor.toPoly) =
      k * coeff u divisor.ensurePoly := by
  rw [DimTerm.exponents_mul hq.positive hu.positive, MvPolynomial.coeff_monomial_mul,
    ← DimSize.toPoly_ensurePoly, hd.terms.1.coeff_toPoly hu]

/-- Its terms are the products of the monomial and the terms of the divisor. -/
theorem exists_of_coeff_ne_zero {divisor : DimSize} (hd : divisor.Divisor) {q t : DimTerm}
    (hq : q.Canonical) (ht : t.Canonical) {k : ℤ}
    (h : MvPolynomial.coeff t.exponents
      (MvPolynomial.monomial q.exponents k * divisor.toPoly) ≠ 0) :
    ∃ m ∈ divisor.ensurePoly, t = q.mul m.1 := by
  rw [MvPolynomial.coeff_monomial_mul', ← DimSize.toPoly_ensurePoly] at h
  split at h
  · rename_i hle
    by_contra hnone
    have hzero : total (fun u : DimTerm => if u.exponents = t.exponents - q.exponents then 1 else 0)
        divisor.ensurePoly = total (fun _ => 0) divisor.ensurePoly := by
      refine total_congr fun m hm => if_neg fun hm' => ?_
      have hcan := hd.terms.1.term m hm
      refine hnone ⟨m, hm, ht.exponents_inj (DimTerm.canonical_mul hq hcan) ?_⟩
      rw [DimTerm.exponents_mul hq.positive hcan.positive, hm', add_tsub_cancel_of_le hle]
    rw [DimExpr.coeff_toPoly, hzero, total_zero, mul_zero] at h
    exact h rfl
  · exact absurd rfl h

theorem mul_left_inj {q t u : DimTerm} (ht : t.Canonical) (hu : u.Canonical)
    (h : q.mul t = q.mul u) : t = u :=
  ht.ext hu fun f => by
    have hf := congrArg (coeff f) h
    rw [DimTerm.coeff_mul, DimTerm.coeff_mul] at hf
    omega

/-- **When the leading term decreases**: every other term of the divisor has to stay below the
term that is cancelled. -/
theorem lead_nextDividend_lt_iff {divisor : DimSize} (hd : divisor.Divisor) {e : DimExpr}
    (he : (DimSize.expr e).Canonical) {q : DimTerm} {k : ℤ}
    (hqk : quotientTerm divisor e = some (q, k)) :
    (nextDividend divisor e q k).lead.1.syntacticCmp e.leadingTerm.1 = .lt ↔
      ∀ m ∈ divisor.lower, (q.mul m.1).syntacticCmp e.leadingTerm.1 = .lt := by
  obtain ⟨hq, hmul, hcount⟩ := (quotientTerm_iff hd he).mp hqk
  have hed := DimSize.divisor_expr he
  have hmon : DimTerm.Canonical e.leadingTerm.1 := hed.lead_canonical
  have hk := quotientTerm_ne_zero hd he hqk
  have hnext := nextDividend_spec hd he hq hk
  have hterms := hd.terms
  -- the coefficients of the next dividend
  have hcoeff : ∀ t : DimTerm,
      MvPolynomial.coeff t.exponents (nextDividend divisor e q k).toPoly =
        MvPolynomial.coeff t.exponents e.toPoly - MvPolynomial.coeff t.exponents
          (MvPolynomial.monomial q.exponents k * divisor.toPoly) := by
    intro t
    rw [hnext.toPoly, MvPolynomial.coeff_sub]
  constructor
  · intro hlt m hm
    have hmem : m ∈ divisor.ensurePoly := by
      rw [hterms.2]
      exact List.mem_cons_of_mem _ hm
    have hcan := hterms.1.term m hmem
    have hqm := DimTerm.canonical_mul hq hcan
    have hprod : MvPolynomial.coeff (q.mul m.1).exponents
        (MvPolynomial.monomial q.exponents k * divisor.toPoly) ≠ 0 := by
      rw [coeff_monomial_mul_divisor hd hq hcan,
        coeff_of_mem hterms.1.desc (show (m.1, m.2) ∈ _ from hmem)]
      exact mul_ne_zero hk (hterms.1.nonZero m hmem)
    -- either it is a term of the dividend, or of the next one
    by_cases hdiv : MvPolynomial.coeff (q.mul m.1).exponents e.toPoly = 0
    · have hne : MvPolynomial.coeff (q.mul m.1).exponents
          (nextDividend divisor e q k).toPoly ≠ 0 := by
        rw [hcoeff, hdiv, zero_sub]
        exact neg_ne_zero.mpr hprod
      rcases hnext.canonical.le_lead hqm hne with heq | hle
      · rw [heq]
        exact hlt
      · exact DimTerm.syntacticCmp_trans hle hlt
    · rcases DimSize.Canonical.le_lead he hqm hdiv with heq | hle
      · -- only the leading term of the divisor gives the term that is cancelled
        have hlead := mul_left_inj hcan hd.lead_canonical (heq.trans hmul.symm)
        have hdesc := hterms.1.desc
        rw [hterms.2] at hdesc
        have hgt := hdesc.head_gt (show (m.1, m.2) ∈ divisor.lower from hm)
        rw [hlead, DimTerm.syntacticCmp_self] at hgt
        injection hgt
      · exact hle
  · intro hlow
    by_cases hone : (nextDividend divisor e q k).lead.1 = DimTerm.one
    · rw [hone, ← DimTerm.syntacticCmp_swap, show DimTerm.one = [] from rfl,
        syntacticCmp_one hmon.proper he.lead_ne_one]
      rfl
    have hnd : (nextDividend divisor e q k).Divisor := by
      refine ⟨hnext.canonical, fun h0 => hone ?_⟩
      rw [h0]
      rfl
    have hlead := hnd.lead_canonical
    have hne : MvPolynomial.coeff (nextDividend divisor e q k).lead.1.exponents
        (nextDividend divisor e q k).toPoly ≠ 0 := by
      rw [hnd.coeff_lead]
      exact hnd.lead_ne_zero
    -- the leading term of the dividend is cancelled
    have hcancel : (nextDividend divisor e q k).lead.1 ≠ e.leadingTerm.1 := by
      intro heq
      have hself : MvPolynomial.coeff (DimTerm.exponents e.leadingTerm.1) e.toPoly =
          e.leadingTerm.2 := hed.coeff_lead
      refine hne ?_
      rw [hcoeff, heq, hself]
      rw [← hmul, coeff_monomial_mul_divisor hd hq hd.lead_canonical,
        coeff_of_mem hterms.1.desc (show (divisor.lead.1, divisor.lead.2) ∈ _ by
          rw [hterms.2]; exact List.mem_cons_self), hcount, sub_self]
    rw [hcoeff] at hne
    by_cases hdiv : MvPolynomial.coeff (nextDividend divisor e q k).lead.1.exponents e.toPoly = 0
    · rw [hdiv, zero_sub] at hne
      obtain ⟨m, hm, heq⟩ := exists_of_coeff_ne_zero hd hq hlead (neg_ne_zero.mp hne)
      rw [hterms.2] at hm
      rcases List.mem_cons.mp hm with rfl | hm
      · exact absurd (heq.trans hmul) hcancel
      · rw [heq]
        exact hlow m hm
    · exact (DimSize.Canonical.le_lead he hlead hdiv).resolve_left hcancel

end JaxDas.ShapePoly
