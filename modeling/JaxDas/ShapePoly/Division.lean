import JaxDas.ShapePoly.DivisionStep

/-!
# Does symbolic division end?

While every iteration lowers the leading term, only finitely many can follow: no new factors
come up and the sizes are bounded, so the leading terms are from a finite set. What the loop
returns is then the quotient and the remainder, or division was given up.

The leading term does not always decrease. It does for all dividends exactly when the leading
term of the divisor dominates its other terms, and `a*b` does not dominate `a^2` or `b^2`:
dividing `a^2*b` by `a^2 + a*b + b^2` goes on for ever.
-/

namespace JaxDas.ShapePoly

open SortedPairs

/-! ## The loop -/

/-- The states of the loop: the running dividend and the quotient. -/
inductive Reaches (divisor start : DimSize) : DimSize → DimSize → Prop
  | start : Reaches divisor start start (.int 0)
  | next {e : DimExpr} {quotient : DimSize} {q : DimTerm} {k : ℤ} :
      Reaches divisor start (.expr e) quotient → e.leadingTerm.1.isConstant = false →
      quotientTerm divisor e = some (q, k) →
      Reaches divisor start (nextDividend divisor e q k) (quotient.add [] (fromTerm [] q k))

section

variable {divisor dividend quotient : DimSize} {fuel : ℕ}

theorem divmodLoop_constant {c : ℤ} (h : dividend.toConstant = some c) :
    divmodLoop [] divisor (fuel + 1) dividend quotient = .ok (c, quotient) := by
  unfold divmodLoop
  simp only [h]

theorem toConstant_expr {e : DimExpr} (h : e.leadingTerm.1.isConstant = false) :
    (DimSize.expr e).toConstant = none := by
  rw [DimSize.toConstant, h]
  rfl

theorem divide_error {t d : DimTerm} {err : PyErr} (h : t.divide d = .error err) :
    ∃ msg, err = .inconclusive msg := by
  unfold DimTerm.divide at h
  split at h
  · injection h
  · injection h with h
    exact ⟨_, h.symm⟩

/-- The leading terms do not divide: polynomial division gives up. -/
theorem divmodLoop_stuck (hd : divisor.Divisor) {e : DimExpr}
    (h : e.leadingTerm.1.isConstant = false) (hq : quotientTerm divisor e = none) :
    ∃ msg, ∀ fuel,
      divmodLoop [] divisor (fuel + 1) (.expr e) quotient = .error (.inconclusive msg) := by
  have hlead := hd.lead_ne_zero
  unfold divmodLoop
  simp only [toConstant_expr h]
  cases divisor with
  | int c =>
      have hc : ¬ c = 0 := hlead
      have hmod : e.leadingTerm.2.fmod c ≠ 0 := by
        intro h0
        rw [quotientTerm, exactQuotient, if_pos h0] at hq
        injection hq
      exact ⟨"", fun _ => by simp only [ok_bind, if_neg hc, if_pos hmod]⟩
  | expr d =>
      have hc : ¬ d.leadingTerm.2 = 0 := hlead
      cases hdiv : e.leadingTerm.1.divide d.leadingTerm.1 with
      | error err =>
          obtain ⟨msg, rfl⟩ := divide_error hdiv
          exact ⟨msg, fun _ => by simp only [hdiv]; rfl⟩
      | ok qterm =>
          have hmod : e.leadingTerm.2.fmod d.leadingTerm.2 ≠ 0 := by
            intro h0
            rw [quotientTerm, hdiv, Except.toOption, Option.bind_some, exactQuotient,
              if_pos h0] at hq
            injection hq
          exact ⟨"", fun _ => by simp only [hdiv, ok_bind, if_neg hc, if_pos hmod]⟩

theorem divmodLoop_next (hd : divisor.Divisor) {e : DimExpr}
    (h : e.leadingTerm.1.isConstant = false) {q : DimTerm} {k : ℤ}
    (hq : quotientTerm divisor e = some (q, k)) :
    divmodLoop [] divisor (fuel + 1) (.expr e) quotient =
      divmodLoop [] divisor fuel (nextDividend divisor e q k)
        (quotient.add [] (fromTerm [] q k)) := by
  have hlead := hd.lead_ne_zero
  conv_lhs => unfold divmodLoop
  simp only [toConstant_expr h]
  have hexact : ∀ {count dcount : ℤ} {qterm : DimTerm},
      exactQuotient count dcount qterm = some (q, k) →
      qterm = q ∧ ¬ count.fmod dcount ≠ 0 ∧ count.fdiv dcount = k := by
    intro count dcount qterm hex
    unfold exactQuotient at hex
    split at hex
    · rename_i hmod
      injection hex with hex
      injection hex with h₁ h₂
      exact ⟨h₁, not_not_intro hmod, h₂⟩
    · injection hex
  cases divisor with
  | int c =>
      have hc : ¬ c = 0 := hlead
      obtain ⟨rfl, hmod, rfl⟩ := hexact hq
      simp only [ok_bind, if_neg hc, if_neg hmod]
      rfl
  | expr d =>
      have hc : ¬ d.leadingTerm.2 = 0 := hlead
      obtain ⟨qterm, hdiv, hex⟩ := Option.bind_eq_some_iff.mp hq
      obtain ⟨rfl, hmod, rfl⟩ := hexact hex
      simp only [toOption_eq_some_iff.mp hdiv, ok_bind, if_neg hc, if_neg hmod]
      rfl

end

/-! ## The invariant -/

/-- The factors of the terms of an expression. -/
def DimExpr.factors (e : DimExpr) : Finset DimFactor :=
  e.foldr (fun m fs => DimTerm.factors m.1 ∪ fs) ∅

theorem DimExpr.factors_subset {e : DimExpr} {m : DimTerm × ℤ} (hm : m ∈ e) :
    DimTerm.factors m.1 ⊆ e.factors := by
  induction e with
  | nil => exact absurd hm List.not_mem_nil
  | cons m' e ih =>
      rcases List.mem_cons.mp hm with rfl | hm
      · exact Finset.subset_union_left
      · exact (ih hm).trans Finset.subset_union_right

/-- `self = dividend + divisor * quotient`, over the factors of both. -/
structure LoopInvariant (divisor d dividend quotient : DimSize) : Prop where
  /-- Only the dividend that was passed may be a constant kept as an expression. -/
  canonical_or : dividend.Canonical ∨ ∃ k, dividend = .expr [(DimTerm.one, k)]
  canonical_quotient : quotient.Canonical
  sum : d.toPoly = dividend.toPoly + divisor.toPoly * quotient.toPoly
  factors : ∀ t : DimTerm, t.Canonical → MvPolynomial.coeff t.exponents dividend.toPoly ≠ 0 →
    t.factors ⊆ d.ensurePoly.factors ∪ divisor.ensurePoly.factors

/-- What occurs in a dimension is over its factors. -/
theorem DimSize.Canonical.factors_subset {d : DimSize} (h : d.Canonical) {t : DimTerm}
    (ht : t.Canonical) (hc : MvPolynomial.coeff t.exponents d.toPoly ≠ 0) :
    t.factors ⊆ d.ensurePoly.factors := by
  cases d with
  | int k =>
      rcases h.le_lead ht hc with heq | hlt
      · rw [heq]
        exact Finset.empty_subset _
      · by_cases hone : t = []
        · rw [hone]
          exact Finset.empty_subset _
        · have hgt : t.syntacticCmp (DimSize.int k).lead.1 = .gt := syntacticCmp_one ht.proper hone
          rw [hgt] at hlt
          injection hlt
  | expr e =>
      have hmem : (t, coeff t e) ∈ e := by
        refine (mem_iff_coeff h.1.desc h.1.nonZero).mpr ⟨rfl, ?_⟩
        rw [← h.1.coeff_toPoly ht]
        exact hc
      exact DimExpr.factors_subset hmem

theorem loopInvariant_start {divisor d : DimSize} (h : d.Canonical) :
    LoopInvariant divisor d (.expr d.ensurePoly) (.int 0) := by
  refine ⟨?_, trivial, ?_, fun t ht hc => ?_⟩
  · cases d with
    | int k => exact .inr ⟨k, rfl⟩
    | expr e => exact .inl h
  · rw [show (DimSize.int 0).toPoly = 0 from map_zero _, mul_zero, add_zero]
    exact (DimSize.toPoly_ensurePoly d).symm
  · rw [show (DimSize.expr d.ensurePoly).toPoly = d.toPoly from DimSize.toPoly_ensurePoly d] at hc
    exact (h.factors_subset ht hc).trans Finset.subset_union_left

section

variable {divisor d : DimSize} {e : DimExpr} {quotient : DimSize}

theorem LoopInvariant.canonical (h : LoopInvariant divisor d (.expr e) quotient)
    (hne : e.leadingTerm.1.isConstant = false) : (DimSize.expr e).Canonical := by
  rcases h.canonical_or with hc | ⟨k, hk⟩
  · exact hc
  · injection hk with hk
    rw [hk] at hne
    injection hne

theorem LoopInvariant.next (hd : divisor.Divisor)
    (h : LoopInvariant divisor d (.expr e) quotient)
    (hne : e.leadingTerm.1.isConstant = false) {q : DimTerm} {k : ℤ}
    (hqk : quotientTerm divisor e = some (q, k)) :
    LoopInvariant divisor d (nextDividend divisor e q k) (quotient.add [] (fromTerm [] q k)) := by
  have he := h.canonical hne
  have hed := DimSize.divisor_expr he
  obtain ⟨hq, hmul, _⟩ := (quotientTerm_iff hd he).mp hqk
  have hk := quotientTerm_ne_zero hd he hqk
  have hnext := nextDividend_spec hd he hq hk
  have hterm := fromTerm_spec hq hk
  have hadd := DimSize.add_spec h.canonical_quotient hterm.canonical
  refine ⟨.inl hnext.canonical, hadd.canonical, ?_, fun t ht hc => ?_⟩
  · have hsum := h.sum
    rw [show (DimSize.expr e).toPoly = e.toPoly from rfl] at hsum
    rw [hnext.toPoly, hadd.toPoly, hterm.toPoly, hsum]
    ring
  · rw [hnext.toPoly, MvPolynomial.coeff_sub] at hc
    by_cases hdiv : MvPolynomial.coeff t.exponents e.toPoly = 0
    · rw [hdiv, zero_sub] at hc
      obtain ⟨m, hm, rfl⟩ := exists_of_coeff_ne_zero hd hq ht (neg_ne_zero.mp hc)
      -- the factors of the monomial are factors of the term that is cancelled
      have hlead := h.factors e.leadingTerm.1 hed.lead_canonical (by
        rw [show MvPolynomial.coeff (DimTerm.exponents e.leadingTerm.1) (DimSize.expr e).toPoly =
          e.leadingTerm.2 from hed.coeff_lead]
        exact hed.lead_ne_zero)
      rw [← hmul, DimTerm.factors_mul hq hd.lead_canonical] at hlead
      rw [DimTerm.factors_mul hq (hd.terms.1.term m hm)]
      exact Finset.union_subset (Finset.subset_union_left.trans hlead)
        ((DimExpr.factors_subset hm).trans Finset.subset_union_right)
    · exact h.factors t ht hdiv

theorem Reaches.invariant (hd : divisor.Divisor) (h : d.Canonical) {dividend quotient : DimSize}
    (hr : Reaches divisor (.expr d.ensurePoly) dividend quotient) :
    LoopInvariant divisor d dividend quotient := by
  induction hr with
  | start => exact loopInvariant_start h
  | next _ hne hqk ih => exact ih.next hd hne hqk

end

/-! ## Termination -/

/-- The leading term decreases at every iteration. -/
def Decreases (divisor start : DimSize) : Prop :=
  ∀ e quotient q k, Reaches divisor start (.expr e) quotient →
    e.leadingTerm.1.isConstant = false → quotientTerm divisor e = some (q, k) →
    (nextDividend divisor e q k).lead.1.syntacticCmp e.leadingTerm.1 = .lt

/-- How the loop may end. -/
def LoopEnd (divisor d : DimSize) (r : Except PyErr (ℤ × DimSize)) : Prop :=
  (∃ msg, r = .error (.inconclusive msg)) ∨
    ∃ c quotient, r = .ok (c, quotient) ∧ quotient.Canonical ∧
      d.toPoly = MvPolynomial.C c + divisor.toPoly * quotient.toPoly

theorem divmodLoop_ends {divisor d : DimSize} (hd : divisor.Divisor) (h : d.Canonical)
    (hdec : Decreases divisor (.expr d.ensurePoly)) {size : ℤ} :
    ∀ t : DimTerm.Within (d.ensurePoly.factors ∪ divisor.ensurePoly.factors) size,
    ∀ e quotient, Reaches divisor (.expr d.ensurePoly) (.expr e) quotient →
    e.leadingTerm.1.isConstant = false → e.leadingTerm.1 = t.1 →
    ∃ n r, (∀ fuel ≥ n, divmodLoop [] divisor fuel (.expr e) quotient = r) ∧
      LoopEnd divisor d r := by
  intro t
  induction t using (DimTerm.wellFounded_within _ size).induction with
  | _ t ih =>
      intro e quotient hr hne hlead
      cases hqk : quotientTerm divisor e with
      | none =>
          obtain ⟨msg, hmsg⟩ := @divmodLoop_stuck divisor quotient hd e hne hqk
          refine ⟨1, _, fun fuel hfuel => ?_, .inl ⟨msg, rfl⟩⟩
          obtain ⟨fuel, rfl⟩ := Nat.exists_eq_add_of_le' hfuel
          exact hmsg fuel
      | some qk =>
          obtain ⟨q, k⟩ := qk
          have hinv := hr.invariant hd h
          have hnext := hr.next hne hqk
          have hinv' := hinv.next hd hne hqk
          have hlt := hdec e quotient q k hr hne hqk
          -- it is enough that the rest of the run ends
          suffices hrest : ∃ n r, (∀ fuel ≥ n, divmodLoop [] divisor fuel
              (nextDividend divisor e q k) (quotient.add [] (fromTerm [] q k)) = r) ∧
              LoopEnd divisor d r by
            obtain ⟨n, r, hrun, hend⟩ := hrest
            refine ⟨n + 1, r, fun fuel hfuel => ?_, hend⟩
            obtain ⟨fuel, rfl⟩ := Nat.exists_eq_add_of_le' (show 1 ≤ fuel by omega)
            rw [divmodLoop_next hd hne hqk]
            exact hrun fuel (by omega)
          cases hdividend : nextDividend divisor e q k with
          | int c =>
              rw [hdividend] at hinv'
              refine ⟨1, .ok (c, _), fun fuel hfuel => ?_,
                .inr ⟨c, _, rfl, hinv'.canonical_quotient, hinv'.sum⟩⟩
              obtain ⟨fuel, rfl⟩ := Nat.exists_eq_add_of_le' hfuel
              exact divmodLoop_constant rfl
          | expr e' =>
              rw [hdividend] at hinv' hnext hlt
              have hcan : (DimSize.expr e').Canonical := by
                have he := hinv.canonical hne
                have hspec := nextDividend_spec hd he ((quotientTerm_iff hd he).mp hqk).1
                  (quotientTerm_ne_zero hd he hqk)
                rw [hdividend] at hspec
                exact hspec.canonical
              have hed := DimSize.divisor_expr hcan
              have hmem := hinv'.factors _ hed.lead_canonical (by
                rw [hed.coeff_lead]
                exact hed.lead_ne_zero)
              have hsize : termSize (DimSize.expr e').lead.1 ≤ size := by
                have hle := t.2.2.2
                rw [← hlead] at hle
                rcases DimTerm.syntacticCmp_lt_iff.mp hlt with hlt | ⟨heq, _⟩ <;> omega
              exact ih ⟨_, hed.lead_canonical, hmem, hsize⟩ (hlead ▸ hlt) e' _ hnext hcan.2 rfl

/-! ## What division returns -/

/-- The quotient and the remainder. By an expression the remainder is 0, by an integer it is
that of Python. -/
structure ExactDivision (d divisor quotient remainder : DimSize) : Prop where
  product : d.toPoly = divisor.toPoly * quotient.toPoly + remainder.toPoly
  by_expr : ∀ e, divisor = .expr e → remainder = .int 0
  by_int : ∀ k, divisor = .int k → ∃ r, remainder = .int r ∧ (0 ≤ r ∧ r < k ∨ k < r ∧ r ≤ 0)

/-- The loop ends, because the leading term decreases, and division returns the quotient and
the remainder or the two factors. -/
structure DivmodEnds (d divisor : DimSize) : Prop where
  decreases : Decreases divisor (.expr d.ensurePoly)
  returns : ∃ n r, (∀ fuel ≥ n, divmod [] fuel d.ensurePoly divisor = .ok r) ∧
    (r = divmodFactors [] d.ensurePoly divisor ∨ ExactDivision d divisor r.1 r.2)

theorem divmod_of_loopEnd {d divisor : DimSize} (hd : divisor.Divisor)
    {r : Except PyErr (ℤ × DimSize)} (hend : LoopEnd divisor d r) :
    ∃ res, (∀ fuel, divmodLoop [] divisor fuel (.expr d.ensurePoly) (.int 0) = r →
        divmod [] fuel d.ensurePoly divisor = .ok res) ∧
      (res = divmodFactors [] d.ensurePoly divisor ∨ ExactDivision d divisor res.1 res.2) := by
  rcases hend with ⟨msg, rfl⟩ | ⟨c, quotient, rfl, hquot, hsum⟩
  · exact ⟨_, fun fuel hrun => by rw [divmod, hrun], .inl rfl⟩
  · cases divisor with
    | expr e =>
        by_cases hc : c = 0
        · refine ⟨(quotient, .int 0), fun fuel hrun => by rw [divmod, hrun]; simp [hc], .inr ?_⟩
          refine ⟨?_, fun _ _ => rfl, fun k hk => by injection hk⟩
          rw [hsum, hc]
          exact add_comm _ _
        · exact ⟨_, fun fuel hrun => by rw [divmod, hrun]; simp [hc], .inl rfl⟩
    | int k =>
        have hk : k ≠ 0 := fun h0 => hd.ne_zero (by rw [h0])
        have hadd := DimSize.add_spec hquot (show (DimSize.int (c.fdiv k)).Canonical from trivial)
        refine ⟨(quotient.add [] (.int (c.fdiv k)), .int (c.fmod k)),
          fun fuel hrun => by rw [divmod, hrun]; simp [hk], .inr ?_⟩
        refine ⟨?_, (fun e he => by injection he), fun k' hk' => ?_⟩
        · have hdiv : c.fdiv k * k + c.fmod k = c := Int.fdiv_mul_add_fmod c k
          rw [hadd.toPoly, hsum]
          simp only [DimSize.toPoly]
          conv_lhs => rw [← hdiv]
          rw [map_add, map_mul]
          ring
        · injection hk' with hk'
          subst hk'
          refine ⟨_, rfl, ?_⟩
          rcases lt_or_gt_of_ne hk with hneg | hpos
          · refine .inr ?_
            have h₁ := Int.emod_nonneg c hk
            have h₂ := Int.emod_lt_abs c hk
            rw [abs_of_neg hneg] at h₂
            have hdvd : k ∣ c → c % k = 0 := Int.emod_eq_zero_of_dvd
            rw [Int.fmod_eq_emod, if_congr (or_iff_right (by omega)) rfl rfl]
            split
            · rename_i h0
              rw [hdvd h0]
              omega
            · rename_i h0
              have : c % k ≠ 0 := fun h => h0 (Int.dvd_of_emod_eq_zero h)
              omega
          · exact .inl ⟨Int.fmod_nonneg_of_pos c hpos, Int.fmod_lt_of_pos c hpos⟩

theorem divmodEnds_of_decreases {d divisor : DimSize} (hd : divisor.Divisor) (h : d.Canonical)
    (hdec : Decreases divisor (.expr d.ensurePoly)) : DivmodEnds d divisor := by
  refine ⟨hdec, ?_⟩
  suffices hrun : ∃ n r, (∀ fuel ≥ n,
      divmodLoop [] divisor fuel (.expr d.ensurePoly) (.int 0) = r) ∧ LoopEnd divisor d r by
    obtain ⟨n, r, hrun, hend⟩ := hrun
    obtain ⟨res, hres, hwhat⟩ := divmod_of_loopEnd hd hend
    exact ⟨n, res, fun fuel hfuel => hres fuel (hrun fuel hfuel), hwhat⟩
  have hstart : Reaches divisor (.expr d.ensurePoly) (.expr d.ensurePoly) (.int 0) := .start
  have hinv := hstart.invariant hd h
  cases d with
  | int k =>
      refine ⟨1, .ok (k, .int 0), fun fuel hfuel => ?_,
        .inr ⟨k, _, rfl, trivial, ?_⟩⟩
      · obtain ⟨fuel, rfl⟩ := Nat.exists_eq_add_of_le' hfuel
        exact divmodLoop_constant rfl
      · rw [show (DimSize.int 0).toPoly = 0 from map_zero _, mul_zero, add_zero]
        rfl
  | expr e =>
      have hed := DimSize.divisor_expr h
      have hmem := hinv.factors _ hed.lead_canonical (by
        change MvPolynomial.coeff _ (DimSize.expr e).toPoly ≠ 0
        rw [hed.coeff_lead]
        exact hed.lead_ne_zero)
      exact divmodLoop_ends hd h hdec ⟨_, hed.lead_canonical, hmem, le_refl _⟩ e _ hstart h.2 rfl

/-! ## When it ends -/

/-- In a step of the loop: every other term of the divisor, multiplied by the monomial that is
added to the quotient, stays below the leading term of the dividend. -/
def StaysBelow (divisor : DimSize) (e : DimExpr) : Prop :=
  ∀ q k, quotientTerm divisor e = some (q, k) →
    ∀ m ∈ divisor.lower, (q.mul m.1).syntacticCmp e.leadingTerm.1 = .lt

/-- The leading term of a divisor dominates its other terms. -/
def DimSize.LeadDominates (divisor : DimSize) : Prop :=
  ∀ m ∈ divisor.lower, divisor.lead.1.Dominates m.1

theorem divmodEnds_iff {d divisor : DimSize} (hd : divisor.Divisor) (h : d.Canonical) :
    DivmodEnds d divisor ↔ ∀ e quotient, Reaches divisor (.expr d.ensurePoly) (.expr e) quotient →
      e.leadingTerm.1.isConstant = false → StaysBelow divisor e := by
  constructor
  · intro hends e quotient hr hne q k hqk
    have he := (hr.invariant hd h).canonical hne
    exact (lead_nextDividend_lt_iff hd he hqk).mp (hends.decreases e quotient q k hr hne hqk)
  · intro hbelow
    refine divmodEnds_of_decreases hd h fun e quotient q k hr hne hqk => ?_
    have he := (hr.invariant hd h).canonical hne
    exact (lead_nextDividend_lt_iff hd he hqk).mpr (hbelow e quotient hr hne q k hqk)

/-- A divisor whose leading term does not dominate is bad for some dividend. -/
theorem leadDominates_of_divmodEnds {divisor : DimSize} (hd : divisor.Divisor)
    (hends : ∀ d : DimSize, d.Canonical → DivmodEnds d divisor) : divisor.LeadDominates := by
  intro m hm
  have hterms := hd.terms
  have hcan := hterms.1.term m (by rw [hterms.2]; exact List.mem_cons_of_mem _ hm)
  have hlead := hd.lead_canonical
  have hq := hlead.missing m.1
  have hprod := DimTerm.canonical_mul hq hlead
  -- only an expression has terms below the leading one
  have hne : divisor.lead.1 ≠ [] := by
    cases divisor with
    | int k => exact absurd hm List.not_mem_nil
    | expr e => exact DimSize.Canonical.lead_ne_one hd.canonical
  have hconst : ((divisor.lead.1.missing m.1).mul divisor.lead.1).isConstant = false := by
    refine Bool.eq_false_iff.mpr fun hnil => hne ?_
    refine hlead.ext DimTerm.canonical_one fun f => ?_
    have hf := DimTerm.coeff_mul (divisor.lead.1.missing m.1) divisor.lead.1 f
    rw [List.isEmpty_iff.mp hnil, coeff_nil] at hf
    have h₁ := hq.coeff_nonneg f
    have h₂ := hlead.coeff_nonneg f
    change _ = (0 : ℤ)
    omega
  have he : (DimSize.expr [((divisor.lead.1.missing m.1).mul divisor.lead.1,
      divisor.lead.2)]).Canonical :=
    ⟨DimExpr.canonical_single hprod hd.lead_ne_zero, hconst⟩
  have hbelow := (divmodEnds_iff hd he).mp (hends _ he) _ _ .start hconst
    (divisor.lead.1.missing m.1) 1
    ((quotientTerm_iff hd he).mpr ⟨hq, rfl, one_mul _⟩) m hm
  exact DimTerm.dominates_of_mul_lt hlead hcan hbelow

theorem staysBelow_of_leadDominates {divisor : DimSize} (hd : divisor.Divisor)
    (hdom : divisor.LeadDominates) {e : DimExpr} (he : (DimSize.expr e).Canonical) :
    StaysBelow divisor e := by
  intro q k hqk m hm
  obtain ⟨hq, hmul, _⟩ := (quotientTerm_iff hd he).mp hqk
  have hterms := hd.terms
  have hcan := hterms.1.term m (by rw [hterms.2]; exact List.mem_cons_of_mem _ hm)
  rw [← hmul]
  exact (hdom m hm).mul_lt hd.lead_canonical hcan hq

/-- Division ends as the comment says when, and only when, the products stay below the leading
term in every iteration of the run. They do for all dividends when, and only when, the leading
term of the divisor dominates its other terms. -/
theorem divmod_ends {divisor : DimSize} (hd : divisor.Divisor) :
    (∀ d : DimSize, d.Canonical →
      (DivmodEnds d divisor ↔
        ∀ e quotient, Reaches divisor (.expr d.ensurePoly) (.expr e) quotient →
          e.leadingTerm.1.isConstant = false → StaysBelow divisor e)) ∧
    ((∀ d : DimSize, d.Canonical → DivmodEnds d divisor) ↔ divisor.LeadDominates) := by
  refine ⟨fun d h => divmodEnds_iff hd h, leadDominates_of_divmodEnds hd, fun hdom d h => ?_⟩
  refine (divmodEnds_iff hd h).mpr fun e quotient hr hne => ?_
  exact staysBelow_of_leadDominates hd hdom ((hr.invariant hd h).canonical hne)

theorem canonical_power (v : String) {n : ℤ} (hn : 1 ≤ n) : DimTerm.Canonical [(.var v, n)] :=
  ⟨⟨trivial, hn, trivial⟩, List.pairwise_singleton _ _⟩

/-- The leading term of `b + 1` dominates, and `b^2 + b` can be divided by it. -/
theorem divmod_ends_bPlusOne :
    (DimSize.expr [([(.var "b", 1)], 1), ([], 1)]).LeadDominates ∧
      DivmodEnds (.expr [([(.var "b", 2)], 1), ([(.var "b", 1)], 1)])
        (.expr [([(.var "b", 1)], 1), ([], 1)]) := by
  have hdiv : (DimSize.expr [([(.var "b", 1)], 1), ([], 1)]).Canonical := by
    refine ⟨⟨?_, by unfold Desc; decide, by unfold NonZero; decide⟩, rfl⟩
    simp only [List.forall_mem_cons]
    exact ⟨canonical_power _ (by decide), DimTerm.canonical_one,
      fun _ h => absurd h List.not_mem_nil⟩
  have hdividend : (DimSize.expr [([(.var "b", 2)], 1), ([(.var "b", 1)], 1)]).Canonical := by
    refine ⟨⟨?_, by unfold Desc; decide, by unfold NonZero; decide⟩, rfl⟩
    simp only [List.forall_mem_cons]
    exact ⟨canonical_power _ (by decide), canonical_power _ (by decide),
      fun _ h => absurd h List.not_mem_nil⟩
  have hdom : (DimSize.expr [([(.var "b", 1)], 1), ([], 1)]).LeadDominates := by
    unfold DimSize.LeadDominates
    decide
  exact ⟨hdom, (divmod_ends (DimSize.divisor_expr hdiv)).2.mpr hdom _ hdividend⟩

/-! ## A division that goes on for ever -/

/-- The variables `a` and `b`, of which `b` is the larger one. -/
def dimA : DimFactor := .var "a"

def dimB : DimFactor := .var "b"

/-- `a^2 + a*b + b^2` as it is stored. -/
def sumOfProducts : DimExpr :=
  [([(dimB, 1), (dimA, 1)], 1), ([(dimB, 2)], 1), ([(dimA, 2)], 1)]

/-- The dividend after an even number of iterations: `a^2*b + k*b^3 - k*a^3`. -/
def evenDividend (k : ℕ) : DimExpr :=
  ([(dimB, 1), (dimA, 2)], 1) ::
    if k = 0 then [] else [([(dimB, 3)], (k : ℤ)), ([(dimA, 3)], -(k : ℤ))]

/-- After an odd number: `-a*b^2 + k*b^3 - (k + 1)*a^3`. -/
def oddDividend (k : ℕ) : DimExpr :=
  ([(dimB, 2), (dimA, 1)], -1) ::
    if k = 0 then [([(dimA, 3)], -1)] else [([(dimB, 3)], (k : ℤ)), ([(dimA, 3)], -(k : ℤ) - 1)]

theorem canonical_powers {n m : ℤ} (hn : 1 ≤ n) (hm : 1 ≤ m) :
    DimTerm.Canonical [(dimB, n), (dimA, m)] :=
  ⟨⟨trivial, hn, trivial, hm, trivial⟩,
    List.pairwise_pair.mpr (show dimB.syntacticCmp dimA = .gt by decide)⟩

theorem canonical_sumOfProducts : (DimSize.expr sumOfProducts).Canonical := by
  refine ⟨⟨?_, ?_, ?_⟩, rfl⟩
  · simp only [sumOfProducts, List.forall_mem_cons]
    exact ⟨canonical_powers (by decide) (by decide), canonical_power _ (by decide),
      canonical_power _ (by decide), fun _ h => absurd h List.not_mem_nil⟩
  · unfold Desc sumOfProducts
    decide
  · unfold NonZero sumOfProducts
    decide

theorem canonical_evenDividend (k : ℕ) : (DimSize.expr (evenDividend k)).Canonical := by
  refine ⟨⟨?_, ?_, ?_⟩, rfl⟩
  all_goals unfold evenDividend
  · split
    · simpa using canonical_powers (by decide) (by decide)
    · simp only [List.forall_mem_cons]
      exact ⟨canonical_powers (by decide) (by decide), canonical_power _ (by decide),
        canonical_power _ (by decide), fun _ h => absurd h List.not_mem_nil⟩
  · split
    · exact List.pairwise_singleton _ _
    · simp only [Desc, List.pairwise_cons, List.forall_mem_cons]
      simp
      decide
  · split
    · simp [NonZero]
    · rename_i hk
      simp [NonZero, hk]


theorem canonical_oddDividend (k : ℕ) : (DimSize.expr (oddDividend k)).Canonical := by
  refine ⟨⟨?_, ?_, ?_⟩, rfl⟩
  all_goals unfold oddDividend
  · split
    · simp only [List.forall_mem_cons]
      exact ⟨canonical_powers (by decide) (by decide), canonical_power _ (by decide),
        fun _ h => absurd h List.not_mem_nil⟩
    · simp only [List.forall_mem_cons]
      exact ⟨canonical_powers (by decide) (by decide), canonical_power _ (by decide),
        canonical_power _ (by decide), fun _ h => absurd h List.not_mem_nil⟩
  · split
    · unfold Desc
      decide
    · simp only [Desc, List.pairwise_cons, List.forall_mem_cons]
      simp
      decide
  · split
    · unfold NonZero
      decide
    · rename_i hk
      simp [NonZero, hk]
      omega

theorem toPoly_evenDividend (k : ℕ) : (evenDividend k).toPoly =
    MvPolynomial.X dimB * MvPolynomial.X dimA ^ 2 + MvPolynomial.C (k : ℤ) *
      (MvPolynomial.X dimB ^ 3 - MvPolynomial.X dimA ^ 3) := by
  unfold evenDividend
  split
  · rename_i hk
    simp [DimExpr.toPoly_cons, monomial_exponents, hk]
  · simp [DimExpr.toPoly_cons, monomial_exponents]
    ring

theorem toPoly_oddDividend (k : ℕ) : (oddDividend k).toPoly =
    -(MvPolynomial.X dimB ^ 2 * MvPolynomial.X dimA) + MvPolynomial.C (k : ℤ) *
      (MvPolynomial.X dimB ^ 3 - MvPolynomial.X dimA ^ 3) - MvPolynomial.X dimA ^ 3 := by
  unfold oddDividend
  split
  · rename_i hk
    simp [DimExpr.toPoly_cons, monomial_exponents, hk]
    ring
  · simp [DimExpr.toPoly_cons, monomial_exponents]
    ring

theorem toPoly_sumOfProducts : sumOfProducts.toPoly =
    MvPolynomial.X dimB * MvPolynomial.X dimA + MvPolynomial.X dimB ^ 2 +
      MvPolynomial.X dimA ^ 2 := by
  simp [sumOfProducts, DimExpr.toPoly_cons, monomial_exponents]
  ring

theorem divisor_sumOfProducts : (DimSize.expr sumOfProducts).Divisor :=
  DimSize.divisor_expr canonical_sumOfProducts

/-- `a` times the divisor is taken away. -/
theorem next_evenDividend (k : ℕ) :
    quotientTerm (.expr sumOfProducts) (evenDividend k) = some ([(dimA, 1)], 1) ∧
      nextDividend (.expr sumOfProducts) (evenDividend k) [(dimA, 1)] 1 =
        .expr (oddDividend k) := by
  have hq : DimTerm.Canonical [(dimA, 1)] := canonical_power _ (by decide)
  have he := canonical_evenDividend k
  have hspec := nextDividend_spec divisor_sumOfProducts he hq one_ne_zero
  refine ⟨(quotientTerm_iff divisor_sumOfProducts he).mpr ⟨hq, ?_, rfl⟩, ?_⟩
  · change DimTerm.mul [(dimA, 1)] [(dimB, 1), (dimA, 1)] = [(dimB, 1), (dimA, 2)]
    decide
  · refine hspec.canonical.eq_of_toPoly (canonical_oddDividend k) ?_
    rw [hspec.toPoly, toPoly_evenDividend, monomial_exponents]
    simp only [DimSize.toPoly, toPoly_oddDividend, toPoly_sumOfProducts]
    simp
    ring

/-- And then `-b` times the divisor. -/
theorem next_oddDividend (k : ℕ) :
    quotientTerm (.expr sumOfProducts) (oddDividend k) = some ([(dimB, 1)], -1) ∧
      nextDividend (.expr sumOfProducts) (oddDividend k) [(dimB, 1)] (-1) =
        .expr (evenDividend (k + 1)) := by
  have hq : DimTerm.Canonical [(dimB, 1)] := canonical_power _ (by decide)
  have he := canonical_oddDividend k
  have hspec := nextDividend_spec divisor_sumOfProducts he hq (show (-1 : ℤ) ≠ 0 by decide)
  refine ⟨(quotientTerm_iff divisor_sumOfProducts he).mpr ⟨hq, ?_, rfl⟩, ?_⟩
  · change DimTerm.mul [(dimB, 1)] [(dimB, 1), (dimA, 1)] = [(dimB, 2), (dimA, 1)]
    decide
  · refine hspec.canonical.eq_of_toPoly (canonical_evenDividend (k + 1)) ?_
    rw [hspec.toPoly, toPoly_oddDividend, monomial_exponents]
    simp only [DimSize.toPoly, toPoly_evenDividend, toPoly_sumOfProducts]
    simp
    ring

theorem divmodLoop_sumOfProducts (fuel : ℕ) : ∀ (k : ℕ) (quotient : DimSize),
    divmodLoop [] (.expr sumOfProducts) fuel (.expr (evenDividend k)) quotient =
        .error .outOfFuel ∧
      divmodLoop [] (.expr sumOfProducts) fuel (.expr (oddDividend k)) quotient =
        .error .outOfFuel := by
  induction fuel with
  | zero => exact fun _ _ => ⟨rfl, rfl⟩
  | succ fuel ih =>
      intro k quotient
      have heven := next_evenDividend k
      have hodd := next_oddDividend k
      rw [divmodLoop_next divisor_sumOfProducts rfl heven.1, heven.2,
        divmodLoop_next divisor_sumOfProducts rfl hodd.1, hodd.2]
      exact ⟨(ih k _).2, (ih (k + 1) _).1⟩

/-- `divmod(a*a*b, a*a + a*b + b*b)` does not return. -/
theorem divmod_sumOfProducts :
    (DimSize.expr (evenDividend 0)).Canonical ∧ (DimSize.expr sumOfProducts).Divisor ∧
      ∀ fuel, divmod [] fuel (evenDividend 0) (.expr sumOfProducts) = .error .outOfFuel := by
  refine ⟨canonical_evenDividend 0, divisor_sumOfProducts, fun fuel => ?_⟩
  rw [divmod, (divmodLoop_sumOfProducts fuel 0 (.int 0)).1]

end JaxDas.ShapePoly
