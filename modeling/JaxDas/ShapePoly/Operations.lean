import JaxDas.ShapePoly.Canonical

/-!
# Sums, differences and products stay canonical

Each operation is described once: its result is canonical and denotes what the operation says.
Sums and differences are one merge. A product goes through a dictionary, whose items are
sorted at the end.
-/

namespace JaxDas.ShapePoly

open SortedPairs

/-- A canonical dimension that denotes `p`. -/
structure DimSize.Denotes (d : DimSize) (p : MvPolynomial DimFactor ℤ) : Prop where
  canonical : d.Canonical
  toPoly : d.toPoly = p

theorem DimSize.Canonical.denotes {d : DimSize} (h : d.Canonical) : d.Denotes d.toPoly := ⟨h, rfl⟩

theorem DimExpr.Canonical.denotes {e : DimExpr} (h : e.Canonical) :
    (ofSortedTerms e).Denotes e.toPoly :=
  ⟨(ofSortedTerms_spec h).1, (ofSortedTerms_spec h).2⟩

/-! ## Merged terms -/

theorem DimExpr.canonical_scaled {k : ℤ} (hk : k ≠ 0) {e : DimExpr} (h : e.Canonical) :
    DimExpr.Canonical (scaled k e) := by
  refine ⟨fun m hm => ?_, desc_scaled h.desc, nonZero_scaled hk⟩
  obtain ⟨c, hc, _, _⟩ := mem_scaled hm
  exact h.term (m.1, c) hc

theorem DimExpr.canonical_combineTerms {f₁ f₂ : ℤ} (hf₁ : f₁ ≠ 0) (hf₂ : f₂ ≠ 0)
    {e₁ e₂ : DimExpr} (h₁ : e₁.Canonical) (h₂ : e₂.Canonical) :
    DimExpr.Canonical (combineTerms f₁ f₂ e₁ e₂) := by
  refine ⟨fun m hm => ?_, desc_merge h₁.desc h₂.desc,
    nonZero_merge hf₁ hf₂ h₁.nonZero h₂.nonZero⟩
  rcases mem_merge_keys hm with ⟨c, hc⟩ | ⟨c, hc⟩
  · exact h₁.term (m.1, c) hc
  · exact h₂.term (m.1, c) hc

/-- The terms of a second summand. -/
theorem DimSize.summand_spec {d : DimSize} (h : d.Canonical) :
    d.summand.Canonical ∧ d.summand.toPoly = d.toPoly := by
  cases d with
  | expr e => exact ⟨h.1, rfl⟩
  | int k =>
      rw [summand]
      split
      · rename_i hk
        rw [hk]
        exact ⟨DimExpr.canonical_nil, (map_zero _).symm⟩
      · rename_i hk
        refine ⟨DimExpr.canonical_single DimTerm.canonical_one hk, ?_⟩
        rw [DimExpr.toPoly_cons, DimExpr.toPoly_nil, add_zero]
        rfl

theorem linearCombination_spec {e : DimExpr} (he : (DimSize.expr e).Canonical) {d : DimSize}
    (hd : d.Canonical) {k₁ k₂ : ℤ} (hk₁ : k₁ ≠ 0) (hk₂ : k₂ ≠ 0) :
    (linearCombination [] (.expr e) k₁ d k₂).Denotes
      (MvPolynomial.C k₁ * e.toPoly + MvPolynomial.C k₂ * d.toPoly) := by
  have hsum := DimSize.summand_spec hd
  have hterms := DimExpr.canonical_combineTerms hk₁ hk₂ he.1 hsum.1
  have h : linearCombination [] (.expr e) k₁ d k₂ =
      ofSortedTerms (combineTerms k₁ k₂ e d.summand) := by
    rw [← normalizeSortedTerms_nil]
    rfl
  rw [h, ← hsum.2, ← DimExpr.toPoly_combineTerms]
  exact hterms.denotes

/-- A multiple: there is no second summand. -/
theorem linearCombination_zero_spec {e : DimExpr} (he : (DimSize.expr e).Canonical) {k : ℤ}
    (hk : k ≠ 0) :
    (linearCombination [] (.expr e) k (.int 0) 0).Denotes (MvPolynomial.C k * e.toPoly) := by
  have h : linearCombination [] (.expr e) k (.int 0) 0 = ofSortedTerms (combineTerms k 0 e []) := by
    rw [← normalizeSortedTerms_nil]
    rfl
  have hpoly := DimExpr.toPoly_combineTerms k 0 e []
  rw [DimExpr.toPoly_nil, mul_zero, add_zero] at hpoly
  rw [h, ← hpoly]
  refine DimExpr.Canonical.denotes ?_
  rw [combineTerms, merge_nil_right]
  exact DimExpr.canonical_scaled hk he.1

namespace DimSize

theorem denotes_int (k : ℤ) : (int k).Denotes (MvPolynomial.C k) := ⟨trivial, rfl⟩

theorem add_spec {d₁ d₂ : DimSize} (h₁ : d₁.Canonical) (h₂ : d₂.Canonical) :
    (d₁.add [] d₂).Denotes (d₁.toPoly + d₂.toPoly) := by
  cases d₁ with
  | int a =>
      cases d₂ with
      | int b => exact ⟨trivial, map_add _ a b⟩
      | expr e =>
          rw [add]
          split
          · rename_i ha
            rw [ha, show (int 0).toPoly = 0 from map_zero _, zero_add]
            exact h₂.denotes
          · have h := linearCombination_spec h₂ h₁ one_ne_zero one_ne_zero
            rw [map_one, one_mul, one_mul, add_comm] at h
            exact h
  | expr e =>
      have h := linearCombination_spec h₁ h₂ one_ne_zero one_ne_zero
      rw [map_one, one_mul, one_mul] at h
      cases d₂ with
      | expr e' => exact h
      | int b =>
          rw [add]
          split
          · rename_i hb
            rw [hb, show (int 0).toPoly = 0 from map_zero _, add_zero]
            exact h₁.denotes
          · exact h

theorem sub_spec {d₁ d₂ : DimSize} (h₁ : d₁.Canonical) (h₂ : d₂.Canonical) :
    (d₁.sub [] d₂).Denotes (d₁.toPoly - d₂.toPoly) := by
  have hneg : (-1 : ℤ) ≠ 0 := by omega
  have hC : MvPolynomial.C (-1 : ℤ) = (-1 : MvPolynomial DimFactor ℤ) := by
    rw [map_neg, map_one]
  cases d₁ with
  | int a =>
      cases d₂ with
      | int b => exact ⟨trivial, map_sub _ a b⟩
      | expr e =>
          have h := linearCombination_spec h₂ h₁ hneg one_ne_zero
          rw [hC, map_one, one_mul, neg_one_mul, neg_add_eq_sub] at h
          exact h
  | expr e =>
      have h := linearCombination_spec h₁ h₂ one_ne_zero hneg
      rw [hC, map_one, one_mul, neg_one_mul, ← sub_eq_add_neg] at h
      cases d₂ with
      | expr e' => exact h
      | int b =>
          rw [sub]
          split
          · rename_i hb
            rw [hb, show (int 0).toPoly = 0 from map_zero _, sub_zero]
            exact h₁.denotes
          · exact h

theorem neg_spec {d : DimSize} (h : d.Canonical) : (d.neg []).Denotes (-d.toPoly) := by
  cases d with
  | int a => exact ⟨trivial, map_neg _ a⟩
  | expr e =>
      have hspec := linearCombination_zero_spec h (show (-1 : ℤ) ≠ 0 by omega)
      rw [map_neg, map_one, neg_one_mul] at hspec
      exact hspec

theorem mulInt_spec {e : DimExpr} (h : (expr e).Canonical) (k : ℤ) :
    (mulInt [] e k).Denotes (MvPolynomial.C k * e.toPoly) := by
  unfold mulInt
  split
  · rename_i hk
    rw [hk, map_one, one_mul]
    exact h.denotes
  · split
    · rename_i hk
      rw [hk, map_zero, zero_mul]
      exact ⟨trivial, map_zero _⟩
    · rename_i hk
      exact linearCombination_zero_spec h hk

end DimSize

/-! ## The dictionary of a product -/

theorem mem_dictAdd_key {t : DimTerm} {k : ℤ} {coeffs : List (DimTerm × ℤ)} {u : DimTerm}
    (h : u ∈ (dictAdd t k coeffs).map Prod.fst) : u = t ∨ u ∈ coeffs.map Prod.fst := by
  induction coeffs with
  | nil => exact .inl (List.mem_singleton.mp h)
  | cons m coeffs ih =>
      unfold dictAdd at h
      split at h
      · exact .inr h
      · rcases List.mem_cons.mp h with heq | h
        · exact .inr (heq ▸ List.mem_cons_self)
        · exact (ih h).imp id fun h => List.mem_cons_of_mem _ h

theorem dictAdd_nodup {t : DimTerm} {k : ℤ} {coeffs : List (DimTerm × ℤ)}
    (h : (coeffs.map Prod.fst).Nodup) : ((dictAdd t k coeffs).map Prod.fst).Nodup := by
  induction coeffs with
  | nil => exact List.nodup_singleton _
  | cons m coeffs ih =>
      unfold dictAdd
      split
      · exact h
      · rename_i hne
        rw [List.map_cons, List.nodup_cons] at h ⊢
        refine ⟨fun hm => ?_, ih h.2⟩
        rcases mem_dictAdd_key hm with heq | hm
        · exact hne heq
        · exact h.1 hm

/-- The keys of the dictionary are told apart, and each of them is that of an item. -/
theorem foldl_addCoeff_keys {q : DimTerm → Prop} :
    ∀ {pairs coeffs : List (DimTerm × ℤ)}, (∀ m ∈ pairs, q m.1) → (∀ m ∈ coeffs, q m.1) →
    (coeffs.map Prod.fst).Nodup →
    (∀ m ∈ pairs.foldl addCoeff coeffs, q m.1) ∧
      ((pairs.foldl addCoeff coeffs).map Prod.fst).Nodup
  | [], _, _, hq, hnd => ⟨hq, hnd⟩
  | m :: pairs, coeffs, hpairs, hq, hnd => by
      have hrest : ∀ m' ∈ pairs, q m'.1 := fun m' hm => hpairs m' (List.mem_cons_of_mem _ hm)
      rw [List.foldl_cons, addCoeff]
      split
      · exact foldl_addCoeff_keys hrest hq hnd
      · refine foldl_addCoeff_keys hrest (fun m' hm => ?_) (dictAdd_nodup hnd)
        rcases mem_dictAdd_key (List.mem_map_of_mem hm) with heq | hm
        · exact heq ▸ hpairs m List.mem_cons_self
        · obtain ⟨m'', hm'', heq⟩ := List.mem_map.mp hm
          exact heq ▸ hq m'' hm''

/-- The items of a dictionary, sorted. -/
theorem canonical_coeffToSortedTerms {coeffs : List (DimTerm × ℤ)}
    (hterm : ∀ m ∈ coeffs, DimTerm.Canonical m.1) (hnd : (coeffs.map Prod.fst).Nodup) :
    DimExpr.Canonical (coeffToSortedTerms coeffs) := by
  have hmem : ∀ {m}, m ∈ coeffToSortedTerms coeffs → m ∈ coeffs ∧ m.2 ≠ 0 := by
    intro m hm
    rw [coeffToSortedTerms, List.mem_insertionSort, List.mem_filter] at hm
    exact ⟨hm.1, by simpa using hm.2⟩
  refine ⟨fun m hm => hterm m (hmem hm).1, ?_, fun m hm => (hmem hm).2⟩
  have htotal : Std.Total fun m n : DimTerm × ℤ => (m.1.syntacticCmp n.1).isGE = true := by
    refine ⟨fun m n => ?_⟩
    rw [← DimTerm.syntacticCmp_swap m.1 n.1]
    cases m.1.syntacticCmp n.1 <;> simp
  have htrans : IsTrans (DimTerm × ℤ) fun m n => (m.1.syntacticCmp n.1).isGE = true :=
    ⟨fun _ _ _ h₁ h₂ => Std.TransCmp.isGE_trans h₁ h₂⟩
  have hsorted : (coeffToSortedTerms coeffs).Pairwise
      fun m n => (m.1.syntacticCmp n.1).isGE = true := List.pairwise_insertionSort _ _
  have hkeys : ((coeffToSortedTerms coeffs).map Prod.fst).Nodup := by
    refine ((List.perm_insertionSort _ _).map Prod.fst).nodup_iff.mpr ?_
    exact hnd.sublist (List.filter_sublist.map _)
  -- keys that differ do not compare equal
  refine (hsorted.and (List.pairwise_map.mp hkeys)).imp ?_
  intro m n h
  obtain ⟨hge, hne⟩ := h
  cases hcmp : m.1.syntacticCmp n.1 with
  | gt => rfl
  | eq => exact absurd (DimTerm.eq_of_syntacticCmp hcmp) hne
  | lt =>
      rw [hcmp] at hge
      injection hge

namespace DimSize

theorem mulExpr_spec {e₁ e₂ : DimExpr} (h₁ : e₁.Canonical) (h₂ : e₂.Canonical) :
    (mulExpr [] e₁ e₂).Denotes (e₁.toPoly * e₂.toPoly) := by
  have hkeys : (∀ m ∈ productCoeffs e₁ e₂, DimTerm.Canonical m.1) ∧
      ((productCoeffs e₁ e₂).map Prod.fst).Nodup := by
    refine foldl_addCoeff_keys (fun m hm => ?_) (fun m hm => absurd hm List.not_mem_nil)
      List.nodup_nil
    obtain ⟨m₁, hm₁, hm⟩ := List.mem_flatMap.mp hm
    obtain ⟨m₂, hm₂, rfl⟩ := List.mem_map.mp hm
    exact DimTerm.canonical_mul (h₁.term m₁ hm₁) (h₂.term m₂ hm₂)
  rw [mulExpr, normalizeSortedTerms_nil, ← DimExpr.toPoly_productCoeffs h₁.positive h₂.positive,
    ← DimExpr.toPoly_coeffToSortedTerms]
  exact (canonical_coeffToSortedTerms hkeys.1 hkeys.2).denotes

theorem mul_spec {d₁ d₂ : DimSize} (h₁ : d₁.Canonical) (h₂ : d₂.Canonical) :
    (d₁.mul [] d₂).Denotes (d₁.toPoly * d₂.toPoly) := by
  cases d₁ with
  | int a =>
      cases d₂ with
      | int b => exact ⟨trivial, map_mul _ a b⟩
      | expr e => exact mulInt_spec h₂ a
  | expr e =>
      cases d₂ with
      | int b =>
          rw [mul_comm]
          exact mulInt_spec h₁ b
      | expr e' => exact mulExpr_spec h₁.1 h₂.1

/-! ## Equality -/

/-- A symbolic dimension does not denote a constant. -/
theorem toPoly_ne_C {e : DimExpr} (h : (expr e).Canonical) (k : ℤ) :
    e.toPoly ≠ MvPolynomial.C k := by
  classical
  intro heq
  obtain ⟨he, hlead⟩ := h
  cases e with
  | nil => exact absurd rfl (Bool.eq_false_iff.mp hlead)
  | cons m ts =>
      have hm := he.term m List.mem_cons_self
      have hne : (0 : DimFactor →₀ ℕ) ≠ m.1.exponents := by
        intro h0
        have hone := hm.exponents_inj DimTerm.canonical_one h0.symm
        rw [DimExpr.leadingTerm, hone] at hlead
        injection hlead
      have hcoeff := he.coeff_toPoly hm
      rw [heq, MvPolynomial.coeff_C, if_neg hne,
        coeff_of_mem he.desc (show (m.1, m.2) ∈ m :: ts from List.mem_cons_self)] at hcoeff
      exact he.nonZero m List.mem_cons_self hcoeff.symm

/-- **Dimensions in canonical form are equal when they denote the same polynomial.** -/
theorem Canonical.eq_of_toPoly {d d' : DimSize} (h : d.Canonical) (h' : d'.Canonical)
    (heq : d.toPoly = d'.toPoly) : d = d' := by
  cases d with
  | int a =>
      cases d' with
      | int b => rw [MvPolynomial.C_injective _ _ heq]
      | expr e => exact absurd heq.symm (toPoly_ne_C h' a)
  | expr e =>
      cases d' with
      | int b => exact absurd heq (toPoly_ne_C h b)
      | expr e' => rw [h.1.eq_of_toPoly h'.1 heq]

theorem Denotes.eq_int {d : DimSize} {k : ℤ} (h : d.Denotes (MvPolynomial.C k)) : d = .int k :=
  h.canonical.eq_of_toPoly trivial h.toPoly

/-- `__eq__` subtracts and looks for zero. -/
theorem eq_expr_iff {e : DimExpr} {d : DimSize} :
    (expr e).eq [] d = true ↔ (expr e).sub [] d = .int 0 := by
  rw [eq]
  cases (expr e).sub [] d with
  | int k => simp
  | expr e' => simp

theorem eq_int_iff {a : ℤ} {e : DimExpr} :
    (int a).eq [] (expr e) = true ↔ (expr e).sub [] (int a) = .int 0 := by
  change (expr e).eq [] (int a) = true ↔ _
  exact eq_expr_iff

theorem sub_eq_zero_iff {d d' : DimSize} (h : d.Canonical) (h' : d'.Canonical) :
    d.sub [] d' = .int 0 ↔ d.toPoly = d'.toPoly := by
  have hspec := sub_spec h h'
  constructor
  · intro hzero
    have hpoly := hspec.toPoly
    rw [hzero] at hpoly
    exact sub_eq_zero.mp (hpoly.symm.trans (map_zero _))
  · intro heq
    rw [heq, sub_self, ← map_zero MvPolynomial.C] at hspec
    exact hspec.eq_int

theorem eq_iff {d d' : DimSize} (h : d.Canonical) (h' : d'.Canonical) :
    d.eq [] d' = true ↔ d.toPoly = d'.toPoly := by
  cases d with
  | int a =>
      cases d' with
      | int b =>
          rw [eq, decide_eq_true_eq]
          exact ⟨fun h => by rw [h], fun h => MvPolynomial.C_injective _ _ h⟩
      | expr e => rw [eq_int_iff, sub_eq_zero_iff h' h, eq_comm]
  | expr e => rw [eq_expr_iff, sub_eq_zero_iff h h']

end DimSize

end JaxDas.ShapePoly
