import Mathlib.Data.Fintype.Pi
import Mathlib.Data.Fintype.Card
import JaxDas.ShapePoly.Operations

/-!
# The order on terms and multiplication

The size of a term counts its factors, so a factor that two terms have in common is counted
once in their product. This is why the order on terms is not compatible with multiplication:
of two terms the larger one may lose more when both are multiplied by a third. Among terms of
one size the order compares the factors lexicographically, and that is compatible.

The order is well-founded all the same on the terms over finitely many factors: there are only
finitely many of each size.
-/

namespace JaxDas.ShapePoly

open SortedPairs

namespace DimTerm

/-- The factors of a term, without exponents. -/
def factors (t : DimTerm) : Finset DimFactor := (t.map Prod.fst).toFinset

theorem mem_factors {t : DimTerm} {f : DimFactor} : f ∈ t.factors ↔ ∃ n, (f, n) ∈ t := by
  simp [factors]

theorem Canonical.nonZero {t : DimTerm} (h : t.Canonical) : NonZero t := by
  intro m hm
  have := h.positive m hm
  omega

theorem Canonical.coeff_nonneg {t : DimTerm} (h : t.Canonical) (f : DimFactor) : 0 ≤ coeff f t := by
  rw [← exponents_apply h.positive]
  exact Int.natCast_nonneg _

theorem Canonical.mem_factors_iff {t : DimTerm} (h : t.Canonical) {f : DimFactor} :
    f ∈ t.factors ↔ 0 < coeff f t := by
  rw [mem_factors]
  constructor
  · intro hf
    obtain ⟨n, hn⟩ := hf
    rw [coeff_of_mem h.desc hn]
    exact h.positive _ hn
  · intro hpos
    exact ⟨_, (mem_iff_coeff h.desc h.nonZero).mpr ⟨rfl, by omega⟩⟩

theorem coeff_mul (t u : DimTerm) (f : DimFactor) :
    coeff f (t.mul u) = coeff f t + coeff f u := by
  rw [mul, coeff_merge fun _ _ h => DimFactor.eq_of_syntacticCmp h, one_mul, one_mul]

/-- Terms with the same exponents are the same. -/
theorem Canonical.ext {t u : DimTerm} (ht : t.Canonical) (hu : u.Canonical)
    (h : ∀ f, coeff f t = coeff f u) : t = u :=
  eq_of_coeff ht.desc hu.desc ht.nonZero hu.nonZero h

theorem factors_mul {t u : DimTerm} (ht : t.Canonical) (hu : u.Canonical) :
    (t.mul u).factors = t.factors ∪ u.factors := by
  ext f
  have h₁ := ht.coeff_nonneg f
  have h₂ := hu.coeff_nonneg f
  rw [Finset.mem_union, (canonical_mul ht hu).mem_factors_iff, ht.mem_factors_iff,
    hu.mem_factors_iff, coeff_mul]
  omega

/-! ## Sizes -/

theorem Canonical.card_factors {t : DimTerm} (h : t.Canonical) : t.factors.card = t.length := by
  have hnd : (t.map Prod.fst).Nodup := by
    refine List.pairwise_map.mpr (h.desc.imp fun {m m'} hgt heq => ?_)
    rw [heq, DimFactor.syntacticCmp_self] at hgt
    injection hgt
  rw [factors, List.toFinset_card_of_nodup hnd, List.length_map]

theorem termSize_eq (t : DimTerm) : termSize t = t.length + total DimFactor.size t := by
  induction t with
  | nil => rfl
  | cons m t ih =>
      rw [termSize, ih, total_cons, List.length_cons, Nat.cast_succ, mul_comm m.2]
      ring

/-- The size of a product: a factor in common is counted once. -/
theorem termSize_mul {t u : DimTerm} (ht : t.Canonical) (hu : u.Canonical) :
    termSize (t.mul u) + (t.factors ∩ u.factors).card = termSize t + termSize u := by
  have htotal : total DimFactor.size (t.mul u) =
      total DimFactor.size t + total DimFactor.size u := by
    rw [mul, total_merge fun f g h => by rw [DimFactor.eq_of_syntacticCmp h]]
    ring
  have hcard := Finset.card_union_add_card_inter t.factors u.factors
  rw [← factors_mul ht hu, (canonical_mul ht hu).card_factors, ht.card_factors,
    hu.card_factors] at hcard
  rw [termSize_eq, termSize_eq, termSize_eq, htotal]
  omega

/-! ## The lexicographic part -/

theorem Canonical.tail {m : DimFactor × ℤ} {t : DimTerm} (h : Canonical (m :: t)) : t.Canonical :=
  ⟨h.proper.2.2, h.desc.tail⟩

theorem Canonical.coeff_head {m : DimFactor × ℤ} {t : DimTerm} (h : Canonical (m :: t)) :
    coeff m.1 (m :: t) = m.2 :=
  coeff_of_mem h.desc (show (m.1, m.2) ∈ m :: t from List.mem_cons_self)

/-- Above its first factor a term has no factor. -/
theorem Canonical.coeff_above {m : DimFactor × ℤ} {t : DimTerm} (h : Canonical (m :: t))
    {g : DimFactor} (hg : g.syntacticCmp m.1 = .gt) : coeff g (m :: t) = 0 := by
  refine coeff_eq_zero fun c hc => ?_
  rcases List.mem_cons.mp hc with rfl | hc
  · rw [DimFactor.syntacticCmp_self] at hg
    injection hg
  · have hlt := h.desc.head_gt hc
    rw [← DimFactor.syntacticCmp_swap, hg] at hlt
    injection hlt

/-- Terms of one size: the largest factor whose exponents differ decides. -/
theorem exists_of_factorsCmp : ∀ {t u : DimTerm}, t.Canonical → u.Canonical →
    factorsCmp t u = .lt →
    ∃ f, coeff f t < coeff f u ∧
      ∀ g, g.syntacticCmp f = .gt → coeff g t = coeff g u
  | [], [], _, _, h => by injection h
  | _ :: _, [], _, _, h => by injection h
  | [], m :: u, _, hu, _ => by
      have hpos := hu.positive m List.mem_cons_self
      refine ⟨m.1, ?_, fun g hg => ?_⟩
      · rw [coeff_nil, hu.coeff_head]
        omega
      · rw [coeff_nil, hu.coeff_above hg]
  | m :: t, m' :: u, ht, hu, h => by
      have hpos := hu.positive m' List.mem_cons_self
      rw [factorsCmp, Ordering.then_eq_lt] at h
      rcases h with hlt | ⟨heq, h⟩
      · have hgt : m'.1.syntacticCmp m.1 = .gt := by
          rw [← DimFactor.syntacticCmp_swap, hlt]
          rfl
        refine ⟨m'.1, ?_, fun g hg => ?_⟩
        · rw [ht.coeff_above hgt, hu.coeff_head]
          omega
        · rw [hu.coeff_above hg, ht.coeff_above (Std.TransCmp.gt_trans hg hgt)]
      · have hf := DimFactor.eq_of_syntacticCmp heq
        rw [Ordering.then_eq_lt] at h
        rcases h with hn | ⟨hn, h⟩
        · refine ⟨m'.1, ?_, fun g hg => ?_⟩
          · rw [hu.coeff_head, ← hf, ht.coeff_head]
            exact compare_lt_iff_lt.mp hn
          · rw [hu.coeff_above hg, ht.coeff_above (hf ▸ hg)]
        · -- the first factors are the same, with the same exponent
          have hexp : m.2 = m'.2 := Std.LawfulEqCmp.eq_of_compare hn
          obtain ⟨f, hlt, hsame⟩ := exists_of_factorsCmp ht.tail hu.tail h
          have hne : m'.1 ≠ f := by
            intro heq
            have hhead := hu.coeff_head
            rw [coeff_cons, if_pos rfl, heq] at hhead
            have := ht.tail.coeff_nonneg f
            omega
          refine ⟨f, ?_, fun g hg => ?_⟩
          · rw [coeff_cons, coeff_cons, hf, if_neg hne, if_neg hne]
            omega
          · rw [coeff_cons, coeff_cons, hf, hexp, hsame g hg]

/-- The lexicographic part is compatible with multiplication. -/
theorem factorsCmp_mul_lt {q t u : DimTerm} (hq : q.Canonical) (ht : t.Canonical)
    (hu : u.Canonical) (h : factorsCmp t u = .lt) : factorsCmp (q.mul t) (q.mul u) = .lt := by
  obtain ⟨f, hlt, hsame⟩ := exists_of_factorsCmp ht hu h
  have hqt := canonical_mul hq ht
  have hqu := canonical_mul hq hu
  cases hcmp : factorsCmp (q.mul t) (q.mul u) with
  | lt => rfl
  | eq =>
      have heq := congrArg (coeff f) (eq_of_factorsCmp hcmp)
      rw [coeff_mul, coeff_mul] at heq
      omega
  | gt =>
      have hswap : factorsCmp (q.mul u) (q.mul t) = .lt := by
        rw [← factorsCmp_swap, hcmp]
        rfl
      obtain ⟨f', hlt', hsame'⟩ := exists_of_factorsCmp hqu hqt hswap
      rw [coeff_mul, coeff_mul] at hlt'
      -- two factors that both decide: the larger one cannot
      cases hff : f.syntacticCmp f' with
      | eq =>
          rw [DimFactor.eq_of_syntacticCmp hff] at hlt
          omega
      | gt =>
          have := hsame' f hff
          rw [coeff_mul, coeff_mul] at this
          omega
      | lt =>
          have := hsame f' (by rw [← DimFactor.syntacticCmp_swap, hff]; rfl)
          omega

theorem factorsCmp_mul {q t u : DimTerm} (hq : q.Canonical) (ht : t.Canonical)
    (hu : u.Canonical) : factorsCmp (q.mul t) (q.mul u) = factorsCmp t u := by
  cases h : factorsCmp t u with
  | lt => exact factorsCmp_mul_lt hq ht hu h
  | eq =>
      rw [eq_of_factorsCmp h]
      have hself : factorsCmp (q.mul u) (q.mul u) = .eq :=
        (Ordering.then_eq_eq.mp (DimTerm.syntacticCmp_self (q.mul u))).2
      exact hself
  | gt =>
      have hswap : factorsCmp u t = .lt := by
        rw [← factorsCmp_swap, h]
        rfl
      rw [← factorsCmp_swap, factorsCmp_mul_lt hq hu ht hswap]
      rfl

/-! ## Domination -/

/-- What it takes for `t` to stay above `u` whatever both are multiplied by: the factors of `t`
that `u` does not have may each be counted once less. -/
def Dominates (t u : DimTerm) : Prop :=
  termSize u + (t.factors \ u.factors).card < termSize t ∨
    termSize u + (t.factors \ u.factors).card = termSize t ∧ factorsCmp u t = .lt

instance (t u : DimTerm) : Decidable (t.Dominates u) := inferInstanceAs (Decidable (_ ∨ _))

theorem syntacticCmp_lt_iff {t u : DimTerm} :
    t.syntacticCmp u = .lt ↔
      termSize t < termSize u ∨ termSize t = termSize u ∧ factorsCmp t u = .lt := by
  unfold syntacticCmp
  rw [Ordering.then_eq_lt, compare_lt_iff_lt, compare_eq_iff_eq]

theorem Dominates.mul_lt {t u : DimTerm} (h : t.Dominates u) (ht : t.Canonical)
    (hu : u.Canonical) {q : DimTerm} (hq : q.Canonical) :
    (q.mul u).syntacticCmp (q.mul t) = .lt := by
  have hsub : q.factors ∩ t.factors ⊆ (q.factors ∩ u.factors) ∪ (t.factors \ u.factors) := by
    intro f hf
    rw [Finset.mem_inter] at hf
    rw [Finset.mem_union, Finset.mem_inter, Finset.mem_sdiff]
    by_cases hfu : f ∈ u.factors
    · exact .inl ⟨hf.1, hfu⟩
    · exact .inr ⟨hf.2, hfu⟩
  have hcard := (Finset.card_le_card hsub).trans (Finset.card_union_le _ _)
  have h₁ := termSize_mul hq ht
  have h₂ := termSize_mul hq hu
  rw [syntacticCmp_lt_iff, factorsCmp_mul hq hu ht]
  rcases h with h | ⟨h, hlex⟩
  · omega
  · by_cases hlt : termSize (q.mul u) < termSize (q.mul t)
    · exact .inl hlt
    · exact .inr ⟨by omega, hlex⟩

/-- The factors of `t` that `u` does not have, each once. -/
def missing (t u : DimTerm) : DimTerm :=
  (t.filter fun m => m.1 ∉ u.factors).map fun m => (m.1, 1)

theorem factors_missing (t u : DimTerm) : (t.missing u).factors = t.factors \ u.factors := by
  ext f
  rw [mem_factors, Finset.mem_sdiff, mem_factors]
  constructor
  · intro h
    obtain ⟨n, hn⟩ := h
    obtain ⟨m, hm, heq⟩ := List.mem_map.mp hn
    obtain ⟨hm, hnot⟩ := List.mem_filter.mp hm
    injection heq with hf _
    subst hf
    exact ⟨⟨m.2, hm⟩, of_decide_eq_true hnot⟩
  · intro h
    obtain ⟨⟨n, hn⟩, hnot⟩ := h
    exact ⟨1, List.mem_map.mpr ⟨(f, n), List.mem_filter.mpr ⟨hn, decide_eq_true hnot⟩, rfl⟩⟩

theorem Canonical.missing {t : DimTerm} (h : t.Canonical) (u : DimTerm) :
    (t.missing u).Canonical := by
  refine ⟨properTerm_iff.mpr fun m hm => ?_, List.pairwise_map.mpr (h.desc.filter _)⟩
  obtain ⟨m', hm', rfl⟩ := List.mem_map.mp hm
  exact ⟨(properTerm_iff.mp h.proper m' (List.mem_filter.mp hm').1).1, le_refl _⟩

/-- Multiplying by the factors that `u` does not have is the worst case. -/
theorem dominates_of_mul_lt {t u : DimTerm} (ht : t.Canonical) (hu : u.Canonical)
    (h : ((t.missing u).mul u).syntacticCmp ((t.missing u).mul t) = .lt) : t.Dominates u := by
  have hq := ht.missing u
  have h₁ := termSize_mul hq ht
  have h₂ := termSize_mul hq hu
  rw [factors_missing] at h₁ h₂
  rw [Finset.inter_eq_left.mpr Finset.sdiff_subset] at h₁
  rw [show t.factors \ u.factors ∩ u.factors = ∅ from Finset.sdiff_inter_self _ _,
    Finset.card_empty] at h₂
  rw [syntacticCmp_lt_iff, factorsCmp_mul hq hu ht] at h
  rcases h with h | ⟨h, hlex⟩
  · exact .inl (by omega)
  · exact .inr ⟨by omega, hlex⟩

/-! ## Well-foundedness -/

theorem Canonical.coeff_le_size : ∀ {t : DimTerm}, t.Canonical → ∀ f, coeff f t ≤ termSize t
  | [], _, _ => le_refl _
  | m :: t, h, f => by
      have hrest := h.tail.coeff_le_size f
      have hsize := termSize_nonneg h.tail.proper
      have hpos := h.positive m List.mem_cons_self
      have hfac := DimFactor.one_le_size h.proper.1
      have hmul : m.2 * 1 ≤ m.2 * m.1.size := Int.mul_le_mul_of_nonneg_left hfac (by omega)
      rw [coeff_cons, termSize]
      split <;> omega

/-- The terms over some factors, up to a size. -/
abbrev Within (fs : Finset DimFactor) (size : ℤ) : Type :=
  {t : DimTerm // t.Canonical ∧ t.factors ⊆ fs ∧ termSize t ≤ size}

theorem finite_within (fs : Finset DimFactor) (size : ℤ) : Finite (Within fs size) := by
  -- a term is determined by the exponents of its factors
  let exps : Within fs size → fs → Fin (size.toNat + 1) := fun t f =>
    ⟨(coeff f.1 t.1).toNat, by have := t.2.1.coeff_le_size f.1; have := t.2.2.2; omega⟩
  refine Finite.of_injective exps fun t u h => Subtype.ext (t.2.1.ext u.2.1 fun f => ?_)
  have h₁ := t.2.1.coeff_nonneg f
  have h₂ := u.2.1.coeff_nonneg f
  by_cases hf : f ∈ fs
  · have hexp := congrArg Fin.val (congrFun h ⟨f, hf⟩)
    simp only [exps] at hexp
    omega
  · have hnot : ∀ v : Within fs size, ¬ 0 < coeff f v.1 := fun v hpos =>
      hf (v.2.2.1 (v.2.1.mem_factors_iff.mpr hpos))
    have := hnot t
    have := hnot u
    omega

theorem wellFounded_within (fs : Finset DimFactor) (size : ℤ) :
    WellFounded fun t u : Within fs size => t.1.syntacticCmp u.1 = .lt := by
  have := finite_within fs size
  have htrans : IsTrans (Within fs size) fun t u => t.1.syntacticCmp u.1 = .lt :=
    ⟨fun _ _ _ h₁ h₂ => syntacticCmp_trans h₁ h₂⟩
  have hirrefl : Std.Irrefl fun t u : Within fs size => t.1.syntacticCmp u.1 = .lt := by
    refine ⟨fun t h => ?_⟩
    rw [syntacticCmp_self] at h
    injection h
  exact Finite.wellFounded_of_trans_of_irrefl _

end DimTerm

end JaxDas.ShapePoly
