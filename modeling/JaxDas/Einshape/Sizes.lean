import JaxDas.Einshape.Transforms
import Mathlib.Algebra.BigOperators.Group.List.Basic
import Mathlib.Algebra.Order.Group.Nat
import Mathlib.Algebra.Order.Ring.Int
import Mathlib.Tactic.Linarith

/-!
# The sizes of names

What `get_einshape_transforms` infers for the names of the left-hand side: the product over a group
is its dimension, the sizes that are passed are kept, and there is no other choice.
-/

namespace JaxDas.Einshape

variable {sizes : Sizes}

/-- The product of the sizes of some names. -/
def prodOf (h : Char → ℤ) (names : List Char) : ℤ := (names.map h).prod

/-- The sizes are the passed ones, where these are used. -/
def Keeps (sizes : Sizes) (h : Char → ℤ) (g : Group) : Prop :=
  g.length ≠ 1 → ∀ c ∈ g, ∀ n, sizes c = some n → h c = n

/-- The product of the passed sizes of some names. -/
def knownProduct (sizes : Sizes) (names : List Char) : ℤ := (names.filterMap sizes).prod

def unknownDims (sizes : Sizes) (names : List Char) : List Char :=
  names.filter fun c => sizes c = none

/-! ## The loop over a group -/

theorem foldl_addName : ∀ {g : List Char} {st : GroupSizes}, g.Nodup →
    (∀ c ∈ g, st.dim_sizes c = none) →
    (∀ c, (g.foldl (addName sizes) st).dim_sizes c =
      if c ∈ g ∧ sizes c ≠ none then sizes c else st.dim_sizes c) ∧
    (g.foldl (addName sizes) st).known_product = st.known_product * knownProduct sizes g ∧
    (g.foldl (addName sizes) st).unknown_dims = st.unknown_dims ++ unknownDims sizes g
  | [], st, _, _ => by simp [knownProduct, unknownDims]
  | name :: g, st, hnd, hfresh => by
      obtain ⟨hname, hnd⟩ := List.nodup_cons.mp hnd
      have hnone := hfresh name List.mem_cons_self
      have hstep : ∀ c ∈ g, (addName sizes st name).dim_sizes c = none := by
        intro c hc
        have hne : c ≠ name := fun h => hname (h ▸ hc)
        have hc' := hfresh c (List.mem_cons_of_mem _ hc)
        unfold addName
        split
        · simpa [Sizes.set, hne] using hc'
        · split <;> exact hc'
      obtain ⟨hdims, hprod, hunknown⟩ := foldl_addName hnd hstep
      rw [List.foldl_cons]
      cases hsize : sizes name with
      | some n =>
          have hadd : addName sizes st name = { st with
              dim_sizes := st.dim_sizes.set name n, known_product := st.known_product * n } := by
            rw [addName, hsize]
          refine ⟨fun c => ?_, ?_, ?_⟩
          · rw [hdims c, hadd]
            by_cases hc : c = name
            · subst hc
              simp [hname, hsize, Sizes.set]
            · simp [hc, Sizes.set]
          · rw [hprod, hadd, knownProduct, knownProduct, List.filterMap_cons_some hsize,
              List.prod_cons, Int.mul_assoc]
          · rw [hunknown, hadd, unknownDims, unknownDims,
              List.filter_cons_of_neg (by simp [hsize])]
      | none =>
          have hadd : addName sizes st name =
              { st with unknown_dims := st.unknown_dims ++ [name] } := by
            rw [addName, hsize]
            simp only [hnone]
          refine ⟨fun c => ?_, ?_, ?_⟩
          · rw [hdims c, hadd]
            by_cases hc : c = name
            · subst hc
              simp [hname, hsize]
            · simp [hc]
          · rw [hprod, hadd, knownProduct, knownProduct, List.filterMap_cons_none hsize]
          · rw [hunknown, hadd, unknownDims, unknownDims,
              List.filter_cons_of_pos (by simp [hsize]), List.append_assoc, List.singleton_append]

/-- The product over names that keep the passed sizes. -/
theorem prodOf_eq {h : Char → ℤ} : ∀ {g : List Char},
    (∀ c ∈ g, ∀ n, sizes c = some n → h c = n) →
    prodOf h g = knownProduct sizes g * prodOf h (unknownDims sizes g)
  | [], _ => rfl
  | c :: g, hkeep => by
      have ih := prodOf_eq fun c' hc' => hkeep c' (List.mem_cons_of_mem _ hc')
      unfold prodOf knownProduct unknownDims at ih ⊢
      cases hc : sizes c with
      | some n =>
          have hval := hkeep c List.mem_cons_self n hc
          rw [List.map_cons, List.prod_cons, ih, List.filterMap_cons_some hc, List.prod_cons,
            List.filter_cons_of_neg (by simp [hc]), hval, Int.mul_assoc]
      | none =>
          rw [List.map_cons, List.prod_cons, ih, List.filterMap_cons_none hc,
            List.filter_cons_of_pos (by simp [hc]), List.map_cons, List.prod_cons, ← Int.mul_assoc,
            ← Int.mul_assoc, Int.mul_comm (h c)]

/-! ## One group -/

/-- What a group adds to the sizes. -/
structure AddsGroup (sizes d d' : Sizes) (g : Group) (n : ℕ) (f : Char → ℤ) : Prop where
  frame : ∀ c, c ∉ g → d' c = d c
  set : ∀ c ∈ g, d' c = some (f c)
  prod : prodOf f g = n
  keeps : Keeps sizes f g
  unique : ∀ h, prodOf h g = n → Keeps sizes h g → ∀ c ∈ g, h c = f c
  nonneg : (g.length ≠ 1 → ∀ c ∈ g, ∀ n, sizes c = some n → 0 ≤ n) → ∀ c ∈ g, 0 ≤ f c

theorem addsGroup_single {d : Sizes} {name : Char} {n : ℕ} :
    AddsGroup sizes d (d.set name n) [name] n fun _ => n where
  frame c hc := if_neg (by simpa using hc)
  set c hc := if_pos (by simpa using hc)
  prod := by simp [prodOf]
  keeps hlen := absurd rfl hlen
  unique h hprod _ c hc := by
    rw [List.mem_singleton.mp hc]
    simpa [prodOf] using hprod
  nonneg _ _ _ := Int.natCast_nonneg n

theorem knownProduct_nonneg : ∀ {g : List Char}, (∀ c ∈ g, ∀ n, sizes c = some n → 0 ≤ n) →
    0 ≤ knownProduct sizes g
  | [], _ => Int.one_nonneg
  | c :: g, h => by
      have ih := knownProduct_nonneg fun c' hc' => h c' (List.mem_cons_of_mem _ hc')
      unfold knownProduct at ih ⊢
      cases hc : sizes c with
      | some n =>
          rw [List.filterMap_cons_some hc, List.prod_cons]
          exact Int.mul_nonneg (h c List.mem_cons_self n hc) ih
      | none => rwa [List.filterMap_cons_none hc]

theorem mem_unknownDims {g : Group} {c : Char} :
    c ∈ unknownDims sizes g ↔ c ∈ g ∧ sizes c = none := by simp [unknownDims]

theorem known_of_not_mem {g : Group} {c : Char} (hc : c ∈ g) (h : c ∉ unknownDims sizes g) :
    ∃ n, sizes c = some n := by
  cases hs : sizes c with
  | some n => exact ⟨n, rfl⟩
  | none => exact absurd (mem_unknownDims.mpr ⟨hc, hs⟩) h

/-- Every size of the group is passed. -/
theorem addsGroup_known {d d' : Sizes} {g : Group} {n : ℕ}
    (hdims : ∀ c, d' c = if c ∈ g ∧ sizes c ≠ none then sizes c else d c) (hlen : g.length ≠ 1)
    (hnone : unknownDims sizes g = []) (hprod : knownProduct sizes g = n) :
    ∃ f, AddsGroup sizes d d' g n f := by
  have hall : ∀ c ∈ g, ∃ m, sizes c = some m := fun c hc =>
    known_of_not_mem hc (by rw [hnone]; exact List.not_mem_nil)
  have hf : Keeps sizes (fun c => (sizes c).getD 0) g := fun _ c _ m hm => by
    simp only [hm, Option.getD_some]
  refine ⟨fun c => (sizes c).getD 0, ?_, ?_, ?_, hf, ?_, ?_⟩
  · intro c hc
    rw [hdims c, if_neg fun h => hc h.1]
  · intro c hc
    obtain ⟨m, hm⟩ := hall c hc
    rw [hdims c, if_pos ⟨hc, by rw [hm]; exact Option.some_ne_none m⟩, hm]
    rfl
  · rw [prodOf_eq (hf hlen), hnone, hprod]
    exact Int.mul_one _
  · intro h' _ hk c hc
    obtain ⟨m, hm⟩ := hall c hc
    rw [hk hlen c hc m hm, hm]
    rfl
  · intro hpos c hc
    obtain ⟨m, hm⟩ := hall c hc
    simp only [hm, Option.getD_some]
    exact hpos hlen c hc m hm

/-- One size of the group is what the others leave. -/
theorem addsGroup_inferred {d d' : Sizes} {g : Group} {n : ℕ} {unknown : Char}
    (hdims : ∀ c, d' c = if c ∈ g ∧ sizes c ≠ none then sizes c else d c) (hlen : g.length ≠ 1)
    (hone : unknownDims sizes g = [unknown]) (hzero : knownProduct sizes g ≠ 0)
    (hdvd : knownProduct sizes g ∣ (n : ℤ)) :
    ∃ f, AddsGroup sizes d (d'.set unknown ((n : ℤ).fdiv (knownProduct sizes g))) g n f := by
  obtain ⟨hg, hnone⟩ : unknown ∈ g ∧ sizes unknown = none :=
    mem_unknownDims.mp (by rw [hone]; exact List.mem_singleton_self _)
  have hknown : ∀ c ∈ g, c ≠ unknown → ∃ m, sizes c = some m := fun c hc hne =>
    known_of_not_mem hc (by rw [hone]; exact fun h => hne (List.mem_singleton.mp h))
  have hprod : ∀ h, Keeps sizes h g → prodOf h g = knownProduct sizes g * h unknown := by
    intro h hk
    rw [prodOf_eq (hk hlen), hone, prodOf, List.map_singleton, List.prod_singleton]
  have hself : knownProduct sizes g * (n : ℤ).fdiv (knownProduct sizes g) = n :=
    Int.mul_fdiv_cancel_of_dvd hdvd
  have hf : Keeps sizes (fun c => if c = unknown then (n : ℤ).fdiv (knownProduct sizes g)
      else (sizes c).getD 0) g := by
    intro _ c _ m hm
    have hne : c ≠ unknown := fun h => by rw [h, hnone] at hm; cases hm
    simp only [if_neg hne, hm, Option.getD_some]
  refine ⟨_, ?_, ?_, ?_, hf, ?_, ?_⟩
  · intro c hc
    have hne : c ≠ unknown := fun h => hc (h ▸ hg)
    rw [Sizes.set, if_neg hne, hdims c, if_neg fun h => hc h.1]
  · intro c hc
    by_cases hne : c = unknown
    · rw [Sizes.set, if_pos hne, if_pos hne]
    · obtain ⟨m, hm⟩ := hknown c hc hne
      rw [Sizes.set, if_neg hne, if_neg hne, hdims c,
        if_pos ⟨hc, by rw [hm]; exact Option.some_ne_none m⟩, hm]
      rfl
  · rw [hprod _ hf, if_pos rfl, hself]
  · intro h hh hk c hc
    by_cases hne : c = unknown
    · rw [if_pos hne, hne]
      exact Int.eq_of_mul_eq_mul_left hzero ((hprod h hk).symm.trans (hh.trans hself.symm))
    · obtain ⟨m, hm⟩ := hknown c hc hne
      rw [if_neg hne, hm, hk hlen c hc m hm]
      rfl
  · intro hpos c hc
    by_cases hne : c = unknown
    · rw [if_pos hne]
      exact Int.fdiv_nonneg (Int.natCast_nonneg n) (knownProduct_nonneg (hpos hlen))
    · obtain ⟨m, hm⟩ := hknown c hc hne
      simp only [if_neg hne, hm, Option.getD_some]
      exact hpos hlen c hc m hm

theorem addSplitGroup_spec {d d' : Sizes} {g : Group} {n : ℕ}
    (h : addSplitGroup sizes d g n = .ok d') (hlen : g.length ≠ 1) (hnd : g.Nodup)
    (hfresh : ∀ c ∈ g, d c = none) : ∃ f, AddsGroup sizes d d' g n f := by
  obtain ⟨hdims, hknown, hunknown⟩ := @foldl_addName sizes g ⟨d, 1, []⟩ hnd hfresh
  rw [Int.one_mul] at hknown
  rw [List.nil_append] at hunknown
  unfold addSplitGroup at h
  dsimp only at h
  rw [hknown, hunknown] at h
  split at h
  · next hnone =>
      rcases ite_ok h with ⟨-, h⟩ | ⟨hprod, h⟩
      · cases h
      · obtain rfl := Except.ok.inj h
        exact addsGroup_known hdims hlen hnone (not_not.mp hprod)
  · next unknown hone =>
      rcases ite_ok h with ⟨-, h⟩ | ⟨hzero, h⟩
      · cases h
      · rcases ite_ok h with ⟨-, h⟩ | ⟨hmod, h⟩
        · cases h
        · obtain rfl := Except.ok.inj h
          exact addsGroup_inferred hdims hlen hone hzero
            (Int.dvd_of_fmod_eq_zero (not_not.mp hmod))
  · cases h

theorem addGroup_spec {d d' : Sizes} {g : Group} {n : ℕ} (h : addGroup sizes d (g, n) = .ok d')
    (hnd : g.Nodup) (hfresh : ∀ c ∈ g, d c = none) : ∃ f, AddsGroup sizes d d' g n f := by
  unfold addGroup at h
  split at h
  · next name shape_val heq =>
      obtain ⟨rfl, rfl⟩ := Prod.mk.inj heq
      rcases ite_ok h with ⟨-, h⟩ | ⟨-, h⟩
      · cases h
      · obtain rfl := Except.ok.inj h
        exact ⟨_, addsGroup_single⟩
  · next group shape_val hsingle heq =>
      obtain ⟨rfl, rfl⟩ := Prod.mk.inj heq
      refine addSplitGroup_spec h (fun hlen => ?_) hnd hfresh
      obtain ⟨name, rfl⟩ := List.length_eq_one_iff.mp hlen
      exact hsingle name rfl

/-! ## The whole side -/

/-- The names of the groups of a side, each of which has its size. -/
def namesOf (ps : List (Group × ℕ)) : List Char := (ps.map Prod.fst).flatten

/-- Sizes of names that a side of an equation allows. -/
def Fits (sizes : Sizes) (ps : List (Group × ℕ)) (h : Char → ℤ) : Prop :=
  ∀ p ∈ ps, prodOf h p.1 = p.2 ∧ Keeps sizes h p.1

/-- What a whole side adds to the sizes. -/
structure AddsSide (sizes d d' : Sizes) (ps : List (Group × ℕ)) (f : Char → ℤ) : Prop where
  frame : ∀ c, c ∉ namesOf ps → d' c = d c
  set : ∀ c ∈ namesOf ps, d' c = some (f c)
  fits : Fits sizes ps f
  unique : ∀ h, Fits sizes ps h → ∀ c ∈ namesOf ps, h c = f c
  nonneg : (∀ p ∈ ps, p.1.length ≠ 1 → ∀ c ∈ p.1, ∀ n, sizes c = some n → 0 ≤ n) →
    ∀ c ∈ namesOf ps, 0 ≤ f c

theorem prodOf_congr {h h' : Char → ℤ} {g : List Char} (heq : ∀ c ∈ g, h c = h' c) :
    prodOf h g = prodOf h' g := by rw [prodOf, prodOf, List.map_congr_left heq]

theorem keeps_congr {h h' : Char → ℤ} {g : Group} (heq : ∀ c ∈ g, h c = h' c)
    (hk : Keeps sizes h g) : Keeps sizes h' g := fun hlen c hc n hn =>
  heq c hc ▸ hk hlen c hc n hn

theorem mem_namesOf {ps : List (Group × ℕ)} {p : Group × ℕ} {c : Char} (hp : p ∈ ps)
    (hc : c ∈ p.1) : c ∈ namesOf ps :=
  List.mem_flatten.mpr ⟨p.1, List.mem_map_of_mem hp, hc⟩

theorem foldlM_addGroup : ∀ {ps : List (Group × ℕ)} {d d' : Sizes},
    ps.foldlM (addGroup sizes) d = .ok d' → (namesOf ps).Nodup →
    (∀ c ∈ namesOf ps, d c = none) → ∃ f, AddsSide sizes d d' ps f
  | [], d, d', h, _, _ => by
      obtain rfl := Except.ok.inj h
      exact ⟨fun _ => 0, fun _ _ => rfl, nofun, nofun, nofun, nofun⟩
  | (g, n) :: ps, d, d', h, hnd, hfresh => by
      obtain ⟨d₁, hg, hps⟩ := bind_ok.mp (by simpa only [List.foldlM_cons] using h)
      have hnames : namesOf ((g, n) :: ps) = g ++ namesOf ps := rfl
      rw [hnames] at hnd hfresh
      obtain ⟨hndg, hndps, hdisj⟩ := List.nodup_append.mp hnd
      have hout : ∀ c ∈ namesOf ps, c ∉ g := fun c hc hc' => hdisj c hc' c hc rfl
      obtain ⟨f₁, h₁⟩ := addGroup_spec hg hndg fun c hc => hfresh c (List.mem_append_left _ hc)
      obtain ⟨f₂, h₂⟩ := foldlM_addGroup hps hndps fun c hc =>
        (h₁.frame c (hout c hc)).trans (hfresh c (List.mem_append_right _ hc))
      have hin : ∀ c ∈ g, (if c ∈ g then f₁ c else f₂ c) = f₁ c := fun c hc => if_pos hc
      have hrest : ∀ c ∈ namesOf ps, (if c ∈ g then f₁ c else f₂ c) = f₂ c :=
        fun c hc => if_neg (hout c hc)
      refine ⟨fun c => if c ∈ g then f₁ c else f₂ c, ?_, ?_, ?_, ?_, ?_⟩
      · intro c hc
        rw [hnames, List.mem_append, not_or] at hc
        rw [h₂.frame c hc.2, h₁.frame c hc.1]
      · intro c hc
        rcases List.mem_append.mp (hnames ▸ hc) with hc | hc
        · rw [hin c hc, h₂.frame c fun h => hout c h hc, h₁.set c hc]
        · rw [hrest c hc, h₂.set c hc]
      · intro p hp
        rcases List.mem_cons.mp hp with rfl | hp
        · exact ⟨(prodOf_congr hin).trans h₁.prod,
            keeps_congr (fun c hc => (hin c hc).symm) h₁.keeps⟩
        · obtain ⟨hprod, hk⟩ := h₂.fits p hp
          exact ⟨(prodOf_congr fun c hc => hrest c (mem_namesOf hp hc)).trans hprod,
            keeps_congr (fun c hc => (hrest c (mem_namesOf hp hc)).symm) hk⟩
      · intro h' hfits c hc
        rcases List.mem_append.mp (hnames ▸ hc) with hc | hc
        · obtain ⟨hprod, hk⟩ := hfits (g, n) List.mem_cons_self
          rw [hin c hc, h₁.unique h' hprod hk c hc]
        · rw [hrest c hc, h₂.unique h' (fun p hp => hfits p (List.mem_cons_of_mem _ hp)) c hc]
      · intro hpos c hc
        rcases List.mem_append.mp (hnames ▸ hc) with hc | hc
        · rw [hin c hc]
          exact h₁.nonneg (hpos (g, n) List.mem_cons_self) c hc
        · rw [hrest c hc]
          exact h₂.nonneg (fun p hp => hpos p (List.mem_cons_of_mem _ hp)) c hc

/-- The names of the right-hand side change no size. -/
theorem foldlM_addRhsName : ∀ {names : List Char} {d d' : Sizes},
    names.foldlM (addRhsName sizes) d = .ok d' → ∀ c n, d c = some n → d' c = some n
  | [], d, d', h, c, n, hc => by
      obtain rfl := Except.ok.inj h
      exact hc
  | name :: names, d, d', h, c, n, hc => by
      obtain ⟨d₁, hname, hnames⟩ := bind_ok.mp (by simpa only [List.foldlM_cons] using h)
      refine foldlM_addRhsName hnames c n ?_
      unfold addRhsName at hname
      rcases ite_ok hname with ⟨hnone, hset⟩ | ⟨-, hsame⟩
      · split at hset
        · obtain rfl := Except.ok.inj hset
          have hne : c ≠ name := fun h => by rw [h, hnone] at hc; cases hc
          rw [Sizes.set, if_neg hne, hc]
        · cases hset
      · obtain rfl := Except.ok.inj hsame
        exact hc

end JaxDas.Einshape
