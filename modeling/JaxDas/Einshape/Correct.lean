import JaxDas.Einshape.Sizes
import JaxDas.Lib.BasicIndexing

/-!
# What an equation means

The transforms move the element at the coordinates that the left-hand groups give to those that
the right-hand groups give. They do so when every name occurs once on each side and the empty
groups, each of which is taken for a dimension, are where this does no harm.
-/

namespace JaxDas.Einshape

variable {α : Type} {equation : String} {lhs rhs : List Group} {sizes : Sizes} {sz : Char → ℕ}

/-- Sizes of the names: the groups have the dimensions of the input, and where a group is split,
the sizes that are passed are used. -/
structure Sized (lhs : List Group) (shape : List ℕ) (sizes : Sizes) (sz : Char → ℕ) : Prop where
  dims : lhs.map (groupSize sz) = shape
  passed : ∀ g ∈ lhs, g.length ≠ 1 → ∀ c ∈ g, ∀ n, sizes c = some n → n = sz c

/-- The result has the right-hand groups for dimensions, and its elements are in their places. -/
structure Carries (lhs rhs : List Group) (sz : Char → ℕ) (x y : NdArray α) : Prop where
  shape_eq : y.shape = rhs.map (groupSize sz)
  get?_eq : ∀ v : Char → ℕ, (∀ c ∈ lhs.flatten, v c < sz c) →
    y.get? (rhs.map (groupIndex sz v)) = x.get? (lhs.map (groupIndex sz v))

def Accepted (equation : String) (shape : List ℕ) (sizes : Sizes) (lhs rhs : List Group) : Prop :=
  parseEquation equation = .ok (lhs, rhs) ∧
    ∃ ts, getEinshapeTransforms equation shape sizes = .ok ts

/-- Either an error is raised, or no name occurs twice on a side and the transforms do what the
equation says. -/
def Means (equation : String) (x : NdArray α) (sizes : Sizes) : Prop :=
  ∀ lhs rhs ts, parseEquation equation = .ok (lhs, rhs) →
    getEinshapeTransforms equation x.shape sizes = .ok ts →
    lhs.flatten.Nodup ∧ rhs.flatten.Nodup ∧
      ∃ sz y, Sized lhs x.shape sizes sz ∧ applyAll ts x = some y ∧ Carries lhs rhs sz x y

/-- The dimensions after the splits: those of the names, and one for an empty group. -/
def atomicDims (sz : Char → ℕ) (lhs : List Group) : List ℕ :=
  lhs.flatMap fun g => if g = [] then [1] else g.map sz

/-- The dimensions after the transpose. -/
def reorderedDims (sz : Char → ℕ) (lhs rhs : List Group) : List ℕ :=
  if lhs.flatten = rhs.flatten then atomicDims sz lhs else rhs.flatten.map sz

/-- The dimensions that the right-hand groups take: a group of names as many as these, an empty
one a single dimension. -/
def taken : List ℕ → List Group → List ℕ
  | dims, [] => dims
  | dims, g :: rhs =>
      if g.length > 1 then size (dims.take g.length) :: taken (dims.drop g.length) rhs
      else dims.take 1 ++ taken (dims.drop 1) rhs

/-- When an equation that is accepted means what it says. -/
structure Sound (lhs rhs : List Group) (shape : List ℕ) (sizes : Sizes) : Prop where
  lhs_nodup : lhs.flatten.Nodup
  rhs_nodup : rhs.flatten.Nodup
  nonneg : ∀ g ∈ lhs, g.length ≠ 1 → ∀ c ∈ g, ∀ n, sizes c = some n → 0 ≤ n
  no_empty : lhs.flatten ≠ rhs.flatten → [] ∉ lhs
  taken_eq : ∀ sz, Sized lhs shape sizes sz →
    taken (reorderedDims sz lhs rhs) rhs = rhs.map (groupSize sz)

/-! ## Splits -/

theorem atomicDims_cons (g : Group) (lhs : List Group) :
    atomicDims sz (g :: lhs) = (if g = [] then [1] else g.map sz) ++ atomicDims sz lhs :=
  List.flatMap_cons

theorem splitDims_apply {x : NdArray α} {k : ℕ} {ns : List ℤ} {shape : List ℕ}
    (hnn : ∀ n ∈ ns, 0 ≤ n) (hshape : (Transform.splitDims k ns).transformShape x.shape = shape)
    (hsize : size shape = size x.shape) :
    ∃ y, (Transform.splitDims k ns).apply x = some y ∧ x.SameOrder y ∧ y.shape = shape := by
  subst hshape
  exact ⟨_, dif_pos ⟨hnn, hsize⟩, x.reshape_sameOrder hsize, rfl⟩

theorem applyAll_cons (t : Transform) (ts : List Transform) (x : NdArray α) :
    applyAll (t :: ts) x = (t.apply x).bind (applyAll ts) := List.foldlM_cons

theorem applyAll_append (ts us : List Transform) (x : NdArray α) :
    applyAll (ts ++ us) x = (applyAll ts x).bind (applyAll us) := List.foldlM_append

theorem applyAll_splits {d : Sizes} : ∀ {lhs : List Group} {pre : List ℕ} {x : NdArray α},
    x.shape = pre ++ lhs.map (groupSize sz) → (∀ c ∈ lhs.flatten, d c = some (sz c : ℤ)) →
    ∃ y, applyAll (splits d pre.length lhs) x = some y ∧ x.SameOrder y ∧
      y.shape = pre ++ atomicDims sz lhs
  | [], pre, x, hx, _ => ⟨x, rfl, .refl x, hx⟩
  | g :: lhs, pre, x, hx, hd => by
      have hdg : ∀ c ∈ g, d c = some (sz c : ℤ) := fun c hc => hd c (by simp [hc])
      have hdl : ∀ c ∈ lhs.flatten, d c = some (sz c : ℤ) := fun c hc =>
        hd c (by rw [List.flatten_cons]; exact List.mem_append_right _ hc)
      rw [List.map_cons] at hx
      by_cases hlen : g.length > 1
      · have hns : g.map (fun name => (d name).getD 0) = g.map fun c => (sz c : ℤ) :=
          List.map_congr_left fun c hc => by rw [hdg c hc]; rfl
        have hnn : ∀ n ∈ g.map (fun c => (sz c : ℤ)), 0 ≤ n := by
          intro n hn
          obtain ⟨c, -, rfl⟩ := List.mem_map.mp hn
          exact Int.natCast_nonneg _
        have hshape : (Transform.splitDims pre.length (g.map fun c => (sz c : ℤ))).transformShape
            x.shape = (pre ++ g.map sz) ++ lhs.map (groupSize sz) := by
          simp [Transform.transformShape, hx, Function.comp_def]
        have hsize : size ((pre ++ g.map sz) ++ lhs.map (groupSize sz)) = size x.shape := by
          rw [hx, List.append_assoc, size_append, size_append, size_append, size]
          rfl
        obtain ⟨y, hy, hsame, hyshape⟩ := splitDims_apply hnn hshape hsize
        obtain ⟨z, hz, hsame', hzshape⟩ := applyAll_splits hyshape hdl
        refine ⟨z, ?_, hsame.trans hsame', ?_⟩
        · rw [splits, if_pos hlen, applyAll_cons, hns, hy, Option.bind_some]
          rwa [List.length_append, List.length_map] at hz
        · rw [hzshape, atomicDims_cons, if_neg (List.ne_nil_of_length_pos (by omega)),
            List.append_assoc]
      · have hone : (if g = [] then [1] else g.map sz) = [groupSize sz g] := by
          rcases g with - | ⟨a, - | ⟨b, g⟩⟩
          · rfl
          · simp [groupSize, size]
          · exact absurd (by simp) hlen
        have hx' : x.shape = (pre ++ [groupSize sz g]) ++ lhs.map (groupSize sz) := by
          rw [hx, List.append_assoc, List.singleton_append]
        obtain ⟨z, hz, hsame, hzshape⟩ := applyAll_splits hx' hdl
        refine ⟨z, ?_, hsame, ?_⟩
        · rw [splits, if_neg hlen]
          rwa [List.length_append, List.length_singleton] at hz
        · rw [hzshape, atomicDims_cons, hone, List.append_assoc]

/-! ## Merges -/

theorem mergeDims_apply (x : NdArray α) (k n : ℕ) :
    ∃ y, (Transform.mergeDims k n).apply x = some y ∧ x.SameOrder y ∧
      y.shape = x.shape.take k ++ size ((x.shape.drop k).take n) :: x.shape.drop (k + n) := by
  have hsize : size ((Transform.mergeDims k n).transformShape x.shape) = size x.shape := by
    have hparts : x.shape = x.shape.take k ++ ((x.shape.drop k).take n ++ x.shape.drop (k + n)) := by
      rw [← List.drop_drop, List.take_append_drop, List.take_append_drop]
    conv_rhs => rw [hparts, size_append, size_append]
    rw [Transform.transformShape, size_append, size]
  exact ⟨_, dif_pos hsize, x.reshape_sameOrder hsize, rfl⟩

theorem split_at_merged (dims : List ℕ) (k m n : ℕ) :
    (dims.take k ++ n :: dims.drop (k + m)).take (k + 1) = dims.take k ++ [n] ∧
      (dims.take k ++ n :: dims.drop (k + m)).drop (k + 1) = dims.drop (k + m) := by
  rcases Nat.le_total k dims.length with hk | hk
  · have hlen : (dims.take k).length = k := by rw [List.length_take, Nat.min_eq_left hk]
    constructor
    · rw [List.take_append, hlen, Nat.add_sub_cancel_left, List.take_of_length_le (by omega)]
      rfl
    · rw [List.drop_append, hlen, Nat.add_sub_cancel_left,
        List.drop_eq_nil_of_le (show (dims.take k).length ≤ k + 1 by omega)]
      rfl
  · -- all dimensions are before the position
    rw [List.drop_eq_nil_of_le (show dims.length ≤ k + m by omega), List.take_of_length_le hk]
    exact ⟨List.take_of_length_le (by simpa using hk), List.drop_eq_nil_of_le (by simpa using hk)⟩

theorem applyAll_merges : ∀ (rhs : List Group) (k : ℕ) (x : NdArray α),
    ∃ y, applyAll (merges k rhs) x = some y ∧ x.SameOrder y ∧
      y.shape = x.shape.take k ++ taken (x.shape.drop k) rhs
  | [], k, x => ⟨x, rfl, .refl x, (List.take_append_drop k _).symm⟩
  | g :: rhs, k, x => by
      by_cases hlen : g.length > 1
      · obtain ⟨y, hy, hsame, hyshape⟩ := mergeDims_apply x k g.length
        obtain ⟨z, hz, hsame', hzshape⟩ := applyAll_merges rhs (k + 1) y
        refine ⟨z, ?_, hsame.trans hsame', ?_⟩
        · rw [merges, if_pos hlen, applyAll_cons, hy, Option.bind_some, hz]
        · obtain ⟨htake, hdrop⟩ := split_at_merged x.shape k g.length
            (size ((x.shape.drop k).take g.length))
          rw [hzshape, hyshape, htake, hdrop, taken, if_pos hlen, List.append_assoc,
            List.singleton_append, List.drop_drop]
      · obtain ⟨z, hz, hsame, hzshape⟩ := applyAll_merges rhs (k + 1) x
        refine ⟨z, ?_, hsame, ?_⟩
        · rw [merges, if_neg hlen, hz]
        · rw [hzshape, taken, if_neg hlen, ← List.append_assoc, ← List.take_add, List.drop_drop]

/-! ## The transforms in a row -/

theorem atomicDims_eq : ∀ {lhs : List Group}, [] ∉ lhs → atomicDims sz lhs = lhs.flatten.map sz
  | [], _ => rfl
  | g :: lhs, h => by
      rw [List.mem_cons, not_or] at h
      rw [atomicDims_cons, if_neg (Ne.symm h.1), atomicDims_eq h.2, List.flatten_cons,
        List.map_append]

/-- An empty group adds a dimension that no name has. -/
theorem length_atomicDims : ∀ lhs : List Group,
    (atomicDims sz lhs).length = lhs.flatten.length + lhs.count []
  | [] => rfl
  | g :: lhs => by
      rw [atomicDims_cons, List.flatten_cons, List.length_append, List.length_append,
        length_atomicDims lhs]
      by_cases hg : g = []
      · rw [if_pos hg, hg, List.count_cons_self, List.length_singleton, List.length_nil]
        omega
      · rw [if_neg hg, List.length_map, List.count_cons_of_ne hg, Nat.add_assoc]

theorem nil_notMem_of_length (h : (atomicDims sz lhs).length = lhs.flatten.length) : [] ∉ lhs := by
  rw [length_atomicDims] at h
  exact List.count_eq_zero.mp (by omega)

/-- Sizes of the names under which the transforms are those that were computed. -/
structure Computed (d : Sizes) (lhs rhs : List Group) (sz : Char → ℕ) (ts : List Transform) :
    Prop where
  sizes_eq : ∀ c ∈ lhs.flatten, d c = some (sz c : ℤ)
  names : ∀ c, c ∈ lhs.flatten ↔ c ∈ rhs.flatten
  transforms : ts = splits d 0 lhs ++ reorder lhs.flatten rhs.flatten ++ merges 0 rhs

theorem applyAll_same {d : Sizes} {ts : List Transform} {x : NdArray α}
    (h : Computed d lhs rhs sz ts) (hx : lhs.map (groupSize sz) = x.shape)
    (heq : lhs.flatten = rhs.flatten) :
    ∃ y, applyAll ts x = some y ∧ x.SameOrder y ∧ y.shape = taken (atomicDims sz lhs) rhs := by
  obtain ⟨y, hy, hsame, hyshape⟩ := @applyAll_splits α sz d lhs [] x hx.symm h.sizes_eq
  obtain ⟨z, hz, hsame', hzshape⟩ := applyAll_merges rhs 0 y
  refine ⟨z, ?_, hsame.trans hsame', ?_⟩
  · rw [h.transforms, reorder, if_neg (not_not.mpr heq), List.append_nil, applyAll_append]
    exact (congrArg (Option.bind · _) hy).trans hz
  · rw [hzshape, hyshape]
    rfl

/-- The transpose needs all the dimensions to have names. -/
theorem nil_notMem_of_applyAll {d : Sizes} {ts : List Transform} {x y : NdArray α}
    (h : Computed d lhs rhs sz ts) (hx : lhs.map (groupSize sz) = x.shape)
    (hne : lhs.flatten ≠ rhs.flatten) (hl : lhs.flatten.Nodup) (hr : rhs.flatten.Nodup)
    (hy : applyAll ts x = some y) : [] ∉ lhs := by
  obtain ⟨z, hz, -, hzshape⟩ := @applyAll_splits α sz d lhs [] x hx.symm h.sizes_eq
  rw [h.transforms, reorder, if_pos hne, List.append_assoc, List.singleton_append, applyAll_append,
    show applyAll (splits d 0 lhs) x = some z from hz, Option.bind_some, applyAll_cons] at hy
  obtain ⟨w, hw, -⟩ := Option.bind_eq_some_iff.mp hy
  by_cases hperm : (rhs.flatten.map fun c => lhs.flatten.idxOf c).Perm (List.range z.shape.length)
  · have hlen := hperm.length_eq
    have hnames := ((List.perm_ext_iff_of_nodup hl hr).mpr h.names).length_eq
    rw [List.length_map, List.length_range, hzshape, List.nil_append] at hlen
    exact nil_notMem_of_length (hlen.symm.trans hnames.symm)
  · rw [Transform.apply, dif_neg hperm] at hw
    cases hw

theorem applyAll_reordered {d : Sizes} {ts : List Transform} {x : NdArray α}
    (h : Computed d lhs rhs sz ts) (hx : lhs.map (groupSize sz) = x.shape)
    (hne : lhs.flatten ≠ rhs.flatten) (hl : lhs.flatten.Nodup) (hr : rhs.flatten.Nodup)
    (hempty : [] ∉ lhs) :
    ∃ y, applyAll ts x = some y ∧ y.shape = taken (rhs.flatten.map sz) rhs ∧
      (y.shape = rhs.map (groupSize sz) → Carries lhs rhs sz x y) := by
  obtain ⟨y, hy, hsame, hyshape⟩ := @applyAll_splits α sz d lhs [] x hx.symm h.sizes_eq
  rw [List.nil_append, atomicDims_eq hempty] at hyshape
  have hperm : rhs.flatten.Perm lhs.flatten :=
    ((List.perm_ext_iff_of_nodup hl hr).mpr h.names).symm
  have hindices : (rhs.flatten.map fun c => lhs.flatten.idxOf c).Perm
      (List.range y.shape.length) := by
    rw [hyshape, List.length_map]
    exact perm_idxOf hl hperm
  have hpick : pick (rhs.flatten.map fun c => lhs.flatten.idxOf c) y.shape = rhs.flatten.map sz := by
    rw [hyshape]
    exact pick_idxOf sz hperm.subset
  obtain ⟨z, hz, hsame', hzshape⟩ := applyAll_merges rhs 0 (y.transpose _ hindices)
  have hzshape : z.shape = taken (rhs.flatten.map sz) rhs := hzshape.trans (by
    rw [List.take_zero, List.nil_append, List.drop_zero]
    exact congrArg (taken · rhs) hpick)
  refine ⟨z, ?_, hzshape, fun hshape => ⟨hshape, fun v hv => ?_⟩⟩
  · have htranspose : (Transform.transpose (rhs.flatten.map fun c => lhs.flatten.idxOf c)).apply y =
        some (y.transpose _ hindices) := dif_pos hindices
    rw [h.transforms, reorder, if_pos hne, List.append_assoc, List.singleton_append,
      applyAll_append, show applyAll (splits d 0 lhs) x = some y from hy, Option.bind_some,
      applyAll_cons, htranspose, Option.bind_some, hz]
  · have hv' : ∀ c ∈ rhs.flatten, v c < sz c := fun c hc => hv c ((h.names c).mpr hc)
    have hmoved : (y.transpose _ hindices).get? (rhs.flatten.map v) =
        y.get? (lhs.flatten.map v) := by
      rw [y.transpose_get? hindices (hpick ▸ within_map hv'), transposeIndex_idxOf hl hperm]
    have hin : y.get? (lhs.flatten.map v) = x.get? (lhs.map (groupIndex sz v)) := by
      refine hsame.get?_eq _ _ (hx ▸ within_groups hv) (hyshape ▸ within_map hv) ?_
      rw [← hx, hyshape, rowMajor_groups]
    have hout : z.get? (rhs.map (groupIndex sz v)) =
        (y.transpose _ hindices).get? (rhs.flatten.map v) := by
      have hwithin : Within (pick _ y.shape) (rhs.flatten.map v) := hpick ▸ within_map hv'
      refine hsame'.get?_eq _ _ hwithin (hshape ▸ within_groups hv') ?_
      rw [hshape, rowMajor_groups]
      exact congrArg (rowMajor · _) hpick
    rw [hout, hmoved, hin]

/-! ## The sizes that are found -/

theorem transforms_ok {shape : List ℕ} {ts : List Transform}
    (hparse : parseEquation equation = .ok (lhs, rhs))
    (h : getEinshapeTransforms equation shape sizes = .ok ts) :
    lhs.length = shape.length ∧ ∃ d d', (lhs.zip shape).foldlM (addGroup sizes) (fun _ => none) =
      .ok d ∧ rhs.flatten.foldlM (addRhsName sizes) d = .ok d' ∧
      (lhs.flatten ⊆ rhs.flatten ∧ rhs.flatten ⊆ lhs.flatten) ∧
      ts = splits d' 0 lhs ++ reorder lhs.flatten rhs.flatten ++ merges 0 rhs := by
  unfold getEinshapeTransforms at h
  rw [hparse, ok_bind] at h
  rcases ite_ok h with ⟨-, h⟩ | ⟨hlen, h⟩
  · cases h
  · obtain ⟨d, hd, h⟩ := bind_ok.mp h
    obtain ⟨d', hd', h⟩ := bind_ok.mp h
    rcases ite_ok h with ⟨-, h⟩ | ⟨hsub, h⟩
    · cases h
    · exact ⟨not_not.mp hlen, d, d', hd, hd', not_not.mp hsub, (Except.ok.inj h).symm⟩

theorem prodOf_natCast (sz : Char → ℕ) : ∀ g : List Char,
    prodOf (fun c => (sz c : ℤ)) g = (groupSize sz g : ℤ)
  | [] => rfl
  | c :: g => by
      have ih := prodOf_natCast sz g
      rw [prodOf] at ih
      rw [prodOf, List.map_cons, List.prod_cons, ih]
      exact (Int.natCast_mul _ _).symm

theorem map_eq_iff_zip {f : Group → ℕ} : ∀ {lhs : List Group} {shape : List ℕ},
    lhs.length = shape.length → (lhs.map f = shape ↔ ∀ p ∈ lhs.zip shape, f p.1 = p.2)
  | [], [], _ => by simp
  | g :: lhs, n :: shape, h => by
      rw [List.map_cons, List.cons.injEq, map_eq_iff_zip (Nat.succ.inj h), List.zip_cons_cons,
        List.forall_mem_cons]

theorem mem_zip_of_mem {shape : List ℕ} {g : Group} (hlen : lhs.length = shape.length)
    (hg : g ∈ lhs) : ∃ n, (g, n) ∈ lhs.zip shape := by
  rw [← List.map_fst_zip (Nat.le_of_eq hlen)] at hg
  obtain ⟨p, hp, rfl⟩ := List.mem_map.mp hg
  exact ⟨p.2, hp⟩

theorem sized_iff_fits {shape : List ℕ} (hlen : lhs.length = shape.length) :
    Sized lhs shape sizes sz ↔ Fits sizes (lhs.zip shape) fun c => (sz c : ℤ) := by
  constructor
  · intro h p hp
    refine ⟨?_, fun hone c hc n hn => (h.passed p.1 (List.of_mem_zip hp).1 hone c hc n hn).symm⟩
    rw [prodOf_natCast, (map_eq_iff_zip hlen).mp h.dims p hp]
  · intro h
    refine ⟨(map_eq_iff_zip hlen).mpr fun p hp => ?_, fun g hg hone c hc n hn => ?_⟩
    · have hprod := (h p hp).1
      rw [prodOf_natCast] at hprod
      exact Int.natCast_inj.mp hprod
    · obtain ⟨m, hm⟩ := mem_zip_of_mem hlen hg
      exact ((h _ hm).2 hone c hc n hn).symm

theorem namesOf_zip {shape : List ℕ} (hlen : lhs.length = shape.length) :
    namesOf (lhs.zip shape) = lhs.flatten := by
  rw [namesOf, List.map_fst_zip (Nat.le_of_eq hlen)]

/-- The only sizes that an equation allows are the ones that are computed. -/
theorem computed_of_sized {shape : List ℕ} {ts : List Transform}
    (hparse : parseEquation equation = .ok (lhs, rhs))
    (h : getEinshapeTransforms equation shape sizes = .ok ts) (hnd : lhs.flatten.Nodup)
    (hsz : Sized lhs shape sizes sz) : ∃ d, Computed d lhs rhs sz ts := by
  obtain ⟨hlen, d, d', hd, hd', hsub, hts⟩ := transforms_ok hparse h
  rw [← namesOf_zip hlen] at hnd
  obtain ⟨f, hf⟩ := foldlM_addGroup hd hnd fun _ _ => rfl
  refine ⟨d', fun c hc => ?_, fun c => ⟨fun hc => hsub.1 hc, fun hc => hsub.2 hc⟩, hts⟩
  rw [← namesOf_zip hlen] at hc
  refine foldlM_addRhsName hd' c _ ?_
  rw [hf.set c hc, hf.unique _ ((sized_iff_fits hlen).mp hsz) c hc]

theorem exists_sized {shape : List ℕ} {ts : List Transform}
    (hparse : parseEquation equation = .ok (lhs, rhs))
    (h : getEinshapeTransforms equation shape sizes = .ok ts) (hnd : lhs.flatten.Nodup)
    (hpos : ∀ g ∈ lhs, g.length ≠ 1 → ∀ c ∈ g, ∀ n, sizes c = some n → 0 ≤ n) :
    ∃ sz, Sized lhs shape sizes sz := by
  obtain ⟨hlen, d, -, hd, -⟩ := transforms_ok hparse h
  rw [← namesOf_zip hlen] at hnd
  obtain ⟨f, hf⟩ := foldlM_addGroup hd hnd fun _ _ => rfl
  have hnn := hf.nonneg fun p hp => hpos p.1 (List.of_mem_zip hp).1
  refine ⟨fun c => (f c).toNat, (sized_iff_fits hlen).mpr fun p hp => ?_⟩
  have heq : ∀ c ∈ p.1, f c = ((f c).toNat : ℤ) := fun c hc =>
    (Int.toNat_of_nonneg (hnn c (mem_namesOf hp hc))).symm
  exact ⟨(prodOf_congr heq).symm.trans (hf.fits p hp).1, keeps_congr heq (hf.fits p hp).2⟩

/-! ## When an equation means what it says -/

theorem applyAll_sized {d : Sizes} {ts : List Transform} {x : NdArray α}
    (h : Computed d lhs rhs sz ts) (hx : lhs.map (groupSize sz) = x.shape)
    (hl : lhs.flatten.Nodup) (hr : rhs.flatten.Nodup)
    (hempty : lhs.flatten ≠ rhs.flatten → [] ∉ lhs) :
    ∃ y, applyAll ts x = some y ∧ y.shape = taken (reorderedDims sz lhs rhs) rhs ∧
      (y.shape = rhs.map (groupSize sz) → Carries lhs rhs sz x y) := by
  by_cases heq : lhs.flatten = rhs.flatten
  · obtain ⟨y, hy, hsame, hshape⟩ := applyAll_same h hx heq
    rw [reorderedDims, if_pos heq]
    refine ⟨y, hy, hshape, fun hgroups => ⟨hgroups, fun v hv => ?_⟩⟩
    refine hsame.get?_eq _ _ (hx ▸ within_groups hv) (hgroups ▸ within_groups (heq ▸ hv)) ?_
    rw [← hx, hgroups, rowMajor_groups, rowMajor_groups, heq]
  · rw [reorderedDims, if_neg heq]
    exact applyAll_reordered h hx heq hl hr (hempty heq)

theorem sized_unique {shape : List ℕ} {ts : List Transform} {sz' : Char → ℕ}
    (hparse : parseEquation equation = .ok (lhs, rhs))
    (h : getEinshapeTransforms equation shape sizes = .ok ts) (hnd : lhs.flatten.Nodup)
    (hsz : Sized lhs shape sizes sz) (hsz' : Sized lhs shape sizes sz') :
    ∀ c ∈ lhs.flatten, sz c = sz' c := by
  obtain ⟨hlen, d, -, hd, -⟩ := transforms_ok hparse h
  intro c hc
  rw [← namesOf_zip hlen] at hnd hc
  obtain ⟨f, hf⟩ := foldlM_addGroup hd hnd fun _ _ => rfl
  have hf₁ := hf.unique _ ((sized_iff_fits hlen).mp hsz) c hc
  have hf₂ := hf.unique _ ((sized_iff_fits hlen).mp hsz') c hc
  exact Int.natCast_inj.mp (hf₁.trans hf₂.symm)

/-- An equation means what it says exactly when it is rejected or sound. -/
theorem means_iff (equation : String) (x : NdArray α) (sizes : Sizes) :
    Means equation x sizes ↔
      ∀ lhs rhs, Accepted equation x.shape sizes lhs rhs → Sound lhs rhs x.shape sizes := by
  constructor
  · rintro hmeans lhs rhs ⟨hparse, ts, hts⟩
    obtain ⟨hl, hr, sz, y, hsz, hy, hcarries⟩ := hmeans lhs rhs ts hparse hts
    obtain ⟨d, hd⟩ := computed_of_sized hparse hts hl hsz
    have hempty : lhs.flatten ≠ rhs.flatten → [] ∉ lhs := fun hne =>
      nil_notMem_of_applyAll hd hsz.dims hne hl hr hy
    refine ⟨hl, hr, fun g hg hlen c hc n hn => ?_, hempty, fun sz' hsz' => ?_⟩
    · rw [hsz.passed g hg hlen c hc n hn]
      exact Int.natCast_nonneg _
    · obtain ⟨d', hd'⟩ := computed_of_sized hparse hts hl hsz'
      obtain ⟨y', hy', hshape, -⟩ := applyAll_sized hd' hsz'.dims hl hr hempty
      obtain rfl := Option.some.inj (hy.symm.trans hy')
      rw [← hshape, hcarries.shape_eq]
      refine List.map_congr_left fun g hg => congrArg size (List.map_congr_left fun c hc => ?_)
      exact sized_unique hparse hts hl hsz hsz' c
        ((hd.names c).mpr (List.mem_flatten_of_mem hg hc))
  · intro hsound lhs rhs ts hparse hts
    have h := hsound lhs rhs ⟨hparse, ts, hts⟩
    obtain ⟨sz, hsz⟩ := exists_sized hparse hts h.lhs_nodup h.nonneg
    obtain ⟨d, hd⟩ := computed_of_sized hparse hts h.lhs_nodup hsz
    obtain ⟨y, hy, hshape, hcarries⟩ :=
      applyAll_sized hd hsz.dims h.lhs_nodup h.rhs_nodup h.no_empty
    exact ⟨h.lhs_nodup, h.rhs_nodup, sz, y, hsz, hy,
      hcarries (hshape.trans (h.taken_eq sz hsz))⟩

theorem taken_of_nonempty : ∀ {rhs : List Group}, [] ∉ rhs →
    taken (rhs.flatten.map sz) rhs = rhs.map (groupSize sz)
  | [], _ => rfl
  | g :: rhs, h => by
      rw [List.mem_cons, not_or] at h
      have ih := taken_of_nonempty h.2
      rw [taken, List.flatten_cons, List.map_append, List.map_cons]
      by_cases hlen : g.length > 1
      · rw [if_pos hlen, List.take_left' (by simp), List.drop_left' (by simp), ih]
        rfl
      · obtain ⟨name, rfl⟩ : ∃ name, g = [name] := List.length_eq_one_iff.mp (by
          have := List.length_pos_iff.mpr (Ne.symm h.1)
          omega)
        rw [if_neg hlen, List.map_singleton, List.singleton_append, List.take_succ_cons,
          List.drop_succ_cons, List.take_zero, List.drop_zero, ih]
        simp [groupSize, size]

/-- Without empty groups the names only have to be distinct, and no size may be negative. -/
theorem sound_of_nonempty {shape : List ℕ} (hlhs : [] ∉ lhs) (hrhs : [] ∉ rhs)
    (hl : lhs.flatten.Nodup) (hr : rhs.flatten.Nodup)
    (hpos : ∀ g ∈ lhs, g.length ≠ 1 → ∀ c ∈ g, ∀ n, sizes c = some n → 0 ≤ n) :
    Sound lhs rhs shape sizes := by
  refine ⟨hl, hr, hpos, fun _ => hlhs, fun sz _ => ?_⟩
  have hdims : reorderedDims sz lhs rhs = rhs.flatten.map sz := by
    rw [reorderedDims]
    split
    · next heq => rw [atomicDims_eq hlhs, heq]
    · rfl
  rw [hdims, taken_of_nonempty hrhs]

/-- An empty right-hand group gets no dimension: the result of `a->a()` has one, not two. -/
theorem emptyGroup_not_means :
    ¬ ∀ (equation : String) (x : NdArray ℕ) (sizes : Sizes), Means equation x sizes := by
  intro h
  have hparse : parseEquation "a->a()" = .ok ([['a']], [['a'], []]) := by decide
  obtain ⟨-, -, sz, y, -, hy, hcarries⟩ := h "a->a()" (.ofFn [5] fun _ => 0) (fun _ => none) [['a']]
    [['a'], []] [] hparse (by decide)
  obtain rfl := Option.some.inj hy
  have hlen := congrArg List.length hcarries.shape_eq
  cases hlen

end JaxDas.Einshape
