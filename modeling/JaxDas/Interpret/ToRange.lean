import JaxDas.Lib.BasicIndexing
import Mathlib.Tactic.Ring

/-!
# The range of a chain of views

A view of a view of a buffer is read with one range, which `to_range` composes of the indexers of
the views. Their integers and slices are known; `jax.tree.map(int, transforms)` has made them so.
-/

namespace JaxDas.Interpret

variable {α : Type}

/-- An element of `NDIndexer.indices`: an integer, or a `Slice`. -/
inductive DimIndexer where
  | int (i : ℤ)
  | slice (start size stride : ℤ)
deriving DecidableEq, Repr

/-- `_transform_slice_or_index` -/
def transformSliceOrIndex : DimIndexer → RangeIndex
  | .int i => .int i
  | .slice start size stride => .slice start (start + size * stride) stride

/-- `_compose_slice_or_index`, from where the loop is in the two tuples. -/
def composeSliceOrIndex : List RangeIndex → List RangeIndex → List RangeIndex
  | [], rs₂ => rs₂
  | r :: rs₁, [] => r :: rs₁
  | .int i :: rs₁, rs₂ => .int i :: composeSliceOrIndex rs₁ rs₂
  | .slice start _ step :: rs₁, .int j :: rs₂ =>
      .int (start + j * step) :: composeSliceOrIndex rs₁ rs₂
  | .slice start _ step :: rs₁, .slice start' stop' step' :: rs₂ =>
      .slice (start + start' * step) (start + stop' * step) (step * step') ::
        composeSliceOrIndex rs₁ rs₂

/-- `to_range` -/
def toRange (transforms : List (List DimIndexer)) : List RangeIndex :=
  transforms.foldl (fun ret indices => composeSliceOrIndex ret (indices.map transformSliceOrIndex)) []

/-- The indexers, one after the other. -/
def indexEach (x : NdArray α) : List (List DimIndexer) → Option (NdArray α)
  | [] => some x
  | indices :: transforms => do
      let y ← x.index (indices.map transformSliceOrIndex)
      indexEach y transforms

/-! ## Indexers in bounds -/

/-- An integer in the axis, or a slice whose elements all are. -/
def DimIndexer.InBounds : DimIndexer → ℕ → Prop
  | int i, n => 0 ≤ i ∧ i < n
  | slice start size stride, n =>
      0 ≤ start ∧ 0 ≤ size ∧ 0 < stride ∧ (0 < size → start + (size - 1) * stride < n)

/-- The shape of the view. -/
def viewShape : List DimIndexer → List ℕ → List ℕ
  | [], shape => shape
  | .int _ :: ds, _ :: shape => viewShape ds shape
  | .slice _ size _ :: ds, _ :: shape => size.toNat :: viewShape ds shape
  | _ :: _, [] => []

/-- Every indexer has an element for each axis of the view it is of, in its bounds. -/
def InBoundsChain : List ℕ → List (List DimIndexer) → Prop
  | _, [] => True
  | shape, ds :: transforms =>
      List.Forall₂ DimIndexer.InBounds ds shape ∧ InBoundsChain (viewShape ds shape) transforms

/-- The integer is in the axis; or every element of the slice, none of which is clipped. -/
def RangeInBounds : RangeIndex → ℕ → Prop
  | .int i, n => 0 ≤ i ∧ i < n
  | .slice start stop step, n =>
      0 < step ∧ ∀ k : ℕ, start + k * step < stop → 0 ≤ start + k * step ∧ start + k * step < n

/-! ## One axis -/

/-- The positions of an indexer. -/
def DimIndexer.toPick : DimIndexer → AxisPick
  | int i => .one i.toNat
  | slice start size stride =>
      .many ((List.range size.toNat).map fun k : ℕ => (start + k * stride).toNat)

theorem resolve_transform {d : DimIndexer} {n : ℕ} (h : d.InBounds n) :
    (transformSliceOrIndex d).resolve n = some d.toPick := by
  cases d with
  | int i =>
      obtain ⟨hi, hn⟩ := h
      simp only [transformSliceOrIndex, RangeIndex.resolve, if_neg (not_lt.mpr hi), if_pos (And.intro hi hn),
        DimIndexer.toPick]
  | slice start size stride =>
      obtain ⟨hstart, hsize, hstride, hlast⟩ := h
      have hstop : 0 ≤ start + size * stride := by
        have := mul_nonneg hsize (le_of_lt hstride)
        omega
      simp only [transformSliceOrIndex, RangeIndex.resolve, if_neg (ne_of_gt hstride), DimIndexer.toPick,
        RangeIndex.adjust, if_neg (not_lt.mpr hstart), if_neg (not_lt.mpr hstop),
        if_neg (not_lt.mpr (le_of_lt hstride)), RangeIndex.sliceLength]
      rcases hsize.eq_or_lt with rfl | hpos
      · simp
      · -- the first position is not clipped, and the last one is before the stop
        have hlast := hlast hpos
        have hfirst := mul_nonneg (by omega : 0 ≤ size - 1) (le_of_lt hstride)
        have hmin : min start (n : ℤ) = start := min_eq_left (by omega)
        have hsplit : size * stride = (size - 1) * stride + stride := by ring
        have hlt : start < min (start + size * stride) n := by
          rw [lt_min_iff]
          omega
        have hdiv : (min (start + size * stride) n - start - 1) / stride = size - 1 := by
          rw [Int.ediv_eq_iff_of_pos hstride]
          omega
        rw [hmin, if_pos hlt, hdiv, sub_add_cancel]

theorem toPick_inBounds {d : DimIndexer} {n : ℕ} (h : d.InBounds n) :
    RangeInBounds (transformSliceOrIndex d) n := by
  cases d with
  | int i => exact h
  | slice start size stride =>
      obtain ⟨hstart, hsize, hstride, hlast⟩ := h
      refine ⟨hstride, fun k hk => ?_⟩
      have hk0 := mul_nonneg (Int.natCast_nonneg k) (le_of_lt hstride)
      have hlt : (k : ℤ) < size := by
        by_contra hle
        have := Int.mul_le_mul_of_nonneg_right (not_lt.mp hle) (le_of_lt hstride)
        omega
      have hle := Int.mul_le_mul_of_nonneg_right (by omega : (k : ℤ) ≤ size - 1) (le_of_lt hstride)
      have := hlast (by omega)
      omega

/-! ## Composed indexers -/

/-- The indexer of a view of a view. -/
def composeIndexers : List DimIndexer → List DimIndexer → List DimIndexer
  | [], ds₂ => ds₂
  | d :: ds₁, [] => d :: ds₁
  | .int i :: ds₁, ds₂ => .int i :: composeIndexers ds₁ ds₂
  | .slice start _ stride :: ds₁, .int j :: ds₂ =>
      .int (start + j * stride) :: composeIndexers ds₁ ds₂
  | .slice start _ stride :: ds₁, .slice start' size' stride' :: ds₂ =>
      .slice (start + start' * stride) size' (stride * stride') :: composeIndexers ds₁ ds₂

theorem composeSliceOrIndex_nil (rs : List RangeIndex) : composeSliceOrIndex rs [] = rs := by
  cases rs with
  | nil => rfl
  | cons r rs => cases r <;> rfl

/-- The stop that is computed is the one of the indexer. -/
theorem composeSliceOrIndex_transform : ∀ ds₁ ds₂ : List DimIndexer,
    composeSliceOrIndex (ds₁.map transformSliceOrIndex) (ds₂.map transformSliceOrIndex) =
      (composeIndexers ds₁ ds₂).map transformSliceOrIndex
  | [], _ => rfl
  | .int _ :: _, [] => rfl
  | .slice _ _ _ :: _, [] => rfl
  | .int i :: ds₁, d :: ds₂ =>
      congrArg (RangeIndex.int i :: ·) (composeSliceOrIndex_transform ds₁ (d :: ds₂))
  | .slice start size stride :: ds₁, .int j :: ds₂ =>
      congrArg (RangeIndex.int (start + j * stride) :: ·) (composeSliceOrIndex_transform ds₁ ds₂)
  | .slice start size stride :: ds₁, .slice start' size' stride' :: ds₂ => by
      have hstop : start + (start' + size' * stride') * stride =
          start + start' * stride + size' * (stride * stride') := by ring
      have ih := composeSliceOrIndex_transform ds₁ ds₂
      simp only [List.map_cons, transformSliceOrIndex, composeSliceOrIndex, composeIndexers, hstop, ih]

/-- Indexers of the first axes of a shape, in their bounds. -/
inductive InBoundsAll : List DimIndexer → List ℕ → Prop where
  | nil (shape : List ℕ) : InBoundsAll [] shape
  | cons {d : DimIndexer} {ds : List DimIndexer} {n : ℕ} {shape : List ℕ} (hd : d.InBounds n)
      (h : InBoundsAll ds shape) : InBoundsAll (d :: ds) (n :: shape)

theorem InBoundsAll.length_le {ds : List DimIndexer} {shape : List ℕ} (h : InBoundsAll ds shape) :
    ds.length ≤ shape.length := by
  induction h with
  | nil _ => exact Nat.zero_le _
  | cons _ _ ih => exact Nat.succ_le_succ ih

theorem inBoundsAll_of_forall₂ {ds : List DimIndexer} {shape : List ℕ}
    (h : List.Forall₂ DimIndexer.InBounds ds shape) : InBoundsAll ds shape := by
  induction h with
  | nil => exact .nil []
  | cons hd _ ih => exact .cons hd ih

theorem viewShape_eq : ∀ (ds : List DimIndexer) (shape : List ℕ),
    viewShape ds shape = pickShape (ds.map DimIndexer.toPick) shape
  | [], _ => rfl
  | .int _ :: _, [] => rfl
  | .slice _ _ _ :: _, [] => rfl
  | .int i :: ds, _ :: shape => viewShape_eq ds shape
  | .slice start size stride :: ds, _ :: shape => by
      simp only [viewShape, List.map_cons, DimIndexer.toPick, pickShape, List.length_map,
        List.length_range, viewShape_eq ds shape]

theorem resolveAll_transform {ds : List DimIndexer} {shape : List ℕ} (h : InBoundsAll ds shape) :
    resolveAll (ds.map transformSliceOrIndex) shape = some (ds.map DimIndexer.toPick) := by
  induction h with
  | nil shape => rfl
  | cons hd _ ih =>
      rw [List.map_cons, List.map_cons, resolveAll_cons]
      exact ⟨_, _, resolve_transform hd, ih, rfl⟩

theorem composeIndexers_nil (ds : List DimIndexer) : composeIndexers ds [] = ds := by
  cases ds with
  | nil => rfl
  | cons d ds => cases d <;> rfl

/-- An element of a slice that is in bounds. -/
theorem element_inBounds {start size stride j : ℤ} {n : ℕ}
    (h : (DimIndexer.slice start size stride).InBounds n) (hj : 0 ≤ j) (hlt : j < size) :
    0 ≤ start + j * stride ∧ start + j * stride < n := by
  obtain ⟨hstart, -, hstride, hlast⟩ := h
  have hmul := mul_nonneg hj (le_of_lt hstride)
  have hle := Int.mul_le_mul_of_nonneg_right (by omega : j ≤ size - 1) (le_of_lt hstride)
  have := hlast (by omega)
  omega

theorem toPick_getD {start size stride j : ℤ} (hj : 0 ≤ j) (hlt : j < size) :
    ((List.range size.toNat).map fun k : ℕ => (start + k * stride).toNat).getD j.toNat 0 =
      (start + j * stride).toNat := by
  have hlen : j.toNat < ((List.range size.toNat).map fun k : ℕ =>
      (start + k * stride).toNat).length := by
    rw [List.length_map, List.length_range]
    omega
  rw [List.getD_eq_getElem _ _ hlen, List.getElem_map, List.getElem_range, Int.toNat_of_nonneg hj]

/-- Composing the indexers composes their positions, and stays in bounds. -/
theorem composeIndexers_spec {ds₁ : List DimIndexer} {shape : List ℕ} (h : InBoundsAll ds₁ shape) :
    ∀ {ds₂ : List DimIndexer}, InBoundsAll ds₂ (viewShape ds₁ shape) →
      InBoundsAll (composeIndexers ds₁ ds₂) shape ∧
        (composeIndexers ds₁ ds₂).map DimIndexer.toPick =
          compPicks (ds₁.map DimIndexer.toPick) (ds₂.map DimIndexer.toPick) := by
  induction h with
  | nil shape => exact fun h₂ => ⟨h₂, rfl⟩
  | @cons d ds₁ n shape hd hds₁ ih =>
      intro ds₂ h₂
      cases ds₂ with
      | nil =>
          rw [composeIndexers_nil, List.map_nil, compPicks_nil]
          exact ⟨.cons hd hds₁, rfl⟩
      | cons d₂ ds₂ =>
          cases d with
          | int i =>
              obtain ⟨hin, hpicks⟩ := ih h₂
              exact ⟨.cons hd hin, congrArg (_ :: ·) hpicks⟩
          | slice start size stride =>
              cases h₂ with
              | cons hd₂ h₂ =>
              obtain ⟨hin, hpicks⟩ := ih h₂
              have hsize := hd.2.1
              have hstride := hd.2.2.1
              cases d₂ with
              | int j =>
                  obtain ⟨hj, hlt⟩ := hd₂
                  refine ⟨.cons (element_inBounds hd hj (by omega)) hin, ?_⟩
                  refine congrArg₂ (· :: ·) ?_ hpicks
                  exact congrArg AxisPick.one (toPick_getD hj (by omega)).symm
              | slice start' size' stride' =>
                  have helement : ∀ k : ℤ, 0 ≤ k → k < size' →
                      0 ≤ start' + k * stride' ∧ start' + k * stride' < size := by
                    intro k hk hlt
                    have := element_inBounds hd₂ hk hlt
                    omega
                  obtain ⟨hstart', hsize', hstride', -⟩ := hd₂
                  have hmul := mul_nonneg hstart' (le_of_lt hstride)
                  refine ⟨.cons ⟨by have := hd.1; omega, hsize', mul_pos hstride hstride', ?_⟩ hin, ?_⟩
                  · intro hpos
                    obtain ⟨h0, hlt⟩ := helement (size' - 1) (by omega) (by omega)
                    have hlast := (element_inBounds hd h0 hlt).2
                    have hring : start + (start' + (size' - 1) * stride') * stride =
                        start + start' * stride + (size' - 1) * (stride * stride') := by ring
                    rwa [hring] at hlast
                  · refine congrArg₂ (· :: ·) ?_ hpicks
                    simp only [DimIndexer.toPick, List.map_map]
                    refine congrArg AxisPick.many (List.map_congr_left fun k hk => ?_)
                    obtain ⟨h0, hlt⟩ := helement k (by omega) (by
                      have := List.mem_range.mp hk
                      omega)
                    have hring : start + start' * stride + k * (stride * stride') =
                        start + (start' + k * stride') * stride := by ring
                    rw [Function.comp_apply, toPick_getD h0 hlt, hring]

/-! ## Chains -/

theorem inBounds_transform {ds : List DimIndexer} {shape : List ℕ} (h : InBoundsAll ds shape) :
    ∀ p ∈ (ds.map transformSliceOrIndex).zip shape, RangeInBounds p.1 p.2 := by
  induction h with
  | nil shape => exact nofun
  | cons hd _ ih => exact List.forall_mem_cons.mpr ⟨toPick_inBounds hd, ih⟩

/-- From the indexers that were composed so far: indexing with the range of the whole chain is
indexing with the rest of the chain. -/
theorem toRange_step {x : NdArray α} : ∀ {transforms : List (List DimIndexer)} {ds : List DimIndexer}
    (h : InBoundsAll ds x.shape), InBoundsChain (viewShape ds x.shape) transforms →
      ∃ es, InBoundsAll es x.shape ∧
        transforms.foldl (fun ret indices => composeSliceOrIndex ret
          (indices.map transformSliceOrIndex)) (ds.map transformSliceOrIndex) =
            es.map transformSliceOrIndex ∧
        indexEach (x.pick _ (resolveAll_fits (resolveAll_transform h))) transforms =
          x.index (es.map transformSliceOrIndex)
  | [], ds, h, _ => ⟨ds, h, rfl, (NdArray.index_eq (resolveAll_transform h)).symm⟩
  | indices :: transforms, ds, h, hchain => by
      obtain ⟨hindices, hrest⟩ := hchain
      have hindices := inBoundsAll_of_forall₂ hindices
      obtain ⟨hin, hpicks⟩ := composeIndexers_spec h hindices
      have hfits := resolveAll_fits (resolveAll_transform h)
      -- the view is a view of the array
      have hindices' : InBoundsAll indices (pickShape (ds.map DimIndexer.toPick) x.shape) :=
        viewShape_eq ds x.shape ▸ hindices
      have hview : (x.pick _ hfits).index (indices.map transformSliceOrIndex) =
          some (x.pick _ (resolveAll_fits (resolveAll_transform hin))) := by
        rw [NdArray.index_eq (resolveAll_transform hindices'), NdArray.pick_pick]
        exact congrArg some (NdArray.pick_congr hpicks.symm _ _)
      have hshape : viewShape (composeIndexers ds indices) x.shape =
          viewShape indices (viewShape ds x.shape) := by
        rw [viewShape_eq, viewShape_eq indices, viewShape_eq ds, hpicks]
        exact (compPicks_spec hfits (resolveAll_fits (resolveAll_transform hindices'))).2.1
      obtain ⟨es, hes, hfold, heach⟩ := toRange_step hin (hshape ▸ hrest)
      refine ⟨es, hes, ?_, ?_⟩
      · rw [List.foldl_cons, composeSliceOrIndex_transform, hfold]
      · rw [indexEach, hview]
        exact heach

/-- An array whose elements are their indices. -/
def indexArray (shape : List ℕ) : NdArray (List ℕ) where
  shape := shape
  get? := fun idx => if Within shape idx then some idx else none
  within := by
    intro idx
    split <;> simp [*]

end JaxDas.Interpret
