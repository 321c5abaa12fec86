import JaxDas.Lib.BasicIndexing

/-!
# Swapping the contents of a buffer

`swap_buffer_content` writes a value into a range of a buffer and returns what was there. A part of
the range may be out of bounds, where the mask must not select. The vector clock and the log are
left out; of the dtypes, which are asserted to be one, there is the type of the elements.

It is not right in two cases. The loop that marks what is out of bounds cuts the first axis of the
mask each time, and not the axis it is at. And without a mask what is returned is a view of the
buffer, copied after the write.
-/

namespace JaxDas.Interpret

variable {α : Type} [Inhabited α]

/-! ## The swap -/

/-- `m[i:] = False` -/
def clearFrom (m : NdArray Bool) (i : ℕ) : NdArray Bool :=
  .ofFn m.shape fun idx => if i ≤ idx.headD 0 then false else m.item idx

/-- `in_bounds_mask` -/
def inBoundsMask (mask_shape in_bounds_shape : List ℕ) : NdArray Bool :=
  in_bounds_shape.foldl clearFrom (.ofFn mask_shape fun _ => true)

/-- `np.where` of arrays of one shape. -/
def npWhere (m : NdArray Bool) (x y : NdArray α) : NdArray α :=
  .ofFn m.shape fun idx => if m.item idx then x.item idx else y.item idx

/-- `x[in_bounds_idx]`, of an array that is at least as large in every axis. -/
def inBoundsPart {β : Type} [Inhabited β] (x : NdArray β) (in_bounds_shape : List ℕ) : NdArray β :=
  .ofFn in_bounds_shape x.item

/-- `result[in_bounds_idx] = x` -/
def setInBoundsPart (result : NdArray α) (in_bounds_shape : List ℕ) (x : NdArray α) : NdArray α :=
  .ofFn result.shape fun idx => if Within in_bounds_shape idx then x.item idx else result.item idx

/-- `swap_buffer_content`: the result and the content of the buffer after it; `none` is an
`IndexError`. The value and the mask have the shape of the range without clipping. -/
def swapBufferContent (array : NdArray α) (rnge : List RangeIndex) (value : NdArray α)
    (mask : Option (NdArray Bool)) : Option (Option (NdArray α) × NdArray α) :=
  match h : resolveAll rnge array.shape with
  | some picks =>
      let raw_result := array.pick picks (NdArray.fits_of_resolveAll h)
      let in_bounds_shape := raw_result.shape
      match mask with
      | none =>
          if in_bounds_shape = value.shape then
            let array' := array.put picks value
            -- a scalar is a copy, anything else a view, which has the new elements
            let result := if in_bounds_shape = [] then raw_result
              else array'.pick picks (NdArray.fits_of_resolveAll h)
            some (some result, array')
          else some (none, array)
      | some mask =>
          let in_bounds_mask := inBoundsMask mask.shape in_bounds_shape
          let lost : NdArray Bool :=
            .ofFn mask.shape fun idx => !in_bounds_mask.item idx && mask.item idx
          if lost.reduceOr id then some (none, array)
          else
            let mask_part := inBoundsPart mask in_bounds_shape
            let value_part := inBoundsPart value in_bounds_shape
            let result :=
              setInBoundsPart value in_bounds_shape (npWhere mask_part raw_result value_part)
            some (some result, array.put picks (npWhere mask_part value_part raw_result))
  | none => none

/-! ## Ranges -/

/-- An integer, or a slice of step 1 with a start that is not negative. -/
inductive UnitIndex where
  | int (i : ℤ)
  | slice (start size : ℕ)
deriving DecidableEq, Repr

def UnitIndex.toIndex : UnitIndex → RangeIndex
  | int i => .int i
  | slice start size => .slice start (start + size) 1

/-- A negative integer counts from the end of the axis. -/
def fromEnd (n : ℕ) (i : ℤ) : ℤ := if i < 0 then i + n else i

/-- The shape of a range without clipping. -/
def unclippedShape : List UnitIndex → List ℕ → List ℕ
  | [], shape => shape
  | .int _ :: rnge, _ :: shape => unclippedShape rnge shape
  | .slice _ size :: rnge, _ :: shape => size :: unclippedShape rnge shape
  | _ :: _, [] => []

/-- The position that is meant by an index into that shape. -/
def target : List UnitIndex → List ℕ → List ℕ → List ℕ
  | .int i :: rnge, n :: shape, idx => (fromEnd n i).toNat :: target rnge shape idx
  | .slice start _ :: rnge, _ :: shape, k :: idx => (start + k) :: target rnge shape idx
  | .slice _ _ :: _, _ :: _, [] => []
  | _, _, idx => idx

/-- Every integer of the range is in its axis, and there are enough axes. -/
def Addresses : List UnitIndex → List ℕ → Prop
  | [], _ => True
  | .int i :: rnge, n :: shape => (0 ≤ fromEnd n i ∧ fromEnd n i < n) ∧ Addresses rnge shape
  | .slice _ _ :: rnge, _ :: shape => Addresses rnge shape
  | _ :: _, [] => False

/-- The shape of the range, clipped. -/
def clippedShape : List UnitIndex → List ℕ → List ℕ
  | [], shape => shape
  | .int _ :: rnge, _ :: shape => clippedShape rnge shape
  | .slice start size :: rnge, n :: shape => min size (n - start) :: clippedShape rnge shape
  | _ :: _, [] => []

/-- The positions of the range in the buffer. -/
def unitPicks : List UnitIndex → List ℕ → List AxisPick
  | .int i :: rnge, n :: shape => .one (fromEnd n i).toNat :: unitPicks rnge shape
  | .slice start size :: rnge, n :: shape =>
      .many ((List.range (min size (n - start))).map (start + ·)) :: unitPicks rnge shape
  | _, _ => []

theorem resolve_slice (n start size : ℕ) : (UnitIndex.slice start size).toIndex.resolve n =
    some (.many ((List.range (min size (n - start))).map (start + ·))) := by
  have hstart : RangeIndex.adjust n 1 start = min (start : ℤ) n := by
    rw [RangeIndex.adjust, if_neg (by omega), if_neg (by omega)]
  have hstop : RangeIndex.adjust n 1 (start + size) = min ((start : ℤ) + size) n := by
    rw [RangeIndex.adjust, if_neg (by omega), if_neg (by omega)]
  have hlen : RangeIndex.sliceLength (min (start : ℤ) n) (min ((start : ℤ) + size) n) 1 =
      min size (n - start) := by
    rw [RangeIndex.sliceLength, if_neg (by omega), Int.ediv_one]
    split <;> omega
  simp only [UnitIndex.toIndex, RangeIndex.resolve, if_neg (one_ne_zero' ℤ), hstart, hstop, hlen]
  refine congrArg (some ∘ AxisPick.many) (List.map_congr_left fun k hk => ?_)
  have := List.mem_range.mp hk
  omega

theorem resolve_int {n : ℕ} {i : ℤ} : (UnitIndex.int i).toIndex.resolve n =
    if 0 ≤ fromEnd n i ∧ fromEnd n i < n then some (.one (fromEnd n i).toNat) else none := rfl

theorem resolveAll_unit : ∀ {rnge : List UnitIndex} {shape : List ℕ}, Addresses rnge shape →
    resolveAll (rnge.map UnitIndex.toIndex) shape = some (unitPicks rnge shape)
  | [], _, _ => by cases ‹List ℕ› <;> rfl
  | .int i :: rnge, n :: shape, h => by
      refine resolveAll_cons.mpr ⟨_, _, ?_, resolveAll_unit h.2, rfl⟩
      rw [resolve_int, if_pos h.1]
  | .slice start size :: rnge, n :: shape, h =>
      resolveAll_cons.mpr ⟨_, _, resolve_slice n start size, resolveAll_unit h, rfl⟩

theorem addresses_of_resolveAll : ∀ {rnge : List UnitIndex} {shape : List ℕ} {ps : List AxisPick},
    resolveAll (rnge.map UnitIndex.toIndex) shape = some ps → Addresses rnge shape
  | [], _, _, _ => trivial
  | .int i :: rnge, n :: shape, ps, h => by
      obtain ⟨p, qs, hp, hqs, -⟩ := resolveAll_cons.mp h
      refine ⟨?_, addresses_of_resolveAll hqs⟩
      rw [resolve_int] at hp
      by_contra hi
      rw [if_neg hi] at hp
      cases hp
  | .slice start size :: rnge, n :: shape, ps, h => by
      obtain ⟨p, qs, hp, hqs, -⟩ := resolveAll_cons.mp h
      have := addresses_of_resolveAll hqs
      exact this
  | _ :: _, [], _, h => by cases h

/-- The clipped range, in the terms of positions. -/
theorem unitPicks_spec : ∀ {rnge : List UnitIndex} {shape : List ℕ}, Addresses rnge shape →
    pickShape (unitPicks rnge shape) shape = clippedShape rnge shape ∧
      (∀ p ∈ unitPicks rnge shape, p.Distinct) ∧
      (∀ idx, Within (clippedShape rnge shape) idx →
        pickIndex (unitPicks rnge shape) idx = target rnge shape idx) ∧
      ∀ idx, Within (clippedShape rnge shape) idx ↔
        Within (unclippedShape rnge shape) idx ∧ Within shape (target rnge shape idx)
  | [], shape, _ => by
      cases shape <;> exact ⟨rfl, List.forall_mem_nil _, fun _ _ => rfl, fun _ => and_self_iff.symm⟩
  | .int i :: rnge, n :: shape, h => by
      obtain ⟨hshape, hdistinct, hindex, hwithin⟩ := unitPicks_spec h.2
      refine ⟨hshape, List.forall_mem_cons.mpr ⟨trivial, hdistinct⟩, fun idx hidx => ?_,
        fun idx => ?_⟩
      · exact congrArg (_ :: ·) (hindex idx hidx)
      · have hi : (fromEnd n i).toNat < n := (Int.toNat_lt h.1.1).mpr h.1.2
        have hcons : Within (n :: shape) ((fromEnd n i).toNat :: target rnge shape idx) ↔
            Within shape (target rnge shape idx) :=
          ⟨fun h => by cases h; assumption, fun hr => .cons hi hr⟩
        exact (hwithin idx).trans (and_congr_right' hcons.symm)
  | .slice start size :: rnge, n :: shape, h => by
      obtain ⟨hshape, hdistinct, hindex, hwithin⟩ := @unitPicks_spec rnge shape h
      refine ⟨?_, List.forall_mem_cons.mpr ⟨?_, hdistinct⟩, fun idx hidx => ?_, fun idx => ?_⟩
      · rw [unitPicks, pickShape, List.length_map, List.length_range, hshape, clippedShape]
      · exact List.Nodup.map (fun _ _ => Nat.add_left_cancel) List.nodup_range
      · cases hidx with
        | @cons k _ idx _ hk hidx =>
            refine congrArg₂ (· :: ·) ?_ (hindex idx hidx)
            rw [List.getD_eq_getElem _ _ (by rwa [List.length_map, List.length_range]),
              List.getElem_map, List.getElem_range]
      · cases idx with
        | nil => exact iff_of_false (fun h => by cases h) fun h => by cases h.1
        | cons k idx =>
            have hidx := hwithin idx
            rw [clippedShape, unclippedShape, target]
            unfold Within at hidx ⊢
            rw [List.forall₂_cons, List.forall₂_cons, List.forall₂_cons, hidx, lt_min_iff]
            have hk : k < n - start ↔ start + k < n := by omega
            rw [hk]
            tauto

/-! ## What a swap is for -/

/-- What the mask selects. -/
def selected (mask : Option (NdArray Bool)) (idx : List ℕ) : Bool :=
  match mask with
  | none => true
  | some mask => mask.item idx

/-- A position that is selected and not in the buffer. -/
def Outside (shape : List ℕ) (rnge : List UnitIndex) (mask : Option (NdArray Bool)) : Prop :=
  ∃ idx, Within (unclippedShape rnge shape) idx ∧ selected mask idx = true ∧
    ¬ Within shape (target rnge shape idx)

/-- If a selected position is outside, nothing is swapped. Otherwise the buffer gets the value at
the selected positions, and what is returned has the old elements there and the value elsewhere. -/
structure Swaps (array : NdArray α) (rnge : List UnitIndex) (value : NdArray α)
    (mask : Option (NdArray Bool)) (result : Option (NdArray α)) (array' : NdArray α) : Prop where
  outside : Outside array.shape rnge mask → result = none ∧ array' = array
  inside : ¬ Outside array.shape rnge mask → ∃ old, result = some old ∧
    old.shape = unclippedShape rnge array.shape ∧
    (∀ idx, Within (unclippedShape rnge array.shape) idx → old.item idx =
      if selected mask idx then array.item (target rnge array.shape idx) else value.item idx) ∧
    array'.shape = array.shape ∧
    (∀ idx, Within (unclippedShape rnge array.shape) idx → selected mask idx = true →
      array'.item (target rnge array.shape idx) = value.item idx) ∧
    ∀ pos, Within array.shape pos →
      (∀ idx, Within (unclippedShape rnge array.shape) idx → selected mask idx = true →
        target rnge array.shape idx ≠ pos) → array'.item pos = array.item pos

/-- A selected position whose first coordinate is not below the clipped size of every axis. -/
def FirstAxisCut (shape : List ℕ) (rnge : List UnitIndex) (mask : NdArray Bool) : Prop :=
  ∃ idx, Within (unclippedShape rnge shape) idx ∧ mask.item idx = true ∧
    ∃ size ∈ clippedShape rnge shape, size ≤ idx.headD 0

/-- The integers are in the buffer. With a mask, the cut of the first axis meets a selected position
if and only if one is outside. Without one, an axis is clipped only if a position is outside, and if
none is clipped, the value is what is in the buffer already or a scalar. -/
def SwapsRight (array : NdArray α) (rnge : List UnitIndex) (value : NdArray α) :
    Option (NdArray Bool) → Prop
  | some mask => Addresses rnge array.shape ∧
      (FirstAxisCut array.shape rnge mask ↔ Outside array.shape rnge (some mask))
  | none => Addresses rnge array.shape ∧
      (clippedShape rnge array.shape ≠ unclippedShape rnge array.shape →
        Outside array.shape rnge none) ∧
      (clippedShape rnge array.shape = unclippedShape rnge array.shape →
        unclippedShape rnge array.shape = [] ∨
          ∀ idx, Within (unclippedShape rnge array.shape) idx →
            array.item (target rnge array.shape idx) = value.item idx)

/-! ## The mask of what is in bounds -/

theorem item_clearFrom {m : NdArray Bool} {idx : List ℕ} (h : Within m.shape idx) (i : ℕ) :
    (clearFrom m i).item idx = (m.item idx && decide (idx.headD 0 < i)) := by
  rw [clearFrom, NdArray.item_ofFn _ h]
  by_cases hi : i ≤ idx.headD 0
  · rw [if_pos hi, decide_eq_false (by omega), Bool.and_false]
  · rw [if_neg hi, decide_eq_true (by omega), Bool.and_true]

theorem item_foldl_clearFrom {idx : List ℕ} : ∀ {sizes : List ℕ} {m : NdArray Bool},
    Within m.shape idx → ((sizes.foldl clearFrom m).item idx = true ↔
      m.item idx = true ∧ ∀ size ∈ sizes, idx.headD 0 < size)
  | [], m, _ => by simp
  | i :: sizes, m, h => by
      have hshape : Within (clearFrom m i).shape idx := h
      rw [List.foldl_cons, item_foldl_clearFrom hshape, item_clearFrom h, Bool.and_eq_true,
        decide_eq_true_eq, List.forall_mem_cons, and_assoc]

theorem item_inBoundsMask {mask_shape in_bounds_shape idx : List ℕ} (h : Within mask_shape idx) :
    (inBoundsMask mask_shape in_bounds_shape).item idx = true ↔
      ∀ size ∈ in_bounds_shape, idx.headD 0 < size := by
  rw [inBoundsMask, item_foldl_clearFrom h, NdArray.item_ofFn _ h]
  exact and_iff_right rfl

/-- The mask loses a position if and only if the first axis is cut at one. -/
theorem lost_iff {shape : List ℕ} {rnge : List UnitIndex} {mask : NdArray Bool}
    (hmask : mask.shape = unclippedShape rnge shape) :
    (NdArray.ofFn mask.shape fun idx =>
      !(inBoundsMask mask.shape (clippedShape rnge shape)).item idx && mask.item idx).reduceOr id =
        true ↔ FirstAxisCut shape rnge mask := by
  rw [NdArray.reduceOr_iff]
  constructor
  · rintro ⟨idx, h⟩
    have hidx : Within mask.shape idx := NdArray.test_within (p := .ofFn mask.shape _) h
    rw [NdArray.test, NdArray.ofFn_get? _ hidx, Option.any_some, id, Bool.and_eq_true,
      Bool.not_eq_true', ← Bool.not_eq_true, item_inBoundsMask hidx] at h
    obtain ⟨hcut, htrue⟩ := h
    simp only [not_forall, not_lt, exists_prop] at hcut
    exact ⟨idx, hmask ▸ hidx, htrue, hcut⟩
  · rintro ⟨idx, hidx, htrue, hcut⟩
    rw [← hmask] at hidx
    refine ⟨idx, ?_⟩
    rw [NdArray.test, NdArray.ofFn_get? _ hidx, Option.any_some, id, Bool.and_eq_true,
      Bool.not_eq_true', ← Bool.not_eq_true, item_inBoundsMask hidx]
    simp only [not_forall, not_lt, exists_prop]
    exact ⟨hcut, htrue⟩

/-! ## The result -/

theorem item_npWhere {m : NdArray Bool} {idx : List ℕ} (h : Within m.shape idx) (x y : NdArray α) :
    (npWhere m x y).item idx = if m.item idx then x.item idx else y.item idx :=
  NdArray.item_ofFn _ h

theorem item_inBoundsPart {β : Type} [Inhabited β] {in_bounds_shape idx : List ℕ}
    (h : Within in_bounds_shape idx) (x : NdArray β) :
    (inBoundsPart x in_bounds_shape).item idx = x.item idx := NdArray.item_ofFn _ h

theorem item_npWhere_part {mask : NdArray Bool} {in_bounds_shape idx : List ℕ}
    (h : Within in_bounds_shape idx) (x y : NdArray α) :
    (npWhere (inBoundsPart mask in_bounds_shape) x y).item idx =
      if mask.item idx then x.item idx else y.item idx := by
  rw [item_npWhere (show Within (inBoundsPart mask in_bounds_shape).shape idx from h),
    item_inBoundsPart h]

section

variable {array : NdArray α} {rnge : List UnitIndex} {value : NdArray α}

theorem swapBufferContent_error (h : ¬ Addresses rnge array.shape) (mask : Option (NdArray Bool)) :
    swapBufferContent array (rnge.map UnitIndex.toIndex) value mask = none := by
  unfold swapBufferContent
  split
  · next picks hpicks => exact absurd (addresses_of_resolveAll hpicks) h
  · rfl

omit [Inhabited α] in
theorem unitPicks_fits (h : Addresses rnge array.shape) :
    FitsAll (unitPicks rnge array.shape) array.shape := resolveAll_fits (resolveAll_unit h)

/-- What the swap without a mask returns: of a scalar the old element, of anything else the view. -/
def unmaskedResult (array : NdArray α) (rnge : List UnitIndex) (value : NdArray α)
    (h : Addresses rnge array.shape) : NdArray α :=
  if clippedShape rnge array.shape = [] then
    array.pick (unitPicks rnge array.shape) (unitPicks_fits h)
  else (array.put (unitPicks rnge array.shape) value).pick (unitPicks rnge array.shape)
    (unitPicks_fits h)

/-- The swap without a mask. -/
theorem swapBufferContent_none (h : Addresses rnge array.shape) :
    swapBufferContent array (rnge.map UnitIndex.toIndex) value none =
      if clippedShape rnge array.shape = value.shape then
        some (some (unmaskedResult array rnge value h),
          array.put (unitPicks rnge array.shape) value)
      else some (none, array) := by
  have hshape : (array.pick (unitPicks rnge array.shape) (unitPicks_fits h)).shape =
      clippedShape rnge array.shape := (unitPicks_spec h).1
  unfold swapBufferContent
  split
  · next picks hpicks =>
      obtain rfl := Option.some.inj ((resolveAll_unit h).symm.trans hpicks)
      simp only [hshape, unmaskedResult]
  · next hnone =>
      rw [resolveAll_unit h] at hnone
      cases hnone

/-- The swap with a mask. -/
theorem swapBufferContent_some (h : Addresses rnge array.shape) (mask : NdArray Bool) :
    swapBufferContent array (rnge.map UnitIndex.toIndex) value (some mask) =
      if (NdArray.ofFn mask.shape fun idx =>
          !(inBoundsMask mask.shape (clippedShape rnge array.shape)).item idx &&
            mask.item idx).reduceOr id then some (none, array)
      else
        some (some (setInBoundsPart value (clippedShape rnge array.shape)
            (npWhere (inBoundsPart mask (clippedShape rnge array.shape))
              (array.pick (unitPicks rnge array.shape) (unitPicks_fits h))
              (inBoundsPart value (clippedShape rnge array.shape)))),
          array.put (unitPicks rnge array.shape)
            (npWhere (inBoundsPart mask (clippedShape rnge array.shape))
              (inBoundsPart value (clippedShape rnge array.shape))
              (array.pick (unitPicks rnge array.shape) (unitPicks_fits h)))) := by
  have hshape : (array.pick (unitPicks rnge array.shape) (unitPicks_fits h)).shape =
      clippedShape rnge array.shape := (unitPicks_spec h).1
  unfold swapBufferContent
  split
  · next picks hpicks =>
      obtain rfl := Option.some.inj ((resolveAll_unit h).symm.trans hpicks)
      simp only [hshape]
  · next hnone =>
      rw [resolveAll_unit h] at hnone
      cases hnone

theorem swapBufferContent_cut (h : Addresses rnge array.shape) {mask : NdArray Bool}
    (hmask : mask.shape = unclippedShape rnge array.shape)
    (hcut : FirstAxisCut array.shape rnge mask) :
    swapBufferContent array (rnge.map UnitIndex.toIndex) value (some mask) =
      some (none, array) := by
  rw [swapBufferContent_some h, if_pos ((lost_iff hmask).mpr hcut)]

omit [Inhabited α] in
theorem not_outside (h : Addresses rnge array.shape)
    (hclip : clippedShape rnge array.shape = unclippedShape rnge array.shape)
    (mask : Option (NdArray Bool)) : ¬ Outside array.shape rnge mask := by
  rintro ⟨idx, hidx, -, hout⟩
  exact hout (((unitPicks_spec h).2.2.2 idx).mp (hclip ▸ hidx)).2

/-- The elements of the buffer after an assignment to the range. -/
theorem put_range (h : Addresses rnge array.shape) (w : NdArray α) :
    (∀ idx, Within (clippedShape rnge array.shape) idx →
      (array.put (unitPicks rnge array.shape) w).item (target rnge array.shape idx) = w.item idx) ∧
    ∀ pos, Within array.shape pos →
      (∀ idx, Within (clippedShape rnge array.shape) idx → target rnge array.shape idx ≠ pos) →
      (array.put (unitPicks rnge array.shape) w).item pos = array.item pos := by
  obtain ⟨hshape, hdistinct, hindex, -⟩ := unitPicks_spec h
  refine ⟨fun idx hidx => ?_, fun pos hpos hne => ?_⟩
  · rw [← hindex idx hidx]
    exact NdArray.item_put_pickIndex (unitPicks_fits h) hdistinct (by rwa [hshape])
  · refine NdArray.item_put_of_ne (unitPicks_fits h) hdistinct hpos fun idx hidx => ?_
    rw [hshape] at hidx
    rw [hindex idx hidx]
    exact hne idx hidx

theorem raw_item (h : Addresses rnge array.shape) {idx : List ℕ}
    (hidx : Within (clippedShape rnge array.shape) idx) :
    (array.pick (unitPicks rnge array.shape) (unitPicks_fits h)).item idx =
      array.item (target rnge array.shape idx) := by
  obtain ⟨hshape, -, hindex, -⟩ := unitPicks_spec h
  rw [NdArray.item_pick _ (by rwa [hshape]), hindex idx hidx]

/-- Where no selected position is outside, the masked swap is right. -/
theorem masked_swaps (h : Addresses rnge array.shape) {mask : NdArray Bool}
    (hvalue : value.shape = unclippedShape rnge array.shape)
    (hin : ¬ Outside array.shape rnge (some mask)) :
    Swaps array rnge value (some mask)
      (some (setInBoundsPart value (clippedShape rnge array.shape)
        (npWhere (inBoundsPart mask (clippedShape rnge array.shape))
          (array.pick (unitPicks rnge array.shape) (unitPicks_fits h))
          (inBoundsPart value (clippedShape rnge array.shape)))))
      (array.put (unitPicks rnge array.shape)
        (npWhere (inBoundsPart mask (clippedShape rnge array.shape))
          (inBoundsPart value (clippedShape rnge array.shape))
          (array.pick (unitPicks rnge array.shape) (unitPicks_fits h)))) := by
  obtain ⟨-, -, -, hwithin⟩ := unitPicks_spec h
  obtain ⟨hput, hother⟩ := put_range h
    (npWhere (inBoundsPart mask (clippedShape rnge array.shape))
      (inBoundsPart value (clippedShape rnge array.shape))
      (array.pick (unitPicks rnge array.shape) (unitPicks_fits h)))
  -- what is selected is in bounds
  have hclipped : ∀ idx, Within (unclippedShape rnge array.shape) idx → mask.item idx = true →
      Within (clippedShape rnge array.shape) idx := by
    intro idx hidx hmask
    refine (hwithin idx).mpr ⟨hidx, ?_⟩
    by_contra hout
    exact hin ⟨idx, hidx, hmask, hout⟩
  refine ⟨fun hout => absurd hout hin, fun _ => ⟨_, rfl, hvalue, fun idx hidx => ?_, rfl,
    fun idx hidx hmask => ?_, fun pos hpos hne => ?_⟩⟩
  · rw [setInBoundsPart, NdArray.item_ofFn _ (hvalue ▸ hidx), selected]
    by_cases hc : Within (clippedShape rnge array.shape) idx
    · rw [if_pos hc, item_npWhere_part hc, raw_item h hc, item_inBoundsPart hc]
    · have hmask : mask.item idx = false := by
        rw [← Bool.not_eq_true]
        exact fun hmask => hc (hclipped idx hidx hmask)
      rw [if_neg hc, hmask, if_neg Bool.false_ne_true]
  · have hc := hclipped idx hidx hmask
    rw [hput idx hc, item_npWhere_part hc, if_pos (show mask.item idx = true from hmask),
      item_inBoundsPart hc]
  · by_cases htarget : ∃ idx, Within (clippedShape rnge array.shape) idx ∧
        target rnge array.shape idx = pos
    · obtain ⟨idx, hc, rfl⟩ := htarget
      have hmask : mask.item idx ≠ true := fun hmask => hne idx ((hwithin idx).mp hc).1 hmask rfl
      rw [hput idx hc, item_npWhere_part hc, if_neg hmask, raw_item h hc]
    · exact hother pos hpos fun idx hc heq => htarget ⟨idx, hc, heq⟩

/-- The view of the range after the write has the value. -/
theorem view_item (h : Addresses rnge array.shape) {idx : List ℕ}
    (hidx : Within (clippedShape rnge array.shape) idx) :
    ((array.put (unitPicks rnge array.shape) value).pick (unitPicks rnge array.shape)
      (unitPicks_fits h)).item idx = value.item idx := by
  obtain ⟨hshape, hdistinct, -⟩ := unitPicks_spec h
  have hpick : Within (pickShape (unitPicks rnge array.shape) array.shape) idx := by rwa [hshape]
  exact (@NdArray.item_pick _ _ (array.put _ value) _ _ _ hpick).trans
    (NdArray.item_put_pickIndex (unitPicks_fits h) hdistinct hpick)

/-- Where the range is not clipped, the swap without a mask is right if what it returns has the old
elements. -/
theorem unmasked_swaps_iff (h : Addresses rnge array.shape)
    (hclip : clippedShape rnge array.shape = unclippedShape rnge array.shape) :
    Swaps array rnge value none (some (unmaskedResult array rnge value h))
        (array.put (unitPicks rnge array.shape) value) ↔
      unclippedShape rnge array.shape = [] ∨
        ∀ idx, Within (unclippedShape rnge array.shape) idx →
          array.item (target rnge array.shape idx) = value.item idx := by
  obtain ⟨hput, hother⟩ := put_range h value
  have hin := not_outside h hclip none
  constructor
  · intro hswaps
    obtain ⟨old, hold, -, hitems, -⟩ := hswaps.inside hin
    obtain rfl := Option.some.inj hold
    by_cases hscalar : clippedShape rnge array.shape = []
    · exact .inl (hclip ▸ hscalar)
    · refine .inr fun idx hidx => ?_
      have hitem := hitems idx hidx
      rw [unmaskedResult, if_neg hscalar, view_item h (hclip ▸ hidx)] at hitem
      exact hitem.symm
  · intro hcond
    refine ⟨fun hout => absurd hout hin, fun _ => ⟨_, rfl, ?_, fun idx hidx => ?_, rfl,
      fun idx hidx _ => hput idx (hclip ▸ hidx), fun pos hpos hne => ?_⟩⟩
    · rw [← hclip, unmaskedResult]
      split
      · exact (unitPicks_spec h).1
      · exact (unitPicks_spec h).1
    · have hidx' : Within (clippedShape rnge array.shape) idx := hclip ▸ hidx
      refine Eq.trans ?_ (if_pos rfl).symm
      rw [unmaskedResult]
      split
      · exact raw_item h hidx'
      · next hscalar =>
          rw [view_item h hidx']
          exact ((hcond.resolve_left (hclip ▸ hscalar)) idx hidx).symm
    · exact hother pos hpos fun idx hidx => hne idx (hclip ▸ hidx) rfl

/-- `swap_buffer_content` does what it is for exactly where the cut of the first axis and the view
that is returned do no harm. -/
theorem swapBufferContent_swaps_iff {mask : Option (NdArray Bool)}
    (hvalue : value.shape = unclippedShape rnge array.shape)
    (hmask : ∀ m ∈ mask, m.shape = unclippedShape rnge array.shape) :
    (∃ result array', swapBufferContent array (rnge.map UnitIndex.toIndex) value mask =
        some (result, array') ∧ Swaps array rnge value mask result array') ↔
      SwapsRight array rnge value mask := by
  by_cases h : Addresses rnge array.shape
  swap
  · refine iff_of_false ?_ ?_
    · rintro ⟨result, array', hrun, -⟩
      rw [swapBufferContent_error h] at hrun
      cases hrun
    · cases mask with
      | none => exact fun hright => h hright.1
      | some mask => exact fun hright => h hright.1
  cases mask with
  | some mask =>
      rw [SwapsRight, and_iff_right h]
      by_cases hcut : FirstAxisCut array.shape rnge mask
      · rw [swapBufferContent_cut h (hmask mask rfl) hcut, iff_true_left hcut]
        constructor
        · rintro ⟨result, array', hrun, hswaps⟩
          cases hrun
          by_contra hin
          obtain ⟨old, hold, -⟩ := hswaps.inside hin
          cases hold
        · intro hout
          exact ⟨none, array, rfl, fun _ => ⟨rfl, rfl⟩, fun hin => absurd hout hin⟩
      · have hlost := (lost_iff (hmask mask rfl)).not.mpr hcut
        rw [swapBufferContent_some h, if_neg hlost, iff_false_left hcut]
        constructor
        · rintro ⟨result, array', hrun, hswaps⟩ hout
          cases hrun
          cases (hswaps.outside hout).1
        · intro hin
          exact ⟨_, _, rfl, masked_swaps h hvalue hin⟩
  | none =>
      rw [swapBufferContent_none h, SwapsRight, and_iff_right h, hvalue]
      by_cases hclip : clippedShape rnge array.shape = unclippedShape rnge array.shape
      · rw [if_pos hclip, and_iff_right (absurd hclip), imp_iff_right hclip,
          ← unmasked_swaps_iff h hclip]
        constructor
        · rintro ⟨result, array', hrun, hswaps⟩
          cases hrun
          exact hswaps
        · exact fun hswaps => ⟨_, _, rfl, hswaps⟩
      · rw [if_neg hclip, imp_iff_right hclip, and_iff_left fun heq => absurd heq hclip]
        constructor
        · rintro ⟨result, array', hrun, hswaps⟩
          cases hrun
          by_contra hin
          obtain ⟨old, hold, -⟩ := hswaps.inside hin
          cases hold
        · exact fun hout => ⟨none, array, rfl, fun _ => ⟨rfl, rfl⟩, fun hin => absurd hout hin⟩

end

theorem within_singleton {n : ℕ} {idx : List ℕ} : Within [n] idx ↔ ∃ k < n, idx = [k] := by
  constructor
  · intro h
    cases h with
    | @cons k _ _ _ hk h =>
        cases h
        exact ⟨k, hk, rfl⟩
  · rintro ⟨k, hk, rfl⟩
    exact .cons hk .nil

/-- `[10, 20, 30]` -/
def threeItems : NdArray ℕ := .ofFn [3] fun idx => 10 * (idx.headD 0 + 1)

/-- Only the first is selected. -/
def firstOnly : NdArray Bool := .ofFn [3] fun idx => idx == [0]

/-- The range `1:4` of a buffer of 3 is clipped to two elements, and the mask selects the first. -/
theorem swapBufferContent_swaps_clipped :
    ∃ result array', swapBufferContent threeItems ([.slice 1 3].map UnitIndex.toIndex) threeItems
        (some firstOnly) = some (result, array') ∧
      Swaps threeItems [.slice 1 3] threeItems (some firstOnly) result array' := by
  have hselected : ∀ idx, Within [3] idx → firstOnly.item idx = true → idx = [0] := by
    intro idx hidx hitem
    rw [firstOnly, NdArray.item_ofFn _ hidx] at hitem
    exact beq_iff_eq.mp hitem
  refine (swapBufferContent_swaps_iff rfl fun m hm => ?_).mpr ⟨trivial, iff_of_false ?_ ?_⟩
  · obtain rfl := Option.some.inj hm
    rfl
  · rintro ⟨idx, hidx, hitem, size, hsize, hcut⟩
    obtain rfl := hselected idx hidx hitem
    obtain rfl := List.mem_singleton.mp hsize
    exact absurd hcut (by decide)
  · rintro ⟨idx, hidx, hitem, hout⟩
    obtain rfl := hselected idx hidx hitem
    exact hout (by decide)

/-- Three rows of two elements; the number of columns cuts the third row off. -/
theorem swapBufferContent_rows_cut :
    ¬ ∃ result array', swapBufferContent (.ofFn [3, 2] fun _ => 0)
          ([.slice 0 3, .slice 0 2].map UnitIndex.toIndex) (.ofFn [3, 2] fun _ => 1)
          (some (.ofFn [3, 2] fun _ => true)) = some (result, array') ∧
        Swaps (.ofFn [3, 2] fun _ => 0) [.slice 0 3, .slice 0 2] (.ofFn [3, 2] fun _ => 1)
          (some (.ofFn [3, 2] fun _ => true)) result array' := by
  rintro ⟨result, array', hrun, hswaps⟩
  have hcut : FirstAxisCut [3, 2] [.slice 0 3, .slice 0 2] (.ofFn [3, 2] fun _ => true) :=
    ⟨[2, 0], by decide, NdArray.item_ofFn _ (by decide), 2, by decide, by decide⟩
  have haddresses : Addresses [.slice 0 3, .slice 0 2]
      (NdArray.ofFn [3, 2] fun _ => 0 : NdArray ℕ).shape := trivial
  obtain ⟨rfl, -⟩ := Prod.mk.inj (Option.some.inj
    ((swapBufferContent_cut haddresses rfl hcut).symm.trans hrun))
  obtain ⟨old, hold, -⟩ := hswaps.inside (not_outside haddresses rfl _)
  cases hold

end JaxDas.Interpret
