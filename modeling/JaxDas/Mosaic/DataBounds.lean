import JaxDas.Lib.MixedRadix
import JaxDas.Lib.Windows
import JaxDas.Mosaic.VectorLayout
import Mathlib.Data.Finset.Card
import Mathlib.Data.Finset.Prod
import Mathlib.Data.Finset.Range

/-!
# The data in the registers of a vector

`tileArrayShape` is the shape of the array of registers, `tileDataBounds` what one of them holds.
The bounds of a register are asked for by its index without implicit dimensions: with an implicit
minor dimension, the last entry of the index is taken for the second minor one.
-/

namespace JaxDas.Mosaic

/-! ## Implicit dimensions -/

namespace ImplicitDim

/-- `insertImplicit`, of a vector with at least `layoutRank` entries. -/
def insertImplicit (d : ImplicitDim) (vec : List ℕ) (value : ℕ) : List ℕ :=
  match d with
  | kNone => vec
  | kMinor => vec ++ [value]
  | kSecondMinor => vec.insertIdx (vec.length - 1) value
  | kMinorAndSecondMinor => vec ++ [value, value]

/-- `eraseImplicit`, of a vector with at least two entries. -/
def eraseImplicit (d : ImplicitDim) (vec : List ℕ) : List ℕ :=
  match d with
  | kNone => vec
  | kMinor => vec.dropLast
  | kSecondMinor => vec.eraseIdx (vec.length - 2)
  | kMinorAndSecondMinor => vec.dropLast.dropLast

/-- What is not implicit of the two minormost entries. -/
def explicit (d : ImplicitDim) (tiled : ℕ × ℕ) : List ℕ :=
  match d with
  | kNone => [tiled.1, tiled.2]
  | kMinor => [tiled.1]
  | kSecondMinor => [tiled.2]
  | kMinorAndSecondMinor => []

/-- The two minormost entries, with the implicit ones in their places. -/
def tiledDims (d : ImplicitDim) (tiled : ℕ × ℕ) (value : ℕ) : ℕ × ℕ :=
  match d with
  | kNone => tiled
  | kMinor => (tiled.1, value)
  | kSecondMinor => (value, tiled.2)
  | kMinorAndSecondMinor => (value, value)

theorem length_explicit (d : ImplicitDim) (tiled : ℕ × ℕ) :
    (d.explicit tiled).length = d.layoutRank := by
  cases d <;> rfl

theorem getImplicitTiledDims_append (d : ImplicitDim) (lead : List ℕ) (tiled : ℕ × ℕ)
    (value : ℕ) :
    d.getImplicitTiledDims (lead ++ d.explicit tiled) value = d.tiledDims tiled value := by
  cases d <;> simp [getImplicitTiledDims, explicit, tiledDims]

theorem explicit_tiledDims (d : ImplicitDim) (tiled : ℕ × ℕ) (value : ℕ) :
    d.explicit (d.tiledDims tiled value) = d.explicit tiled := by
  cases d <;> rfl

theorem tiledDims_idem (d : ImplicitDim) (tiled : ℕ × ℕ) (value : ℕ) :
    d.tiledDims (d.tiledDims tiled value) value = d.tiledDims tiled value := by
  cases d <;> rfl

theorem tiledDims_pos (d : ImplicitDim) {tiled : ℕ × ℕ} (h : ∀ n ∈ d.explicit tiled, 0 < n) :
    0 < (d.tiledDims tiled 1).1 ∧ 0 < (d.tiledDims tiled 1).2 := by
  cases d with
  | kNone => exact ⟨h _ List.mem_cons_self, h _ (List.mem_cons_of_mem _ List.mem_cons_self)⟩
  | kMinor => exact ⟨h _ List.mem_cons_self, Nat.one_pos⟩
  | kSecondMinor => exact ⟨Nat.one_pos, h _ List.mem_cons_self⟩
  | kMinorAndSecondMinor => exact ⟨Nat.one_pos, Nat.one_pos⟩

theorem insertImplicit_append (d : ImplicitDim) (lead : List ℕ) (tiled : ℕ × ℕ) (value : ℕ) :
    d.insertImplicit (lead ++ d.explicit tiled) value =
      lead ++ [(d.tiledDims tiled value).1, (d.tiledDims tiled value).2] := by
  cases d with
  | kNone => rfl
  | kMinor => simp [insertImplicit, explicit, tiledDims]
  | kSecondMinor =>
      have hlen : (lead ++ [tiled.2]).length - 1 = lead.length := by simp
      simp only [insertImplicit, explicit, tiledDims, hlen]
      induction lead with
      | nil => rfl
      | cons x lead ih => exact congrArg (List.cons x) (ih (by simp))
  | kMinorAndSecondMinor => simp [insertImplicit, explicit, tiledDims]

theorem eraseImplicit_append (d : ImplicitDim) (lead : List ℕ) (tiled : ℕ × ℕ) :
    d.eraseImplicit (lead ++ [tiled.1, tiled.2]) = lead ++ d.explicit tiled := by
  cases d with
  | kNone => rfl
  | kMinor => simp [eraseImplicit, explicit]
  | kSecondMinor =>
      have hlen : (lead ++ [tiled.1, tiled.2]).length - 2 = lead.length := by simp
      simp only [eraseImplicit, explicit, hlen]
      rw [List.eraseIdx_append_of_length_le le_rfl, Nat.sub_self]
      rfl
  | kMinorAndSecondMinor => simp [eraseImplicit, explicit]

/-- An index into an implicit dimension is zero. -/
theorem tiledDims_of_lt (d : ImplicitDim) {size : ℕ × ℕ} {i j : ℕ}
    (hsize : d.tiledDims size 1 = size) (hi : i < size.1) (hj : j < size.2) :
    d.tiledDims (i, j) 0 = (i, j) := by
  obtain ⟨a, b⟩ := size
  cases d with
  | kNone => rfl
  | kMinor =>
      obtain rfl : 1 = b := congrArg Prod.snd hsize
      exact Prod.ext rfl (Nat.lt_one_iff.mp hj).symm
  | kSecondMinor =>
      obtain rfl : 1 = a := congrArg Prod.fst hsize
      exact Prod.ext (Nat.lt_one_iff.mp hi).symm rfl
  | kMinorAndSecondMinor =>
      obtain ⟨rfl, rfl⟩ : 1 = a ∧ 1 = b := Prod.ext_iff.mp hsize
      exact Prod.ext (Nat.lt_one_iff.mp hi).symm (Nat.lt_one_iff.mp hj).symm

theorem explicit_inj (d : ImplicitDim) {idx idx' : ℕ × ℕ} (h : d.tiledDims idx 0 = idx)
    (h' : d.tiledDims idx' 0 = idx') (heq : d.explicit idx = d.explicit idx') : idx = idx' := by
  rw [← h, ← h']
  cases d with
  | kNone =>
      injection heq with hi heq
      injection heq with hj
      exact Prod.ext hi hj
  | kMinor => exact Prod.ext (List.head_eq_of_cons_eq heq) rfl
  | kSecondMinor => exact Prod.ext rfl (List.head_eq_of_cons_eq heq)
  | kMinorAndSecondMinor => rfl

/-- A vector that the layout applies to, cut before the tiled dimensions. -/
theorem exists_explicit (d : ImplicitDim) {vec : List ℕ} (h : d.layoutRank ≤ vec.length) :
    ∃ lead tiled, vec = lead ++ d.explicit tiled := by
  have hcut := List.take_append_drop (vec.length - d.layoutRank) vec
  have hlen : (vec.drop (vec.length - d.layoutRank)).length = d.layoutRank := by
    rw [List.length_drop]
    omega
  refine ⟨vec.take (vec.length - d.layoutRank), ?_⟩
  generalize vec.take (vec.length - d.layoutRank) = lead at hcut
  generalize vec.drop (vec.length - d.layoutRank) = rest at hcut hlen
  subst hcut
  cases d with
  | kNone =>
      obtain ⟨a, b, rfl⟩ := List.length_eq_two.mp hlen
      exact ⟨(a, b), rfl⟩
  | kMinor =>
      obtain ⟨a, rfl⟩ := List.length_eq_one_iff.mp hlen
      exact ⟨(a, 0), rfl⟩
  | kSecondMinor =>
      obtain ⟨b, rfl⟩ := List.length_eq_one_iff.mp hlen
      exact ⟨(0, b), rfl⟩
  | kMinorAndSecondMinor =>
      obtain rfl := List.eq_nil_of_length_eq_zero hlen
      exact ⟨(0, 0), rfl⟩

/-- The indices into a shape, cut before the tiled dimensions. -/
theorem within_explicit (d : ImplicitDim) {lead e : List ℕ} {size : ℕ × ℕ}
    (hsize : d.tiledDims size 1 = size) : Within (lead ++ d.explicit size) e ↔
      ∃ l idx, e = l ++ d.explicit idx ∧ Within lead l ∧ idx.1 < size.1 ∧ idx.2 < size.2 := by
  obtain ⟨a, b⟩ := size
  rw [within_append]
  constructor
  · rintro ⟨l, r, rfl, hl, hr⟩
    cases d with
    | kNone =>
        rcases hr with - | ⟨hi, - | ⟨hj, ⟨⟩⟩⟩
        exact ⟨l, (_, _), rfl, hl, hi, hj⟩
    | kMinor =>
        obtain rfl : 1 = b := congrArg Prod.snd hsize
        rcases hr with - | ⟨hi, ⟨⟩⟩
        exact ⟨l, (_, 0), rfl, hl, hi, Nat.one_pos⟩
    | kSecondMinor =>
        obtain rfl : 1 = a := congrArg Prod.fst hsize
        rcases hr with - | ⟨hj, ⟨⟩⟩
        exact ⟨l, (0, _), rfl, hl, Nat.one_pos, hj⟩
    | kMinorAndSecondMinor =>
        obtain ⟨rfl, rfl⟩ : 1 = a ∧ 1 = b := Prod.ext_iff.mp hsize
        rcases hr with ⟨⟩
        exact ⟨l, (0, 0), rfl, hl, Nat.one_pos, Nat.one_pos⟩
  · rintro ⟨l, idx, rfl, hl, hi, hj⟩
    refine ⟨l, d.explicit idx, rfl, hl, ?_⟩
    cases d with
    | kNone => exact .cons hi (.cons hj .nil)
    | kMinor => exact .cons hi .nil
    | kSecondMinor => exact .cons hj .nil
    | kMinorAndSecondMinor => exact .nil

end ImplicitDim

theorem modify_append_cons {α : Type} (f : α → α) (x : α) (rest : List α) :
    ∀ l : List α, (l ++ x :: rest).modify l.length f = l ++ f x :: rest
  | [] => rfl
  | y :: l => congrArg (List.cons y) (modify_append_cons f x rest l)

/-! ## The array of registers -/

namespace VectorLayout

variable (self : VectorLayout) (target_shape : ℕ × ℕ)

/-- The number of registers for a tiled dimension. -/
def numTiles (vreg_slice size : ℕ) : Option ℕ → ℕ
  | some o => divideCeil (o + size) vreg_slice
  | none => 1

/-- `tileArrayShape`; a failed check has no value. -/
def tileArrayShape (src_is_implicit res_is_implicit : Bool) (src_shape : List ℕ) :
    Option (List ℕ) := do
  let vreg_slice ← self.vregSlice target_shape
  if ¬ src_is_implicit ∧ src_shape.length < self.implicit_dim.layoutRank then none
  else
    let src_shape :=
      if src_is_implicit then src_shape else self.implicit_dim.insertImplicit src_shape 1
    let src_shape := src_shape.modify (src_shape.length - 2) fun second_minor =>
      numTiles vreg_slice.1 second_minor self.offsets.1
    let src_shape := src_shape.modify (src_shape.length - 1) fun minor =>
      numTiles vreg_slice.2 minor self.offsets.2
    if res_is_implicit then return src_shape
    else if src_shape.length < 2 then none
    else return self.implicit_dim.eraseImplicit src_shape

end VectorLayout

/-! ## Bounds -/

/-- What `tileDataBounds` ends with when there are no bounds. -/
inductive BoundsError where
  | check
  | emitted (message : String)
deriving DecidableEq, Repr

/-- A `CHECK` ends the program. -/
def checked {α : Type} : Option α → Except BoundsError α
  | none => .error .check
  | some a => .ok a

/-- A part of a register whose tiles have one row. -/
structure SingleRowVRegBounds (target_shape : ℕ × ℕ) where
  layout : VectorLayout
  start_offset : ℕ
  stop_offset : ℕ
  bounds : start_offset < stop_offset ∧
    stop_offset ≤ target_shape.1 * target_shape.2 * layout.packing
deriving DecidableEq

/-- The constructor, which checks the offsets. -/
def SingleRowVRegBounds.create (layout : VectorLayout) (start_offset stop_offset : ℕ)
    (target_shape : ℕ × ℕ) : Except BoundsError (SingleRowVRegBounds target_shape) :=
  if h : start_offset < stop_offset ∧
      stop_offset ≤ target_shape.1 * target_shape.2 * layout.packing then
    .ok ⟨layout, start_offset, stop_offset, h⟩
  else .error .check

/-- A rectangle in the slice of a register. -/
structure TiledRectangularVregBounds (target_shape : ℕ × ℕ) where
  layout : VectorLayout
  start_offsets : ℕ × ℕ
  end_offsets : ℕ × ℕ
  lanes : layout.tiling.2 = target_shape.2
  bounds : ∃ vs ∈ layout.vregSlice target_shape,
    (start_offsets.1 < end_offsets.1 ∧ end_offsets.1 ≤ vs.1) ∧
      start_offsets.2 < end_offsets.2 ∧ end_offsets.2 ≤ vs.2
deriving DecidableEq

def TiledRectangularVregBounds.create (layout : VectorLayout)
    (start_offsets end_offsets target_shape : ℕ × ℕ) :
    Except BoundsError (TiledRectangularVregBounds target_shape) :=
  if lanes : layout.tiling.2 = target_shape.2 then
    if h : ∃ vs ∈ layout.vregSlice target_shape,
        (start_offsets.1 < end_offsets.1 ∧ end_offsets.1 ≤ vs.1) ∧
          start_offsets.2 < end_offsets.2 ∧ end_offsets.2 ≤ vs.2 then
      .ok ⟨layout, start_offsets, end_offsets, lanes, h⟩
    else .error .check
  else .error .check

inductive VRegDataBounds (target_shape : ℕ × ℕ) where
  | singleRow (b : SingleRowVRegBounds target_shape)
  | tiledRectangular (b : TiledRectangularVregBounds target_shape)
deriving DecidableEq

namespace VRegDataBounds

variable {target_shape : ℕ × ℕ}

def starts : VRegDataBounds target_shape → ℕ × ℕ
  | singleRow b => (0, b.start_offset)
  | tiledRectangular b => b.start_offsets

def ends : VRegDataBounds target_shape → ℕ × ℕ
  | singleRow b => (1, b.stop_offset)
  | tiledRectangular b => b.end_offsets

/-- The slot of the slice of the register holds data. -/
def Holds (b : VRegDataBounds target_shape) (slot : ℕ × ℕ) : Prop :=
  (b.starts.1 ≤ slot.1 ∧ slot.1 < b.ends.1) ∧ b.starts.2 ≤ slot.2 ∧ slot.2 < b.ends.2

end VRegDataBounds

namespace VectorLayout

/-- `offset && idx == 0 ? *offset : 0` -/
def startIn (idx : ℕ) : Option ℕ → ℕ
  | some o => if idx = 0 then o else 0
  | none => 0

/-- `offset && idx == num - 1 ? positiveMod(*offset + size, vreg_slice) : vreg_slice` -/
def endIn (idx num size vreg_slice : ℕ) : Option ℕ → ℕ
  | some o => if idx + 1 = num then positiveMod (o + size) vreg_slice else vreg_slice
  | none => vreg_slice

theorem startIn_some (o idx : ℕ) : startIn idx (some o) = windowStart o idx := rfl

theorem endIn_some (o idx size vreg_slice : ℕ) :
    endIn idx (divideCeil (o + size) vreg_slice) size vreg_slice (some o) =
      windowEnd o size vreg_slice idx := rfl

def tileDataBounds (self : VectorLayout) (target_shape : ℕ × ℕ) (full_shape idxs : List ℕ)
    (allow_replicated : Bool × Bool) : Except BoundsError (VRegDataBounds target_shape) :=
  if (¬ allow_replicated.1 ∧ self.offsets.1 = none) ∨
      (¬ allow_replicated.2 ∧ self.offsets.2 = none) then
    .error (.emitted "Unexpected replicated offset")
  else do
    let vreg_slice ← checked (self.vregSlice target_shape)
    let tiles_implicit_shape ← checked (self.tileArrayShape target_shape false true full_shape)
    if idxs.length < self.implicit_dim.layoutRank then .error .check
    else
      let tiled_idxs := self.getImplicitTiledDims idxs 0
      let num : ℕ × ℕ := (tiles_implicit_shape.getD (tiles_implicit_shape.length - 2) 0,
        tiles_implicit_shape.getD (tiles_implicit_shape.length - 1) 0)
      let tiled_ishape := self.getImplicitTiledDims full_shape 1
      let starts := (startIn tiled_idxs.1 self.offsets.1, startIn tiled_idxs.2 self.offsets.2)
      let ends := (endIn tiled_idxs.1 num.1 tiled_ishape.1 vreg_slice.1 self.offsets.1,
        endIn tiled_idxs.2 num.2 tiled_ishape.2 vreg_slice.2 self.offsets.2)
      if self.tiling.1 = 1 ∧ self.tiling.2 % target_shape.2 = 0 then
        (SingleRowVRegBounds.create self starts.2 ends.2 target_shape).map .singleRow
      else if self.tiling.2 = target_shape.2 then
        (TiledRectangularVregBounds.create self starts ends target_shape).map .tiledRectangular
      else .error (.emitted "Not implemented: Unaligned tiling on minormost dimension")

/-! ## Valid layouts without replication -/

/-- A layout that is valid for the target and has no replicated offset. The minor size of its
tiles is the number of lanes, or its tiles have one row. -/
structure Placed (a : VectorLayout) (target_shape : ℕ × ℕ) (offset vs : ℕ × ℕ) : Prop where
  valid : a.isValid target_shape = true
  offsets : a.offsets = (some offset.1, some offset.2)
  slice : a.vregSlice target_shape = some vs
  lanes : a.tiling.2 = target_shape.2 ∨ a.tiling.1 = 1

namespace Placed

variable {a : VectorLayout} {target_shape offset vs : ℕ × ℕ}
  (h : a.Placed target_shape offset vs)

include h

theorem offset_lt : offset.1 < vs.1 ∧ offset.2 < vs.2 := by
  obtain ⟨vs', hvs, hfirst, hsecond, -⟩ := isValid_spec h.valid
  obtain rfl : vs' = vs := Option.some.inj (hvs.symm.trans h.slice)
  exact ⟨hfirst _ (by rw [h.offsets]; rfl), hsecond _ (by rw [h.offsets]; rfl)⟩

theorem slice_eq : vs.1 = a.tiling.1 ∧
    vs.1 * vs.2 = target_shape.1 * target_shape.2 * a.packing := by
  have hslice := h.slice
  unfold vregSlice tilesPerVreg at hslice
  dsimp only at hslice
  split at hslice
  · next hrem =>
      obtain rfl := Option.some.inj hslice
      refine ⟨rfl, ?_⟩
      have hdvd := Nat.dvd_of_mod_eq_zero hrem
      dsimp only
      calc a.tiling.1 * (a.packing * target_shape.1 * target_shape.2 /
              (a.tiling.1 * a.tiling.2) * a.tiling.2)
          = a.packing * target_shape.1 * target_shape.2 /
              (a.tiling.1 * a.tiling.2) * (a.tiling.1 * a.tiling.2) := by
            rw [Nat.mul_left_comm]
        _ = a.packing * target_shape.1 * target_shape.2 := Nat.div_mul_cancel hdvd
        _ = target_shape.1 * target_shape.2 * a.packing := by
            rw [Nat.mul_assoc, Nat.mul_comm]
  · cases hslice

/-- A tile of one row is as long as some rows of lanes. -/
theorem single_row (hrow : a.tiling.1 = 1) : a.tiling.2 % target_shape.2 = 0 := by
  obtain ⟨vs', -, -, -, hrem, -⟩ := isValid_spec h.valid
  rw [hrow, Nat.one_mul] at hrem
  exact Nat.mod_eq_zero_of_dvd
    ((Nat.dvd_mul_left _ _).trans (Nat.dvd_of_mod_eq_zero hrem))

theorem tileArrayShape_append (res_is_implicit : Bool) (lead : List ℕ) (tiled : ℕ × ℕ) :
    let size := a.implicit_dim.tiledDims tiled 1
    let num := (divideCeil (offset.1 + size.1) vs.1, divideCeil (offset.2 + size.2) vs.2)
    a.tileArrayShape target_shape false res_is_implicit
        (lead ++ a.implicit_dim.explicit tiled) =
      some (if res_is_implicit then lead ++ [num.1, num.2]
        else lead ++ a.implicit_dim.explicit num) := by
  intro size num
  have hmodify : ∀ (f g : ℕ → ℕ) (x y : ℕ),
      ((lead ++ [x, y]).modify ((lead ++ [x, y]).length - 2) f).modify
          (((lead ++ [x, y]).modify ((lead ++ [x, y]).length - 2) f).length - 1) g =
        lead ++ [f x, g y] := by
    intro f g x y
    have hlast := modify_append_cons g y [] (lead ++ [f x])
    simp only [List.append_assoc, List.length_append, List.length_singleton,
      List.singleton_append] at hlast
    simp [modify_append_cons, hlast]
  have hrank : ¬ (lead ++ a.implicit_dim.explicit tiled).length < a.implicit_dim.layoutRank := by
    rw [List.length_append, ImplicitDim.length_explicit]
    omega
  have hlong : ∀ x y : ℕ, ¬ (lead ++ [x, y]).length < 2 := by
    intro x y
    rw [List.length_append]
    exact Nat.not_lt.mpr (Nat.le_add_left 2 _)
  unfold tileArrayShape
  rw [h.slice, a.implicit_dim.insertImplicit_append, h.offsets]
  simp only [Option.bind_eq_bind, Option.bind_some, hrank, and_false, if_false, hmodify,
    Bool.false_eq_true]
  cases res_is_implicit with
  | true => rfl
  | false =>
      simp only [Bool.false_eq_true, if_false]
      rw [if_neg (hlong _ _), ← a.implicit_dim.eraseImplicit_append]
      rfl

/-- The bounds of a register are those of a window in each of the two dimensions. -/
theorem tileDataBounds_spec (lead l : List ℕ) {tiled idx size : ℕ × ℕ}
    (hsize : a.implicit_dim.tiledDims tiled 1 = size) (hpos : 0 < size.1 ∧ 0 < size.2)
    (hidx : a.implicit_dim.tiledDims idx 0 = idx)
    (hlt : idx.1 < divideCeil (offset.1 + size.1) vs.1 ∧
      idx.2 < divideCeil (offset.2 + size.2) vs.2) :
    ∃ b, a.tileDataBounds target_shape (lead ++ a.implicit_dim.explicit tiled)
        (l ++ a.implicit_dim.explicit idx) (false, false) = .ok b ∧
      b.starts = (windowStart offset.1 idx.1, windowStart offset.2 idx.2) ∧
      b.ends = (windowEnd offset.1 size.1 vs.1 idx.1, windowEnd offset.2 size.2 vs.2 idx.2) := by
  obtain ⟨hoffset, hoffset'⟩ := h.offset_lt
  have hrows := window_bounds hoffset hpos.1 hlt.1
  have hcols := window_bounds hoffset' hpos.2 hlt.2
  have hrank : ¬ (l ++ a.implicit_dim.explicit idx).length < a.implicit_dim.layoutRank := by
    rw [List.length_append, ImplicitDim.length_explicit]
    omega
  have hreplicated : ¬ ((¬ (false : Bool) = true ∧ a.offsets.1 = none) ∨
      (¬ (false : Bool) = true ∧ a.offsets.2 = none)) := by
    rw [h.offsets]
    simp
  have hdims : ∀ num : ℕ × ℕ, (lead ++ [num.1, num.2]).getD
        ((lead ++ [num.1, num.2]).length - 2) 0 = num.1 ∧
      (lead ++ [num.1, num.2]).getD ((lead ++ [num.1, num.2]).length - 1) 0 = num.2 := fun num =>
    Prod.ext_iff.mp (ImplicitDim.getImplicitTiledDims_append .kNone lead num 0)
  have htiles := h.tileArrayShape_append true lead tiled
  dsimp only at htiles
  rw [hsize, if_pos rfl] at htiles
  have hidxs : a.getImplicitTiledDims (l ++ a.implicit_dim.explicit idx) 0 = idx :=
    (ImplicitDim.getImplicitTiledDims_append _ l idx 0).trans hidx
  have hshape : a.getImplicitTiledDims (lead ++ a.implicit_dim.explicit tiled) 1 = size :=
    (ImplicitDim.getImplicitTiledDims_append _ lead tiled 1).trans hsize
  obtain ⟨hrow, hentries⟩ := h.slice_eq
  unfold tileDataBounds
  rw [if_neg hreplicated, h.slice, htiles]
  simp only [checked, bind, Except.bind]
  rw [if_neg hrank, (hdims (_, _)).1, (hdims (_, _)).2, hidxs, hshape, h.offsets]
  simp only [startIn_some, endIn_some]
  by_cases hsingle : a.tiling.1 = 1
  · -- the slice has one row, which the first window fills
    rw [hsingle] at hrow
    rw [hrow, Nat.one_mul] at hentries
    rw [if_pos ⟨hsingle, h.single_row hsingle⟩]
    have hbounds : windowStart offset.2 idx.2 < windowEnd offset.2 size.2 vs.2 idx.2 ∧
        windowEnd offset.2 size.2 vs.2 idx.2 ≤ target_shape.1 * target_shape.2 * a.packing :=
      ⟨hcols.1, hcols.2.trans_eq hentries⟩
    refine ⟨.singleRow ⟨a, windowStart offset.2 idx.2, windowEnd offset.2 size.2 vs.2 idx.2,
      hbounds⟩, ?_, ?_, ?_⟩
    · rw [SingleRowVRegBounds.create, dif_pos hbounds]
      rfl
    · exact Prod.ext (by simp only [VRegDataBounds.starts]; omega) rfl
    · exact Prod.ext (by simp only [VRegDataBounds.ends]; omega) rfl
  · have hlanes := h.lanes.resolve_right hsingle
    rw [if_neg fun hand => hsingle hand.1, if_pos hlanes]
    refine ⟨.tiledRectangular ⟨a, _, _, hlanes, vs, h.slice, hrows, hcols⟩, ?_, rfl, rfl⟩
    rw [TiledRectangularVregBounds.create, dif_pos hlanes, dif_pos ⟨vs, h.slice, hrows, hcols⟩]
    rfl

end Placed

/-! ## The partition -/

/-- Where an element is: its register, and its slot in the slice of the register. The first element
of a row or column is at the offset, and the slices continue each other. -/
def place (a : VectorLayout) (offset vs : ℕ × ℕ) (e : List ℕ) : List ℕ × (ℕ × ℕ) :=
  let lead := e.take (e.length - a.implicit_dim.layoutRank)
  let tiled := a.getImplicitTiledDims e 0
  (lead ++ a.implicit_dim.explicit ((offset.1 + tiled.1) / vs.1, (offset.2 + tiled.2) / vs.2),
    ((offset.1 + tiled.1) % vs.1, (offset.2 + tiled.2) % vs.2))

/-- The slots of all registers that are inside of the bounds. -/
def dataSlots (a : VectorLayout) (target_shape : ℕ × ℕ) (full_shape tiles : List ℕ) :
    Set (List ℕ × (ℕ × ℕ)) :=
  {q | Within tiles q.1 ∧
    ∃ b, a.tileDataBounds target_shape full_shape q.1 (false, false) = .ok b ∧ b.Holds q.2}

/-- Every register has bounds, which are not empty and in its slice, and the bounds have one slot
for every element and no other slot. -/
structure Partition (a : VectorLayout) (target_shape : ℕ × ℕ) (full_shape tiles : List ℕ)
    (offset vs : ℕ × ℕ) : Prop where
  bounds : ∀ idxs, Within tiles idxs →
    ∃ b, a.tileDataBounds target_shape full_shape idxs (false, false) = .ok b ∧
      (b.starts.1 < b.ends.1 ∧ b.ends.1 ≤ vs.1) ∧ b.starts.2 < b.ends.2 ∧ b.ends.2 ≤ vs.2
  elements : Set.BijOn (a.place offset vs) {e | Within full_shape e}
    (a.dataSlots target_shape full_shape tiles)

theorem place_append {a : VectorLayout} {offset vs : ℕ × ℕ} {l : List ℕ} {idx : ℕ × ℕ}
    (hidx : a.implicit_dim.tiledDims idx 0 = idx) :
    a.place offset vs (l ++ a.implicit_dim.explicit idx) =
      (l ++ a.implicit_dim.explicit ((offset.1 + idx.1) / vs.1, (offset.2 + idx.2) / vs.2),
        ((offset.1 + idx.1) % vs.1, (offset.2 + idx.2) % vs.2)) := by
  have htiled : a.getImplicitTiledDims (l ++ a.implicit_dim.explicit idx) 0 = idx :=
    (ImplicitDim.getImplicitTiledDims_append _ l idx 0).trans hidx
  have htake : (l ++ a.implicit_dim.explicit idx).take
      ((l ++ a.implicit_dim.explicit idx).length - a.implicit_dim.layoutRank) = l := by
    rw [List.length_append, ImplicitDim.length_explicit, Nat.add_sub_cancel, List.take_left]
  rw [place, htiled, htake]

section

variable {a : VectorLayout} {target_shape offset vs size : ℕ × ℕ} {lead : List ℕ}
  (h : a.Placed target_shape offset vs) (hpos : 0 < size.1 ∧ 0 < size.2)
  (hsize : a.implicit_dim.tiledDims size 1 = size)

include h hpos hsize

/-- An implicit dimension is in one register. -/
theorem tiledDims_num :
    a.implicit_dim.tiledDims (divideCeil (offset.1 + size.1) vs.1,
        divideCeil (offset.2 + size.2) vs.2) 1 =
      (divideCeil (offset.1 + size.1) vs.1, divideCeil (offset.2 + size.2) vs.2) := by
  obtain ⟨hoffset, hoffset'⟩ := h.offset_lt
  cases hd : a.implicit_dim with
  | kNone => rfl
  | kMinor =>
      have hone : 1 = size.2 := by rw [hd] at hsize; exact congrArg Prod.snd hsize
      rw [divideCeil_of_le hpos.2 (by omega : offset.2 + size.2 ≤ vs.2)]
      rfl
  | kSecondMinor =>
      have hone : 1 = size.1 := by rw [hd] at hsize; exact congrArg Prod.fst hsize
      rw [divideCeil_of_le hpos.1 (by omega : offset.1 + size.1 ≤ vs.1)]
      rfl
  | kMinorAndSecondMinor =>
      obtain ⟨hone, hone'⟩ : 1 = size.1 ∧ 1 = size.2 := by
        rw [hd] at hsize
        exact Prod.ext_iff.mp hsize
      rw [divideCeil_of_le hpos.1 (by omega : offset.1 + size.1 ≤ vs.1),
        divideCeil_of_le hpos.2 (by omega : offset.2 + size.2 ≤ vs.2)]
      rfl

theorem mem_dataSlots {l : List ℕ} {k k' p p' : ℕ}
    (hrow : k < divideCeil (offset.1 + size.1) vs.1)
    (hcol : k' < divideCeil (offset.2 + size.2) vs.2) :
    (l ++ a.implicit_dim.explicit (k, k'), (p, p')) ∈ a.dataSlots target_shape
        (lead ++ a.implicit_dim.explicit size)
        (lead ++ a.implicit_dim.explicit (divideCeil (offset.1 + size.1) vs.1,
          divideCeil (offset.2 + size.2) vs.2)) ↔
      Within lead l ∧ (windowStart offset.1 k ≤ p ∧ p < windowEnd offset.1 size.1 vs.1 k) ∧
        windowStart offset.2 k' ≤ p' ∧ p' < windowEnd offset.2 size.2 vs.2 k' := by
  have hnum := tiledDims_num h hpos hsize
  obtain ⟨b, hb, hstarts, hends⟩ := h.tileDataBounds_spec lead l hsize hpos
    (ImplicitDim.tiledDims_of_lt _ hnum hrow hcol) ⟨hrow, hcol⟩
  have hholds : b.Holds (p, p') ↔
      (windowStart offset.1 k ≤ p ∧ p < windowEnd offset.1 size.1 vs.1 k) ∧
        windowStart offset.2 k' ≤ p' ∧ p' < windowEnd offset.2 size.2 vs.2 k' := by
    rw [VRegDataBounds.Holds, hstarts, hends]
  constructor
  · rintro ⟨hwithin, b', hb', hslot⟩
    obtain rfl : b = b' := Except.ok.inj (hb.symm.trans hb')
    obtain ⟨l', r, heq, hl', hr⟩ := within_append.mp hwithin
    have hlen : r.length = a.implicit_dim.layoutRank :=
      (List.Forall₂.length_eq hr).trans (ImplicitDim.length_explicit _ _)
    obtain ⟨rfl, -⟩ := List.append_inj' heq (by rw [hlen, ImplicitDim.length_explicit])
    exact ⟨hl', hholds.mp hslot⟩
  · rintro ⟨hl, hslot⟩
    exact ⟨(ImplicitDim.within_explicit _ hnum).mpr ⟨l, (k, k'), rfl, hl, hrow, hcol⟩, b, hb,
      hholds.mpr hslot⟩

theorem partition_append :
    Partition a target_shape (lead ++ a.implicit_dim.explicit size)
      (lead ++ a.implicit_dim.explicit (divideCeil (offset.1 + size.1) vs.1,
        divideCeil (offset.2 + size.2) vs.2)) offset vs := by
  obtain ⟨hoffset, hoffset'⟩ := h.offset_lt
  have hnum := tiledDims_num h hpos hsize
  have hrows := windows_bijOn hoffset hpos.1
  have hcols := windows_bijOn hoffset' hpos.2
  refine ⟨fun idxs hidxs => ?_, fun e he => ?_, fun e he e' he' heq => ?_, fun q hq => ?_⟩
  · obtain ⟨l, idx, rfl, -, hi, hj⟩ := (ImplicitDim.within_explicit _ hnum).mp hidxs
    obtain ⟨b, hb, hstarts, hends⟩ := h.tileDataBounds_spec lead l hsize hpos
      (ImplicitDim.tiledDims_of_lt _ hnum hi hj) ⟨hi, hj⟩
    refine ⟨b, hb, ?_⟩
    rw [hstarts, hends]
    exact ⟨window_bounds hoffset hpos.1 hi, window_bounds hoffset' hpos.2 hj⟩
  · obtain ⟨l, idx, rfl, hl, hi, hj⟩ := (ImplicitDim.within_explicit _ hsize).mp he
    obtain ⟨hrow, hslot⟩ := hrows.mapsTo hi
    obtain ⟨hcol, hslot'⟩ := hcols.mapsTo hj
    rw [place_append (ImplicitDim.tiledDims_of_lt _ hsize hi hj)]
    exact (mem_dataSlots h hpos hsize hrow hcol).mpr ⟨hl, hslot, hslot'⟩
  · obtain ⟨l, idx, rfl, hl, hi, hj⟩ := (ImplicitDim.within_explicit _ hsize).mp he
    obtain ⟨l', idx', rfl, hl', hi', hj'⟩ := (ImplicitDim.within_explicit _ hsize).mp he'
    rw [place_append (ImplicitDim.tiledDims_of_lt _ hsize hi hj),
      place_append (ImplicitDim.tiledDims_of_lt _ hsize hi' hj')] at heq
    have hlen : l.length = l'.length :=
      (List.Forall₂.length_eq hl).trans (List.Forall₂.length_eq hl').symm
    obtain ⟨rfl, hexplicit⟩ := List.append_inj (congrArg Prod.fst heq) hlen
    have hregister := ImplicitDim.explicit_inj _
      (ImplicitDim.tiledDims_of_lt _ hnum (hrows.mapsTo hi).1 (hcols.mapsTo hj).1)
      (ImplicitDim.tiledDims_of_lt _ hnum (hrows.mapsTo hi').1 (hcols.mapsTo hj').1) hexplicit
    have hslot := congrArg Prod.snd heq
    obtain ⟨hdiv, hdiv'⟩ := Prod.ext_iff.mp hregister
    obtain ⟨hmod, hmod'⟩ := Prod.ext_iff.mp hslot
    obtain rfl : idx = idx' := Prod.ext
      (hrows.injOn hi hi' (Prod.ext hdiv hmod)) (hcols.injOn hj hj' (Prod.ext hdiv' hmod'))
    rfl
  · obtain ⟨register, slot⟩ := q
    obtain ⟨l, k, rfl, -, hrow, hcol⟩ := (ImplicitDim.within_explicit _ hnum).mp hq.1
    obtain ⟨hl, hslot, hslot'⟩ := (mem_dataSlots h hpos hsize hrow hcol).mp hq
    obtain ⟨i, hi, hplace⟩ := hrows.surjOn (show (k.1, slot.1) ∈ _ from ⟨hrow, hslot⟩)
    obtain ⟨j, hj, hplace'⟩ := hcols.surjOn (show (k.2, slot.2) ∈ _ from ⟨hcol, hslot'⟩)
    refine ⟨l ++ a.implicit_dim.explicit (i, j),
      (ImplicitDim.within_explicit _ hsize).mpr ⟨l, (i, j), rfl, hl, hi, hj⟩, ?_⟩
    rw [place_append (ImplicitDim.tiledDims_of_lt _ hsize hi hj)]
    obtain ⟨hdiv, hmod⟩ := Prod.ext_iff.mp hplace
    obtain ⟨hdiv', hmod'⟩ := Prod.ext_iff.mp hplace'
    dsimp only at hdiv hmod hdiv' hmod' ⊢
    rw [hdiv, hmod, hdiv', hmod']

end

/-- The bounds of the registers partition the elements of the vector. -/
theorem tileDataBounds_partition {a : VectorLayout} {target_shape : ℕ × ℕ} {full_shape : List ℕ}
    (hvalid : a.isValid target_shape = true)
    (hoffsets : a.offsets.1.isSome = true ∧ a.offsets.2.isSome = true)
    (hlanes : a.tiling.2 = target_shape.2 ∨ a.tiling.1 = 1)
    (hrank : a.implicit_dim.layoutRank ≤ full_shape.length) (hpos : ∀ d ∈ full_shape, 0 < d) :
    ∃ offset vs tiles, a.offsets = (some offset.1, some offset.2) ∧
      a.vregSlice target_shape = some vs ∧
      a.tileArrayShape target_shape false false full_shape = some tiles ∧
      Partition a target_shape full_shape tiles offset vs := by
  obtain ⟨o, ho⟩ := Option.isSome_iff_exists.mp hoffsets.1
  obtain ⟨o', ho'⟩ := Option.isSome_iff_exists.mp hoffsets.2
  obtain ⟨vs, hvs, -⟩ := isValid_spec hvalid
  have hplaced : a.Placed target_shape (o, o') vs :=
    ⟨hvalid, Prod.ext ho ho', hvs, hlanes⟩
  obtain ⟨lead, tiled, rfl⟩ := a.implicit_dim.exists_explicit hrank
  have hsize := a.implicit_dim.tiledDims_idem tiled 1
  have hdims : 0 < (a.implicit_dim.tiledDims tiled 1).1 ∧
      0 < (a.implicit_dim.tiledDims tiled 1).2 :=
    a.implicit_dim.tiledDims_pos fun d hd => hpos d (List.mem_append_right _ hd)
  have htiles := hplaced.tileArrayShape_append false lead tiled
  rw [← a.implicit_dim.explicit_tiledDims tiled 1] at htiles ⊢
  exact ⟨(o, o'), vs, _, Prod.ext ho ho', hvs, htiles, partition_append hplaced hdims hsize⟩

/-- Rows of 4000 elements in registers of 8 by 128, with an implicit second minor dimension, in tiles
of one row. -/
theorem tileDataBounds_partition_row :
    let a : VectorLayout := ⟨16, (some 0, some 100), (1, 256), .kSecondMinor, by decide,
      by decide, by decide⟩
    ∃ offset vs tiles, a.offsets = (some offset.1, some offset.2) ∧
      a.vregSlice (8, 128) = some vs ∧
      a.tileArrayShape (8, 128) false false [3, 4000] = some tiles ∧
      Partition a (8, 128) [3, 4000] tiles offset vs :=
  tileDataBounds_partition (by decide) (by decide) (by decide) (by decide) (by decide)

/-- A vector of 9 elements in rows of one element. The index of its second register in the implicit
shape is `[1, 0]`, but the bounds are those of the first one: 16 slots are inside of bounds. -/
theorem implicit_index_no_partition :
    let a : VectorLayout := ⟨32, (some 0, some 0), (8, 128), .kMinor, by decide, by decide,
      by decide⟩
    a.isValid (8, 128) = true ∧ a.tileArrayShape (8, 128) false true [9] = some [2, 1] ∧
      ¬ ∃ f, Set.BijOn f {e | Within [9] e} (a.dataSlots (8, 128) [9] [2, 1]) := by
  intro a
  refine ⟨by decide, by decide, ?_⟩
  rintro ⟨f, hf⟩
  let b : VRegDataBounds (8, 128) := .tiledRectangular ⟨a, (0, 0), (8, 1), rfl,
    (8, 128), by decide, by decide, by decide⟩
  have hbounds : ∀ k < 2, a.tileDataBounds (8, 128) [9] [k, 0] (false, false) = .ok b := by
    decide
  have hslots : ∀ k < 2, ∀ r < 8, ([k, 0], (r, 0)) ∈ a.dataSlots (8, 128) [9] [2, 1] := by
    intro k hk r hr
    exact ⟨.cons hk (.cons Nat.one_pos .nil), b, hbounds k hk, ⟨Nat.zero_le r, hr⟩,
      Nat.le_refl 0, Nat.one_pos⟩
  -- ten of the slots, and the nine elements
  let slots := (Finset.range 2 ×ˢ Finset.range 5).image fun q => ([q.1, 0], (q.2, 0))
  let elements := (Finset.range 9).image fun i => [i]
  have hsub : slots ⊆ elements.image f := by
    intro q hq
    obtain ⟨⟨k, r⟩, hkr, rfl⟩ := Finset.mem_image.mp hq
    obtain ⟨hk, hr⟩ := Finset.mem_product.mp hkr
    have hr' : r < 8 := (Finset.mem_range.mp hr).trans (by decide)
    obtain ⟨e, he, heq⟩ := hf.surjOn (hslots k (Finset.mem_range.mp hk) r hr')
    rcases he with - | ⟨hi, ⟨⟩⟩
    exact Finset.mem_image.mpr
      ⟨_, Finset.mem_image.mpr ⟨_, Finset.mem_range.mpr hi, rfl⟩, heq⟩
  have hcard := (Finset.card_le_card hsub).trans Finset.card_image_le
  exact absurd hcard (by decide)

end VectorLayout

end JaxDas.Mosaic
