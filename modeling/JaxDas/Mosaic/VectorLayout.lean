import Mathlib.Data.Nat.Notation
import Mathlib.Tactic.Common

/-!
# Layouts of vectors in TPU registers

`VectorLayout`: where the elements of the two minormost dimensions of a vector are in the registers.
A register has `target_shape` entries of 32 bits. A failed `CHECK` has no value here.
-/

namespace JaxDas.Mosaic

/-- The dimensions of size 1 that a layout puts among the two minormost ones. -/
inductive ImplicitDim where
  | kNone
  | kMinor
  | kSecondMinor
  | kMinorAndSecondMinor
deriving DecidableEq, Repr

namespace ImplicitDim

/-- The number of dimensions that are tiled and not implicit. -/
def layoutRank : ImplicitDim → ℕ
  | kNone => 2
  | kMinor => 1
  | kSecondMinor => 1
  | kMinorAndSecondMinor => 0

theorem layoutRank_le (d : ImplicitDim) : d.layoutRank ≤ 2 := by
  cases d <;> decide

/-- `getImplicitTiledDims`, of an array with at least `layoutRank` entries. -/
def getImplicitTiledDims (d : ImplicitDim) (arr : List ℕ) (implicit_value : ℕ) : ℕ × ℕ :=
  match d with
  | kNone => (arr.getD (arr.length - 2) 0, arr.getD (arr.length - 1) 0)
  | kMinor => (arr.getD (arr.length - 1) 0, implicit_value)
  | kSecondMinor => (implicit_value, arr.getD (arr.length - 1) 0)
  | kMinorAndSecondMinor => (implicit_value, implicit_value)

end ImplicitDim

/-- A layout, with what the constructor checks. An offset that is `none` is replicated. -/
structure VectorLayout where
  bitwidth : ℕ
  offsets : Option ℕ × Option ℕ
  tiling : ℕ × ℕ
  implicit_dim : ImplicitDim
  bitwidth_mem : bitwidth ∈ [1, 2, 4, 8, 16, 32]
  tiling_pos : 0 < tiling.1 ∧ 0 < tiling.2
  offset_lt : offsets.1.getD 0 < tiling.1
deriving DecidableEq, Repr

namespace VectorLayout

variable (self other : VectorLayout) (target_shape : ℕ × ℕ)

def packing : ℕ := 32 / self.bitwidth

/-- `tilesPerVreg`, where the tiles fill the register. -/
def tilesPerVreg : Option ℕ :=
  let tile_elems := self.tiling.1 * self.tiling.2
  let vreg_capacity := self.packing * target_shape.1 * target_shape.2
  if vreg_capacity % tile_elems = 0 then some (vreg_capacity / tile_elems) else none

/-- The size of the window that is in one register. -/
def vregSlice : Option (ℕ × ℕ) := do
  let tiles_per_vreg ← self.tilesPerVreg target_shape
  return (self.tiling.1, tiles_per_vreg * self.tiling.2)

/-- `isValid` -/
def isValid : Bool :=
  match self.vregSlice target_shape with
  | none => false
  | some vs =>
      if (∃ o ∈ self.offsets.1, vs.1 ≤ o) ∨ ∃ o ∈ self.offsets.2, vs.2 ≤ o then false
      else
        let elems := self.tiling.1 * self.tiling.2
        let sublane := self.packing * target_shape.2
        elems % sublane = 0 ∧ target_shape.1 % (elems / sublane) = 0

variable {self target_shape} in
theorem isValid_spec (h : self.isValid target_shape = true) :
    ∃ vs, self.vregSlice target_shape = some vs ∧ (∀ o ∈ self.offsets.1, o < vs.1) ∧
      (∀ o ∈ self.offsets.2, o < vs.2) ∧
      self.tiling.1 * self.tiling.2 % (self.packing * target_shape.2) = 0 ∧
      target_shape.1 % (self.tiling.1 * self.tiling.2 / (self.packing * target_shape.2)) = 0 := by
  unfold isValid at h
  split at h
  · cases h
  · next vs hvs =>
      split at h
      · cases h
      · next hoffsets =>
          obtain ⟨hrem, hdiv⟩ := of_decide_eq_true h
          refine ⟨vs, hvs, fun o ho => ?_, fun o ho => ?_, hrem, hdiv⟩
          · by_contra hle
            exact hoffsets (.inl ⟨o, ho, Nat.le_of_not_lt hle⟩)
          · by_contra hle
            exact hoffsets (.inr ⟨o, ho, Nat.le_of_not_lt hle⟩)

def getImplicitTiledDims (arr : List ℕ) (implicit_value : ℕ) : ℕ × ℕ :=
  self.implicit_dim.getImplicitTiledDims arr implicit_value

/-- `s.has_value() && s != o` -/
def offsetClashes (s o : Option ℕ) : Bool := s.isSome ∧ s ≠ o

/-- An implicit second minor dimension can be squeezed in or out. -/
def squeezes : Bool :=
  self.tiling.1 = 1 ∧ other.tiling.1 = 1 ∧
    ((self.implicit_dim = .kSecondMinor ∧ other.implicit_dim = .kNone) ∨
      (self.implicit_dim = .kNone ∧ other.implicit_dim = .kSecondMinor))

/-- Both tilings have one tile. -/
def singleTile (shape : List ℕ) : Bool :=
  let ishape_tiled_dims := self.getImplicitTiledDims shape 1
  self.tiling.2 = other.tiling.2 ∧ self.tiling.2 = target_shape.2 ∧
    self.offsets.2.getD 0 + ishape_tiled_dims.2 ≤ target_shape.2 ∧
    self.offsets.1.getD 0 + ishape_tiled_dims.1 ≤ min self.tiling.1 other.tiling.1

/-- `generalizes`; without a shape, for all shapes. -/
def generalizes (shape : Option (List ℕ)) : Bool :=
  if self.bitwidth ≠ other.bitwidth then false
  else if offsetClashes self.offsets.1 other.offsets.1 ∨
      offsetClashes self.offsets.2 other.offsets.2 then false
  else if self.implicit_dim ≠ other.implicit_dim ∧ ¬ squeezes self other ∧
      ¬ ∃ s ∈ shape, self.getImplicitTiledDims s 1 = other.getImplicitTiledDims s 1 then false
  else if self.tiling ≠ other.tiling ∧
      ¬ ∃ s ∈ shape, singleTile self other target_shape s then false
  else true

def equivalentTo (shape : Option (List ℕ)) : Bool :=
  generalizes self other target_shape shape && generalizes other self target_shape shape

end VectorLayout

/-- A layout that is valid for the target and applies to the shape. -/
structure VectorLayout.Applies (a : VectorLayout) (target_shape : ℕ × ℕ)
    (shape : Option (List ℕ)) : Prop where
  valid : a.isValid target_shape = true
  rank : ∀ s ∈ shape, a.implicit_dim.layoutRank ≤ s.length

end JaxDas.Mosaic
