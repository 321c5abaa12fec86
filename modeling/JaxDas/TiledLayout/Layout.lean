import JaxDas.TiledLayout.Bijection
import JaxDas.TiledLayout.Canonical

/-!
# Register layouts

A layout tiles an array and gives some dimensions of the tiled array to warps, some to
lanes and one to the elements of a register; dimensions are counted from the end. The
rest of the tiled array are the registers of a thread.

`Create` checks a layout, and `Canonicalize` makes its tiling canonical and renumbers the
dimensions. The constructor that `Canonicalize` calls checks nothing, which is why
`TiledLayout` is a plain record here.
-/

namespace JaxDas

/-- `TiledLayout::Dim`: a dimension, or a number of copies (`Replicated`). -/
inductive TiledLayout.Dim where
  | dim (idx : ℤ)
  | replicated (times : ℤ)
  deriving DecidableEq, Repr

/-- `TiledLayout`. -/
structure TiledLayout where
  tiles : List TiledLayout.Tile
  warpDims : List TiledLayout.Dim
  laneDims : List TiledLayout.Dim
  vectorDim : ℤ
  deriving DecidableEq, Repr

namespace TiledLayout

def WARPS_IN_WARPGROUP : ℤ := 4

def WARP_SIZE : ℤ := 32

/--
`xs[d + xs.size()]`. No layout that `Create` accepts has a dimension that is out of
range; where there is none, this is 0.
-/
def fromEnd (xs : List ℤ) (d : ℤ) : ℤ := xs.getD (d + xs.length).toNat 0

/-- `DimSize`. -/
def dimSize (tiledShape : List ℤ) : Dim → ℤ
  | .replicated times => times
  | .dim idx => fromEnd tiledShape idx

/-- `PartitionedDims`. -/
def partitionedDims (dims : List Dim) : List ℤ :=
  dims.filterMap fun
    | .dim idx => some idx
    | .replicated _ => none

/-- `TiledTilingShape`: the base tile, tiled, without its own dimensions. -/
def tiledTilingShape : List Tile → Except String (List ℤ)
  | [] => .error "Tiling must have at least one tile"
  | minShape :: tiles => do
      let minTiledShape ← tileShape (minShape :: tiles) minShape
      return minTiledShape.drop minShape.length

/-! ## Canonicalize -/

/--
The loop that finds the dimensions which are gone, from the last one on. Beside
`rev_removed_dims` it returns what is left of the canonical shape, of which `offset + 1`
is the length.
-/
def revRemovedDims : List ℤ → List ℤ → List Bool × List ℤ
  | [], canonical => ([], canonical)
  | _ :: ds, [] =>
      let (removed, left) := revRemovedDims ds []
      (true :: removed, left)
  | d :: ds, c :: cs =>
      if d = c then
        let (removed, left) := revRemovedDims ds cs
        (false :: removed, left)
      else
        let (removed, left) := revRemovedDims ds (c :: cs)
        (true :: removed, left)

/-- The running sums of `rev_removed_dims`. -/
def runningSums : ℤ → List Bool → List ℤ
  | _, [] => []
  | sum, removed :: rest =>
      let sum := if removed then sum + 1 else sum
      sum :: runningSums sum rest

/-- `replace_tiled_dim`. -/
def replaceTiledDim (dimOffsets : List ℤ) : Dim → Dim
  | .replicated times => .replicated times
  | .dim idx => .dim (idx + fromEnd dimOffsets idx)

/-- `is_nontrivial`. -/
def isNontrivial (shape : List ℤ) : Dim → Bool
  | .replicated _ => true
  | .dim idx => fromEnd shape idx ≠ 1

/-- `TiledLayout::Canonicalize`. -/
def canonicalize (layout : TiledLayout) : Except String TiledLayout := do
  let s := layout.tiles.headD []
  let shape ← tiledTilingShape layout.tiles
  let canonicalShape ← tileShape (canonicalTiling layout.tiles) s
  let (revRemoved, left) := revRemovedDims shape.reverse (canonicalShape.drop s.length).reverse
  if left ≠ [] then .error "Check failed: offset == -1"
  else
    let dimOffsets := (runningSums 0 revRemoved).reverse
    return {
      tiles := canonicalTiling layout.tiles
      warpDims := (layout.warpDims.filter (isNontrivial shape)).map (replaceTiledDim dimOffsets)
      laneDims := (layout.laneDims.filter (isNontrivial shape)).map (replaceTiledDim dimOffsets)
      vectorDim := layout.vectorDim + fromEnd dimOffsets layout.vectorDim }

/-! ## Create -/

/-- The loop of `Create` over the partitioned dimensions; `rank` is that of the tiled tiling. -/
def checkDims (rank : ℤ) : List ℤ → Except String Unit
  | [] => .ok ()
  | d :: dims =>
      if d ≥ 0 then .error "All dimensions must be negative"
      else if d < -rank then .error "Dimension out of range"
      else checkDims rank dims

/-- `TiledLayout::Create`. -/
def create (tiling : Tiling) (warpDims laneDims : List Dim) (vectorDim : ℤ)
    (checkCanonical : Bool) : Except String TiledLayout :=
  match tiling.tiles with
  | [] => .error "Tiling must have at least one tile"
  | minShape :: tiles => do
      let minTiledShape ← tileShape (minShape :: tiles) minShape
      let dims := partitionedDims warpDims ++ partitionedDims laneDims ++ [vectorDim]
      checkDims (minTiledShape.length - minShape.length) dims
      -- the source sorts the dimensions and compares neighbours
      if ¬ dims.Nodup then .error "Duplicate partitioning dimensions"
      else if (warpDims.map (dimSize minTiledShape)).prod ≠ WARPS_IN_WARPGROUP then
        .error "The product of warp dims does not equal the number of warps in a warpgroup"
      else if (laneDims.map (dimSize minTiledShape)).prod ≠ WARP_SIZE then
        .error "The product of lane dims does not equal the warp size"
      else
        let layout : TiledLayout := ⟨minShape :: tiles, warpDims, laneDims, vectorDim⟩
        if checkCanonical then do
          let canonical ← layout.canonicalize
          if canonical ≠ layout then .error "TiledLayout is not canonical"
          else return layout
        else return layout

/-! ## The elements of a thread -/

/-- The strides of a contiguous array: each is the product of the sizes behind it. -/
def contiguousStrides : List ℤ → List ℤ
  | [] => []
  | _ :: shape => shape.prod :: contiguousStrides shape

/-- A constant of the type `i32`, read as unsigned. -/
def u32 (x : ℤ) : ℤ := x % 2 ^ 32

/-- `DelinearizeIndex`, for the sizes and strides of the dimensions. -/
def dimsIndices (idx : ℤ) (dimsSizes : List ℤ) : List ℤ :=
  List.zipWith (fun stride size => idx / u32 stride % u32 size) (contiguousStrides dimsSizes)
    dimsSizes

/-- One write of the last loop of `DelinearizeIndex`. -/
def setIndex (fullIndices : List ℤ) : Dim × ℤ → List ℤ
  | (.replicated _, _) => fullIndices
  | (.dim d, dimIdx) => fullIndices.set (d + fullIndices.length).toNat dimIdx

/-- `DelinearizeIndex`. -/
def delinearizeIndex (tiledShape : List ℤ) (idx : ℤ) (dims : List Dim) : List ℤ :=
  (dims.zip (dimsIndices idx (dims.map (dimSize tiledShape)))).foldl setIndex
    (List.replicate tiledShape.length 0)

/-- The dimensions that `RegistersShape` sets to one. -/
def setOnes (shape : List ℤ) (dims : List ℤ) : List ℤ :=
  dims.foldl (fun (shape : List ℤ) (d : ℤ) => shape.set (d + shape.length).toNat 1) shape

/-- `RegistersShape`. -/
def registersShape (layout : TiledLayout) (shape : List ℤ) : Except String (List ℤ) := do
  let tiledShape ← tileShape layout.tiles shape
  return setOnes tiledShape
    (partitionedDims layout.warpDims ++ partitionedDims layout.laneDims ++ [layout.vectorDim])

/-- `ForAllNdIndices`: the indices of an array, the last dimension first. -/
def forAllNdIndices : List ℤ → List (List ℤ)
  | [] => [[]]
  | n :: shape => (List.range n.toNat).flatMap fun j : ℕ => (forAllNdIndices shape).map ((j : ℤ) :: ·)

/-- The loop of `ThreadIdxs` that makes an index of an offset. -/
def indexOfOffset : ℤ → List ℤ → List ℤ
  | _, [] => []
  | offset, stride :: strides =>
      offset / u32 stride :: indexOfOffset (offset % u32 stride) strides

/--
`ThreadIdxs`, for every element of a register: the logical indices that the lane `lane`
of the warp `warp` holds, register by register in row-major order. The elements of a
register lie along the vector dimension.
-/
def threadIdxs (layout : TiledLayout) (shape : List ℤ) (warp lane : ℤ) :
    Except String (List (List (List ℤ))) := do
  let tiledShape ← tiledTilingShape layout.tiles
  let laneIndices := delinearizeIndex tiledShape lane layout.laneDims
  let warpIndices := delinearizeIndex tiledShape warp layout.warpDims
  let contigStrides := contiguousStrides shape
  let tileStrides := tileStrides layout.tiles contigStrides
  let dynTileStrides := trail tiledShape.length tileStrides
  let dynOffset := dot warpIndices dynTileStrides + dot laneIndices dynTileStrides
  let regShape ← registersShape layout shape
  return (forAllNdIndices regShape).map fun tileIdx =>
    (List.range (fromEnd tiledShape layout.vectorDim).toNat).map fun element : ℕ =>
      indexOfOffset
        (u32 (dynOffset + dot tileIdx tileStrides +
          element * fromEnd tileStrides layout.vectorDim)) contigStrides

end TiledLayout

end JaxDas
