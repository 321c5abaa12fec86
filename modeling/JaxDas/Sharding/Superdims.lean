import JaxDas.Lib.Fallible
import JaxDas.Sharding.Devices
import Mathlib.Tactic.Ring

/-!
# From tiles back to named axes

`parse_flatten_op_sharding` finds the axes of a tiling in its list of devices. `unflatten_superdims`
takes the list apart into runs of equal steps, the last dimension first; a run can be several axes
that follow each other in the mesh, and `explode_superdims` splits it again by the strides.
-/

namespace JaxDas.Sharding

inductive ParseError where
  | notImplemented
  | assertion
  | indexError
  | keyError
  | stopIteration
  | indivisible
deriving DecidableEq, Repr

/-! ## Runs -/

/-- The first position from `i` on where the list is not `i * stride`. -/
def runLength (stride : ℕ) : ℕ → List ℕ → ℕ
  | i, [] => i
  | i, x :: xs => if x ≠ i * stride then i else runLength stride (i + 1) xs

/-- `l[::step]` -/
def everyNth (step : ℕ) (l : List ℕ) : List ℕ :=
  (List.range ((l.length + (step - 1)) / step)).map fun k => l.getD (k * step) 0

theorem length_everyNth_lt {step : ℕ} {l : List ℕ} (hstep : 1 < step) (hl : 1 < l.length) :
    (everyNth step l).length < l.length := by
  rw [everyNth, List.length_map, List.length_range, Nat.div_lt_iff_lt_mul (by omega)]
  have hle : l.length * 2 ≤ l.length * step := Nat.mul_le_mul_left _ hstep
  have hle' : 2 * step ≤ l.length * step := Nat.mul_le_mul_right _ hl
  omega

/-- The loop of `unflatten_superdims`. -/
def unflattenLoop (flat_assignment : List ℕ) : Except ParseError (List (ℕ × ℕ)) :=
  if h : 1 < flat_assignment.length then
    let stride := flat_assignment[1]
    let size := runLength stride 0 flat_assignment
    if hsize : 1 < size then do
      let dims ← unflattenLoop (everyNth size flat_assignment)
      .ok ((size, stride) :: dims)
    else .error .assertion
  else .ok []
termination_by flat_assignment.length
decreasing_by exact length_everyNth_lt hsize h

def unflattenSuperdims (assignment : List ℕ) : Except ParseError (List (ℕ × ℕ)) :=
  match assignment with
  | [] => .error .indexError
  | first :: _ => if first = 0 then unflattenLoop assignment else .error .notImplemented

/-! ## Splitting the runs -/

/-- `strides_for_sizes` -/
def stridesForSizes : List ℕ → List ℕ
  | [] => []
  | d :: ds => size (d :: ds) / d :: stridesForSizes ds

/-- `d[key]` for the dictionary of these items: of two with one key the later counts. -/
def getItem {κ ν : Type} [DecidableEq κ] (items : List (κ × ν)) (key : κ) : Except ParseError ν :=
  match items.reverse.lookup key with
  | some v => .ok v
  | none => .error .keyError

/-- The dimensions that one superdim is split into, the most minor first. -/
def explodeDim (strides_to_sizes : List (ℕ × ℕ)) (size stride : ℕ) :
    Except ParseError (List (ℕ × ℕ)) :=
  match getItem strides_to_sizes stride with
  | .error e => .error e
  | .ok target_size =>
      if target_size < size then
        if _h : 1 < target_size ∧ size % target_size = 0 then do
          let new_dims ← explodeDim strides_to_sizes (size / target_size) (stride * target_size)
          .ok ((target_size, stride) :: new_dims)
        else .error .assertion
      else if size = target_size then .ok [(size, stride)] else .error .assertion
termination_by size
decreasing_by exact Nat.div_lt_self (by omega) _h.1

def explodeLoop (strides_to_sizes : List (ℕ × ℕ)) : List (ℕ × ℕ) →
    Except ParseError (List (ℕ × ℕ))
  | [] => .ok []
  | (size, stride) :: dims => do
      let new_dims ← explodeDim strides_to_sizes size stride
      let final_dims ← explodeLoop strides_to_sizes dims
      .ok (new_dims.reverse ++ final_dims)

def explodeSuperdims (sizes : List ℕ) (dims : List (ℕ × ℕ)) : Except ParseError (List (ℕ × ℕ)) :=
  explodeLoop ((stridesForSizes sizes).zip sizes) dims.reverse

variable {A : Type} [DecidableEq A]

/-- `unflatten_array` -/
def unflattenArray (named_sizes : List (A × ℕ)) (assignment : List ℕ) :
    Except ParseError (List A) := do
  let named_sizes := named_sizes.filter fun a => a.2 ≠ 1
  let sizes := named_sizes.map Prod.snd
  let strides := stridesForSizes sizes
  let superdims ← unflattenSuperdims assignment
  let dims ← explodeSuperdims sizes superdims
  let dim_to_name := (sizes.zip strides).zip (named_sizes.map Prod.fst)
  dims.mapM fun d => getItem dim_to_name d

/-! ## Partitions -/

/-- The axes that a dimension of the tiling takes, and those that it leaves. -/
def takeAxes (mesh : Mesh A) : (dim_size : ℕ) → (mesh_axis : List A) →
    Except ParseError (List A × List A)
  | dim_size, [] => if 1 < dim_size then .error .stopIteration else .ok ([], [])
  | dim_size, axis :: rest =>
      if 1 < dim_size then
        if dim_size % mesh.shape axis = 0 then do
          let (dim_partitions, left) ← takeAxes mesh (dim_size / mesh.shape axis) rest
          .ok (axis :: dim_partitions, left)
        else .error .indivisible
      else .ok ([], axis :: rest)

def takePartitions (mesh : Mesh A) : (shape : List ℕ) → (mesh_axis : List A) →
    Except ParseError (List (List A))
  | [], _ => .ok []
  | dim_size :: shape, mesh_axis => do
      let (dim_partitions, left) ← takeAxes mesh dim_size mesh_axis
      let partitions ← takePartitions mesh shape left
      .ok (dim_partitions :: partitions)

/-- `while partitions and partitions[-1] == (): partitions.pop()` -/
def dropTrailing (partitions : List (List A)) : List (List A) :=
  (partitions.reverse.dropWhile fun p => p = []).reverse

/-- `parse_flatten_op_sharding`, of a sharding that is not a tuple. -/
def parseFlattenOpSharding (hlo_sharding : HloSharding) (mesh : Mesh A) :
    Except ParseError (List (PartitionSpec A)) :=
  match hlo_sharding with
  | .replicate => .ok [⟨[], [], []⟩]
  | .tiled shape devices replicate_on_last_tile_dim subgroup_types => do
      let mesh_axis_order ← unflattenArray mesh.axes devices
      let partitions ← takePartitions mesh shape mesh_axis_order
      if 1 < subgroup_types.length then .error .notImplemented
      else
        let partitions := if replicate_on_last_tile_dim then partitions.dropLast else partitions
        .ok [⟨(dropTrailing partitions).map .axes, [], []⟩]

end JaxDas.Sharding
