import JaxDas.Lib.MixedRadix
import JaxDas.Sharding.Mesh

/-!
# From named axes to tiles

`named_sharding_to_xla_hlo_sharding`: how many tiles each dimension is cut into, and in which order
the devices of the mesh get them. `iotaTile` is what XLA documents of `HloSharding.iota_tile`: the
devices in the order of the mesh, transposed.
-/

namespace JaxDas.Sharding

variable {A : Type} [DecidableEq A]

/-- The types of `OpSharding` that the conversion uses, by increasing value. -/
inductive OpShardingType where
  | replicated
  | manual
  | unreduced
deriving DecidableEq, Repr

inductive HloSharding where
  | replicate
  | tiled (tile_assignment_dimensions tile_assignment_devices : List ℕ)
      (replicate_on_last_tile_dim : Bool) (subgroup_types : List OpShardingType)
deriving DecidableEq, Repr

/-- `arange.reshape(reshape_dims).transpose(perm)`, flattened. -/
def iotaDevices (reshape_dims transpose_perm : List ℕ) : List ℕ :=
  (multiIndices (pick transpose_perm reshape_dims)).map fun idx =>
    rowMajor reshape_dims (transposeIndex transpose_perm idx)

/-- `HloSharding.iota_tile`. One replicated subgroup is kept as `replicate_on_last_tile_dim`. -/
def iotaTile (dims reshape_dims transpose_perm : List ℕ) (subgroup_types : List OpShardingType) :
    HloSharding :=
  if subgroup_types = [.replicated] then
    .tiled dims (iotaDevices reshape_dims transpose_perm) true []
  else .tiled dims (iotaDevices reshape_dims transpose_perm) false subgroup_types

inductive ShardingError where
  | assertion
  | indexError
  | stopIteration
  | keyError
  | indivisible
  | notImplemented
deriving DecidableEq, Repr

/-- The loop over the sorted array mapping: `new_mesh_shape` and `mesh_permutation`. -/
def tileLoop (mesh : Mesh A) : List (A × ℕ) → List ℕ → List ℕ →
    Except ShardingError (List ℕ × List ℕ)
  | [], new_mesh_shape, mesh_permutation => .ok (new_mesh_shape, mesh_permutation)
  | (name, pos) :: items, new_mesh_shape, mesh_permutation =>
      if pos < new_mesh_shape.length then
        tileLoop mesh items (new_mesh_shape.modify pos (· * mesh.shape name))
          (mesh_permutation ++ [mesh.axis_names.idxOf name])
      else .error .indexError

/-- The type of an axis that no dimension is cut along: `special_axes.get(i, REPLICATED)`. -/
def typeOf (mesh : Mesh A) (spec : PartitionSpec A) (name : A) : OpShardingType :=
  if name ∈ spec.unreduced then .unreduced
  else if mesh.axis_types name = .manual then .manual
  else .replicated

/-- The axes that no dimension is cut along. -/
def replicatedMeshAxes (mesh : Mesh A) (spec : PartitionSpec A) : List (A × ℕ) :=
  mesh.axes.filter fun a => a.1 ∉ (getArrayMapping spec).map Prod.fst

/-- These by type, the types in the order of their values, without those that do not occur. -/
def axesByType (mesh : Mesh A) (spec : PartitionSpec A) :
    List (OpShardingType × List (A × ℕ)) :=
  ([.replicated, .manual, .unreduced].map fun ty =>
    (ty, (replicatedMeshAxes mesh spec).filter fun a => typeOf mesh spec a.1 = ty)).filter
      fun group => group.2 ≠ []

/-- The axes of `special_axes`. -/
def specialAxes (mesh : Mesh A) (spec : PartitionSpec A) : List A :=
  mesh.axis_names.filter fun name => typeOf mesh spec name ≠ .replicated

/-- `named_sharding_to_xla_hlo_sharding`, without logical device ids. -/
def namedShardingToXlaHloSharding (s : NamedSharding A) (num_dimensions : ℕ) :
    Except ShardingError HloSharding := do
  let mesh := nonOneSizedMesh s.mesh
  let spec := nonOneSizedSpec s.spec s.mesh
  let replicated := replicatedMeshAxes mesh spec
  if replicated.length = mesh.axes.length ∧ specialAxes mesh spec = [] then .ok .replicate
  else do
    let (new_mesh_shape, mesh_permutation) ← tileLoop mesh
      ((getArrayMapping spec).mergeSort fun x y => x.2 ≤ y.2) (List.replicate num_dimensions 1) []
    if replicated ≠ [] ∧ ¬ specialAxes mesh spec ⊆ replicated.map Prod.fst then .error .assertion
    else
      let groups := axesByType mesh spec
      .ok (iotaTile (new_mesh_shape ++ groups.map fun g => volume g.2) mesh.axis_sizes
        (mesh_permutation ++ groups.flatMap fun g => g.2.map fun a => mesh.axis_names.idxOf a.1)
        (groups.map Prod.fst))

end JaxDas.Sharding
