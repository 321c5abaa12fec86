import JaxDas.Sharding.Tiles

/-!
# Which slice each device has

`op_sharding_to_numpy_indices` walks over the tiles and over the list of devices together, and
`devices_indices_map` pairs what it finds with the devices of the mesh. The slice of the device with
the coordinates `c` has for its number, in a dimension cut along `a1, ..., ak`, the number with the
digits `c a1, ..., c ak`.
-/

namespace JaxDas.Sharding

/-- `slice(None)` or `slice(start, stop)`. -/
inductive Slice where
  | all
  | range (start stop : ℕ)
deriving DecidableEq, Repr

/-- Where a slice of a dimension starts and stops. -/
def Slice.bounds (dim : ℕ) : Slice → ℕ × ℕ
  | .all => (0, dim)
  | .range start stop => (start, stop)

def HloSharding.numDevices : HloSharding → ℕ
  | .replicate => 1
  | .tiled dims _ _ _ => size dims

/-- `is_hlo_sharding_replicated` -/
def isHloShardingReplicated (h : HloSharding) : Bool := h.numDevices = 1 ∨ h = .replicate

/-- `get_num_ways_dim_sharded`: the number of tiles of each dimension, and of copies of each tile. -/
def getNumWaysDimSharded : HloSharding → Except ShardingError (List ℕ × ℕ)
  | .replicate => .ok ([], 1)
  | .tiled partitions _ replicate_on_last_tile_dim subgroup_types =>
      if subgroup_types = [.replicated] then
        .ok (partitions.dropLast, partitions.getLastD 1)
      else if subgroup_types = [.unreduced] then .ok (partitions.dropLast, 1)
      else if .replicated ∈ subgroup_types ∧ .unreduced ∈ subgroup_types ∧
          .manual ∉ subgroup_types then
        .ok (partitions.take (partitions.length - 2),
          (partitions.drop (partitions.length - 2)).getD (subgroup_types.idxOf .replicated) 1)
      else if replicate_on_last_tile_dim then
        .ok (partitions.dropLast, partitions.getLastD 1)
      else if subgroup_types ≠ [] then .error .notImplemented
      else .ok (partitions, 1)

/-- The slices of a dimension. -/
def axisIndices (dim n_shards : ℕ) : Except ShardingError (List Slice) :=
  if n_shards = 1 then .ok [.all]
  else if 1 < n_shards then
    let shard_size := dim / n_shards
    if dim % n_shards = 0 then
      .ok ((List.range n_shards).map fun i => .range (i * shard_size) ((i + 1) * shard_size))
    else .error .assertion
  else .error .assertion

/-- `for idxs in ...: indices[next(device_it)] = idxs` -/
def assignLoop {P : Type} : List P → List ℕ → List (Option P) →
    Except ShardingError (List (Option P))
  | [], _, indices => .ok indices
  | _ :: _, [], _ => .error .stopIteration
  | idxs :: rest, device :: device_it, indices =>
      if device < indices.length then
        assignLoop rest device_it (indices.set device (some idxs))
      else .error .indexError

/-- `op_sharding_to_numpy_indices` -/
def opShardingToNumpyIndices (hlo_sharding : HloSharding) (shape : List ℕ) (num_devices : ℕ) :
    Except ShardingError (List (Option (List Slice))) :=
  if isHloShardingReplicated hlo_sharding then
    .ok (List.replicate num_devices (some (List.replicate shape.length .all)))
  else
    match hlo_sharding with
    | .replicate => .error .assertion
    | .tiled dims devices last types =>
        if num_devices = size dims then do
          let (partitions, num_replicas) ← getNumWaysDimSharded (.tiled dims devices last types)
          if partitions.length = shape.length then do
            let axis_indices ← (shape.zip partitions).mapM fun p => axisIndices p.1 p.2
            assignLoop ((product axis_indices).flatMap (List.replicate num_replicas)) devices
              (List.replicate num_devices none)
          else .error .assertion
        else .error .assertion

variable {A : Type} [DecidableEq A]

/-- `_common_shard_shape` -/
def shardShape (s : NamedSharding A) (global_shape : List ℕ) :
    Except ShardingError (List ℕ) := do
  let hlo_sharding ← namedShardingToXlaHloSharding s global_shape.length
  if isHloShardingReplicated hlo_sharding then .ok global_shape
  else do
    let (partitions, _) ← getNumWaysDimSharded hlo_sharding
    if partitions.length = global_shape.length then
      (global_shape.zip partitions).mapM fun p =>
        if p.1 % p.2 = 0 then .ok (p.1 / p.2) else .error .indivisible
    else .error .assertion

def HloSharding.subgroupTypes : HloSharding → List OpShardingType
  | .replicate => []
  | .tiled _ _ _ types => types

/-- `devices_indices_map`: the slices of each device, in the order of the devices of the mesh. -/
def devicesIndicesMap (s : NamedSharding A) (global_shape : List ℕ) :
    Except ShardingError (List (Option (List Slice))) := do
  let _ ← shardShape s global_shape
  let hlo_sharding ← namedShardingToXlaHloSharding s global_shape.length
  if .unreduced ∈ hlo_sharding.subgroupTypes then .error .notImplemented
  else opShardingToNumpyIndices hlo_sharding global_shape (volume s.mesh.axes)

end JaxDas.Sharding
