import JaxDas.Lib.DistinctSets
import JaxDas.Sharding.Placement

/-!
# The index of a process

`get_process_index_and_count` runs in every process, on the same sharding. Two processes have the
same index if they address the same slices of the dimension. In which order a set has its elements
is not known, but it is the same in every process.
-/

namespace JaxDas.Sharding

/-! ## Shardings -/

structure Device where
  id : ℕ
  process_index : ℕ
deriving DecidableEq, Repr

/-- What `Sharding` leaves to its subclasses, as far as it is used here. -/
structure TensorSharding where
  device_assignment : List Device
  is_fully_replicated : Bool
  to_xla_hlo_sharding : ℕ → Except ShardingError HloSharding

namespace TensorSharding

variable (s : TensorSharding)

def numDevices : ℕ := s.device_assignment.length

/-- `addressable_devices` in the process `pid`. -/
def addressableDevices (pid : ℕ) : List Device :=
  s.device_assignment.filter fun d => d.process_index = pid

def isFullyAddressable (pid : ℕ) : Bool :=
  s.addressableDevices pid ≠ [] ∧ ∀ d ∈ s.device_assignment, d.process_index = pid

end TensorSharding

/-- `_common_shard_shape`, of the sharding that the conversion gives. -/
def commonShardShape (hlo_sharding : HloSharding) (global_shape : List ℕ) :
    Except ShardingError (List ℕ) :=
  if isHloShardingReplicated hlo_sharding then .ok global_shape
  else do
    let (partitions, _) ← getNumWaysDimSharded hlo_sharding
    if partitions.length = global_shape.length then
      (global_shape.zip partitions).mapM fun p =>
        if p.1 % p.2 = 0 then .ok (p.1 / p.2) else .error .indivisible
    else .error .assertion

namespace TensorSharding

variable (s : TensorSharding)

def shardShape (global_shape : List ℕ) : Except ShardingError (List ℕ) := do
  let hlo_sharding ← s.to_xla_hlo_sharding global_shape.length
  commonShardShape hlo_sharding global_shape

/-- `common_devices_indices_map`. A device that no tile is assigned to has `None`. -/
def devicesIndicesMap (global_shape : List ℕ) :
    Except ShardingError (List (Device × Option (List Slice))) := do
  let _ ← s.shardShape global_shape
  let hlo_sharding ← s.to_xla_hlo_sharding global_shape.length
  if .unreduced ∈ hlo_sharding.subgroupTypes then .error .notImplemented
  else do
    let indices ← opShardingToNumpyIndices hlo_sharding global_shape s.numDevices
    .ok (s.device_assignment.zip indices)

end TensorSharding

/-! ## Processes -/

inductive ProcessError where
  | nonUniform
  | typeError
  | sharding (e : ShardingError)
deriving DecidableEq, Repr

/-- The process of a device, and `v[dim]`. -/
def sliceOf (dim : ℕ) (item : Device × Option (List Slice)) : Except ProcessError (ℕ × Slice) :=
  match item.2 with
  | none => .error .typeError
  | some v =>
      match v[dim]? with
      | none => .error (.sharding .indexError)
      | some sl => .ok (item.1.process_index, sl)

/-- `get_process_index_and_count` in the process `pid`. -/
def getProcessIndexAndCount (order : SetOrder (Finset Slice)) (s : TensorSharding)
    (pid dim ndims : ℕ) : Except ProcessError (ℕ × ℕ) :=
  if s.isFullyAddressable pid ∨ s.is_fully_replicated then .ok (0, 1)
  else do
    let device_map ← (s.devicesIndicesMap (List.replicate ndims s.numDevices)).mapError .sharding
    let global_slice ← device_map.mapM (sliceOf dim)
    let process_to_slice := groupSets global_slice
    let all_slices := (global_slice.map Prod.snd).toFinset
    match s.addressableDevices pid with
    | [] => .error (.sharding .stopIteration)
    | d :: _ =>
        -- a default dictionary has the empty set for a key that it does not have
        let addressable_slices := (process_to_slice.lookup d.process_index).getD ∅
        let slices_per_process := addressable_slices.card
        if (process_to_slice.map Prod.snd).any fun x => x.card ≠ slices_per_process then
          .error .nonUniform
        else
          let unique_processes := order.order (process_to_slice.map Prod.snd)
          if (unique_processes.map Finset.card).sum ≠ all_slices.card then .error .nonUniform
          else .ok (unique_processes.idxOf addressable_slices, unique_processes.length)

/-- `global_shape[i]` of `local_to_global_shape`. -/
def globalDim (order : SetOrder (Finset Slice)) (s : TensorSharding) (pid ndims i local_dim : ℕ) :
    Except ProcessError (Option ℕ) :=
  match getProcessIndexAndCount order s pid i ndims with
  | .ok (_, shard_count) => .ok (some (local_dim * shard_count))
  | .error .nonUniform => .ok none
  | .error e => .error e

def localToGlobalShape (order : SetOrder (Finset Slice)) (s : TensorSharding) (pid : ℕ)
    (local_shape : List ℕ) : Except ProcessError (List (Option ℕ)) :=
  local_shape.zipIdx.mapM fun e => globalDim order s pid local_shape.length e.2 e.1

/-- `num_addressable_indices` in the process `pid`. -/
def numAddressableIndices (s : TensorSharding) (pid dim : ℕ) (global_shape : List ℕ) :
    Except ProcessError ℕ := do
  let global_map ← (s.devicesIndicesMap global_shape).mapError .sharding
  let addressables := global_map.filter fun item => item.1.process_index = pid
  let slices ← addressables.mapM (sliceOf dim)
  let num_unique_slices := (slices.map Prod.snd).toFinset.card
  let shard_shape ← (s.shardShape global_shape).mapError .sharding
  match shard_shape[dim]? with
  | none => .error (.sharding .indexError)
  | some shard_size => .ok (shard_size * num_unique_slices)

/-! ## Tiles -/

/-- The slice with the number `k` of a dimension that is cut into `n`. -/
def sliceAt (dim n k : ℕ) : Slice :=
  if n = 1 then .all else .range (k * (dim / n)) ((k + 1) * (dim / n))

/-- The slices of a tile. -/
def tileSlices : List ℕ → List ℕ → List ℕ → List Slice
  | dim :: shape, n :: parts, k :: tile => sliceAt dim n k :: tileSlices shape parts tile
  | _, _, _ => []

theorem length_tileSlices : ∀ {shape parts tile : List ℕ}, shape.length = parts.length →
    Within parts tile → (tileSlices shape parts tile).length = shape.length
  | [], _, _, _, _ => rfl
  | dim :: shape, n :: parts, _, hlen, .cons _ h => by
      rw [tileSlices, List.length_cons, length_tileSlices (by simpa using hlen) h, List.length_cons]

theorem getElem?_tileSlices : ∀ {shape parts tile : List ℕ} {d dim n k : ℕ}, shape[d]? = some dim →
    parts[d]? = some n → tile[d]? = some k →
      (tileSlices shape parts tile)[d]? = some (sliceAt dim n k)
  | dim :: shape, n :: parts, k :: tile, 0, _, _, _, hdim, hn, hk => by
      obtain rfl := Option.some.inj hdim
      obtain rfl := Option.some.inj hn
      obtain rfl := Option.some.inj hk
      rfl
  | _ :: shape, _ :: parts, _ :: tile, d + 1, _, _, _, hdim, hn, hk =>
      @getElem?_tileSlices shape parts tile d _ _ _ hdim hn hk

theorem axisIndices_eq {dim n : ℕ} (hn : 0 < n) (hdvd : n ∣ dim) :
    axisIndices dim n = .ok ((List.range n).map (sliceAt dim n)) := by
  unfold axisIndices sliceAt
  by_cases h1 : n = 1
  · subst h1
    rfl
  · rw [if_neg h1, if_pos (by omega), if_pos (Nat.mod_eq_zero_of_dvd hdvd)]
    simp only [if_neg h1]

theorem mapM_axisIndices_eq : ∀ {shape parts : List ℕ},
    List.Forall₂ (fun dim n => n ∣ dim) shape parts → (∀ n ∈ parts, 0 < n) →
    ((shape.zip parts).mapM fun p => axisIndices p.1 p.2) =
      .ok ((shape.zip parts).map fun p => (List.range p.2).map (sliceAt p.1 p.2))
  | _, _, .nil, _ => rfl
  | dim :: shape, n :: parts, .cons hdvd h, hpos => by
      obtain ⟨hn, hpos⟩ := List.forall_mem_cons.mp hpos
      rw [List.zip_cons_cons, List.mapM_cons, axisIndices_eq hn hdvd, mapM_axisIndices_eq h hpos]
      rfl

/-- The choices of a slice in every dimension, in the order of the tiles. -/
theorem product_slices : ∀ {shape parts : List ℕ}, shape.length = parts.length →
    product ((shape.zip parts).map fun p => (List.range p.2).map (sliceAt p.1 p.2)) =
      (multiIndices parts).map (tileSlices shape parts)
  | [], [], _ => rfl
  | dim :: shape, n :: parts, hlen => by
      have ih := @product_slices shape parts (by simpa using hlen)
      have hindices : multiIndices (n :: parts) =
          (List.range n).flatMap fun k => (multiIndices parts).map (k :: ·) := rfl
      rw [List.zip_cons_cons, List.map_cons, product, ih, hindices, List.map_flatMap,
        List.flatMap_map]
      refine List.flatMap_congr fun k _ => ?_
      rw [List.map_map, List.map_map]
      rfl

theorem assignLoop_map {P Q : Type} (f : P → Q) : ∀ (ps : List P) (devices : List ℕ)
    (indices : List (Option P)),
    assignLoop (ps.map f) devices (indices.map (Option.map f)) =
      (assignLoop ps devices indices).map (List.map (Option.map f))
  | [], _, _ => rfl
  | _ :: _, [], _ => rfl
  | p :: ps, d :: devices, indices => by
      rw [List.map_cons, assignLoop, assignLoop, List.length_map]
      split
      · rw [← assignLoop_map f ps devices, List.map_set, Option.map_some]
      · rfl

/-- Every dimension is cut into equal parts, and every tile is on some device. -/
structure Tiling (s : TensorSharding) (ndims : ℕ) where
  parts : List ℕ
  tiles : List (List ℕ)
  length_parts : parts.length = ndims
  length_tiles : tiles.length = s.numDevices
  mem_tiles : ∀ t, t ∈ tiles ↔ Within parts t
  dvd : ∀ n ∈ parts, n ∣ s.numDevices
  pos : 0 < s.numDevices
  replicated : s.is_fully_replicated = true → ∀ n ∈ parts, n = 1
  shards : ∀ shape, shape.length = ndims → ∀ shards, s.shardShape shape = .ok shards →
    List.Forall₂ (fun dim n => n ∣ dim) shape parts ∧ shards = List.zipWith (· / ·) shape parts
  indices : ∀ shape, List.Forall₂ (fun dim n => n ∣ dim) shape parts →
    s.devicesIndicesMap shape =
      .ok ((s.device_assignment.zip tiles).map fun e => (e.1, some (tileSlices shape parts e.2)))

/-! ## Shardings that tile -/

/-- `getNumWaysDimSharded` splits the number of devices. -/
theorem size_of_getNumWays {dims devices : List ℕ} {last : Bool} {types : List OpShardingType}
    {parts : List ℕ} {replicas : ℕ}
    (h : getNumWaysDimSharded (.tiled dims devices last types) = .ok (parts, replicas))
    (hunreduced : .unreduced ∉ types) : size parts * replicas = size dims := by
  have hlast : size dims.dropLast * dims.getLastD 1 = size dims := by
    rcases List.eq_nil_or_concat dims with rfl | ⟨init, d, rfl⟩
    · rfl
    · rw [List.concat_eq_append, List.dropLast_concat, size_append]
      simp [size]
  rw [getNumWaysDimSharded] at h
  split at h
  · cases h
    exact hlast
  · split at h
    · next htypes => exact absurd (htypes ▸ List.mem_singleton.mpr rfl) hunreduced
    · split at h
      · next htypes => exact absurd htypes.2.1 hunreduced
      · split at h
        · cases h
          exact hlast
        · split at h
          · cases h
          · cases h
            exact Nat.mul_one _

theorem dvd_size {n : ℕ} : ∀ {ds : List ℕ}, n ∈ ds → n ∣ size ds
  | d :: ds, h => by
      rcases List.mem_cons.mp h with rfl | h
      · exact Nat.dvd_mul_right n (size ds)
      · exact (dvd_size h).trans (Nat.dvd_mul_left _ d)

theorem flatMap_replicate_map {P Q : Type} (f : P → Q) (n : ℕ) (l : List P) :
    (l.flatMap fun p => List.replicate n (f p)) = (l.flatMap (List.replicate n)).map f := by
  rw [List.map_flatMap]
  exact List.flatMap_congr fun p _ => List.map_replicate.symm

/-- A conversion to what XLA accepts: every device is assigned once. -/
structure Assigns (s : TensorSharding) (ndims : ℕ) (hlo : HloSharding) (parts : List ℕ)
    (replicas : ℕ) : Prop where
  convert : s.to_xla_hlo_sharding ndims = .ok hlo
  pos : 0 < s.numDevices
  devices : ∀ dims devices last types, hlo = .tiled dims devices last types →
    devices.Perm (List.range s.numDevices) ∧ size dims = s.numDevices ∧
      getNumWaysDimSharded hlo = .ok (parts, replicas) ∧ parts.length = ndims
  unreduced : .unreduced ∉ hlo.subgroupTypes
  replicated : s.is_fully_replicated = true → isHloShardingReplicated hlo = true

theorem exists_map_some_of_perm {P : Type} {r : List (Option P)} {ps : List P}
    (h : r.Perm (ps.map some)) : ∃ ts : List P, ts.Perm ps ∧ r = ts.map some := by
  have hall : ∀ x ∈ r, ∃ t, some t = x := by
    intro x hx
    obtain ⟨t, -, ht⟩ := List.mem_map.mp (h.mem_iff.mp hx)
    exact ⟨t, ht⟩
  obtain ⟨ts, rfl⟩ : ∃ ts : List P, ts.map some = r := by
    clear h
    induction r with
    | nil => exact ⟨[], rfl⟩
    | cons x r ih =>
        obtain ⟨hx, hr⟩ := List.forall_mem_cons.mp hall
        obtain ⟨t, rfl⟩ := hx
        obtain ⟨ts, rfl⟩ := ih hr
        exact ⟨t :: ts, rfl⟩
  exact ⟨ts, (List.map_perm_map_iff (Option.some_injective P)).mp h, rfl⟩

/-- A dimension that is cut into one part is not cut. -/
theorem tileSlices_replicate : ∀ shape : List ℕ,
    tileSlices shape (List.replicate shape.length 1) (List.replicate shape.length 0) =
      List.replicate shape.length .all
  | [] => rfl
  | _ :: shape => congrArg (Slice.all :: ·) (tileSlices_replicate shape)

theorem within_replicate {t : List ℕ} : ∀ {n : ℕ},
    Within (List.replicate n 1) t ↔ t = List.replicate n 0
  | 0 => List.forall₂_nil_right_iff
  | n + 1 => by
      rw [List.replicate_succ, List.replicate_succ]
      constructor
      · intro h
        cases h with
        | cons hk h => rw [Nat.lt_one_iff.mp hk, within_replicate.mp h]
      · rintro rfl
        exact .cons Nat.one_pos (within_replicate.mpr rfl)

theorem dvd_replicate : ∀ {shape : List ℕ}, List.Forall₂ (fun dim n => n ∣ dim) shape
    (List.replicate shape.length 1)
  | [] => .nil
  | _ :: _ => .cons (Nat.one_dvd _) dvd_replicate

theorem zipWith_div_replicate : ∀ shape : List ℕ,
    List.zipWith (· / ·) shape (List.replicate shape.length 1) = shape
  | [] => rfl
  | dim :: shape => congrArg₂ (· :: ·) (Nat.div_one dim) (zipWith_div_replicate shape)

theorem zip_tiles (devices : List Device) (tiles : List (List ℕ)) (shape parts : List ℕ) :
    devices.zip (tiles.map fun t => some (tileSlices shape parts t)) =
      (devices.zip tiles).map fun e => (e.1, some (tileSlices shape parts e.2)) :=
  List.zip_map_right ..

section

variable {s : TensorSharding} {ndims : ℕ} {hlo : HloSharding} {parts : List ℕ} {replicas : ℕ}

theorem Assigns.devicesIndicesMap (h : Assigns s ndims hlo parts replicas) {shape shards : List ℕ}
    {indices : List (Option (List Slice))} (hshape : shape.length = ndims)
    (hshards : commonShardShape hlo shape = .ok shards)
    (hindices : opShardingToNumpyIndices hlo shape s.numDevices = .ok indices) :
    s.devicesIndicesMap shape = .ok (s.device_assignment.zip indices) := by
  subst hshape
  rw [TensorSharding.devicesIndicesMap, TensorSharding.shardShape, h.convert]
  simp only [ok_bind]
  rw [hshards, ok_bind, if_neg h.unreduced, hindices, ok_bind]

/-- Every device has the whole array. -/
theorem Assigns.tiling_replicated (h : Assigns s ndims hlo parts replicas)
    (hreplicated : isHloShardingReplicated hlo = true) : Nonempty (Tiling s ndims) := by
  have hwhole : ∀ shape, commonShardShape hlo shape = .ok shape := fun shape => if_pos hreplicated
  refine ⟨List.replicate ndims 1, List.replicate s.numDevices (List.replicate ndims 0),
    List.length_replicate, List.length_replicate, fun t => ?_,
    fun n hn => (List.mem_replicate.mp hn).2 ▸ Nat.one_dvd _, h.pos,
    fun _ n hn => (List.mem_replicate.mp hn).2, ?_, fun shape hdvd => ?_⟩
  · rw [within_replicate, List.mem_replicate]
    exact and_iff_right h.pos.ne'
  · rintro shape rfl shards hshards
    rw [TensorSharding.shardShape, h.convert, ok_bind, hwhole] at hshards
    obtain rfl := Except.ok.inj hshards
    exact ⟨dvd_replicate, (zipWith_div_replicate shape).symm⟩
  · obtain rfl : shape.length = ndims := hdvd.length_eq.trans List.length_replicate
    rw [h.devicesIndicesMap rfl (hwhole shape) (if_pos hreplicated), ← zip_tiles,
      List.map_replicate, tileSlices_replicate]

theorem mapM_shards_ok : ∀ {shape parts shards : List ℕ}, shape.length = parts.length →
    ((shape.zip parts).mapM fun p =>
      if p.1 % p.2 = 0 then Except.ok (p.1 / p.2) else .error ShardingError.indivisible) =
        .ok shards →
    List.Forall₂ (fun dim n => n ∣ dim) shape parts ∧ shards = List.zipWith (· / ·) shape parts
  | [], [], shards, _, h => ⟨.nil, (Except.ok.inj h).symm⟩
  | dim :: shape, n :: parts, shards, hlen, h => by
      rw [List.zip_cons_cons, List.mapM_cons] at h
      by_cases hdvd : dim % n = 0
      · rw [if_pos hdvd, ok_bind] at h
        obtain ⟨rest, hrest, h⟩ := bind_ok.mp h
        obtain rfl := Except.ok.inj h
        obtain ⟨hall, rfl⟩ := mapM_shards_ok (by simpa using hlen) hrest
        exact ⟨.cons (Nat.dvd_of_mod_eq_zero hdvd) hall, rfl⟩
      · rw [if_neg hdvd] at h
        cases h

/-- The tiles are assigned to the devices in the order of the list. -/
theorem Assigns.tiling_tiled (h : Assigns s ndims hlo parts replicas)
    (hreplicated : isHloShardingReplicated hlo = false) : Nonempty (Tiling s ndims) := by
  cases hlo with
  | replicate => cases hreplicated
  | tiled dims devices last types =>
      obtain ⟨hdevices, hsize, hways, hlength⟩ := h.devices dims devices last types rfl
      have hsplit := size_of_getNumWays hways h.unreduced
      rw [hsize] at hsplit
      have hreplicas : 0 < replicas := by
        have := h.pos
        by_contra hzero
        rw [Nat.eq_zero_of_not_pos hzero, Nat.mul_zero] at hsplit
        omega
      have hdvd : ∀ n ∈ parts, n ∣ s.numDevices := fun n hn =>
        (dvd_size hn).trans (hsplit ▸ Nat.dvd_mul_right _ _)
      have hpos : ∀ n ∈ parts, 0 < n := fun n hn => Nat.pos_of_dvd_of_pos (hdvd n hn) h.pos
      have hrounds : ((multiIndices parts).flatMap (List.replicate replicas)).length =
          s.numDevices := by
        rw [length_flatMap_const fun _ _ => List.length_replicate, length_multiIndices, hsplit]
      obtain ⟨r, hassign, -, hr⟩ := assignLoop_perm hdevices hrounds
      obtain ⟨tiles, hperm, rfl⟩ := exists_map_some_of_perm hr
      have hshards : ∀ shape, shape.length = ndims →
          commonShardShape (.tiled dims devices last types) shape =
            (shape.zip parts).mapM fun p =>
              if p.1 % p.2 = 0 then .ok (p.1 / p.2) else .error .indivisible := by
        intro shape hshape
        rw [commonShardShape, hreplicated, hways]
        exact if_pos (hlength.trans hshape.symm)
      refine ⟨parts, tiles, hlength, hperm.length_eq.trans hrounds, fun t => ?_, hdvd, h.pos, ?_,
        ?_, fun shape hshape => ?_⟩
      · rw [hperm.mem_iff, List.mem_flatMap, ← mem_multiIndices]
        constructor
        · rintro ⟨t', ht', hmem⟩
          rw [(List.mem_replicate.mp hmem).2]
          exact ht'
        · exact fun ht => ⟨t, ht, List.mem_replicate.mpr ⟨hreplicas.ne', rfl⟩⟩
      · intro hfull
        rw [h.replicated hfull] at hreplicated
        cases hreplicated
      · rintro shape hshape shards hrun
        rw [TensorSharding.shardShape, hshape, h.convert, ok_bind, hshards shape hshape] at hrun
        exact mapM_shards_ok (hshape.trans hlength.symm) hrun
      · have hlen : shape.length = ndims := hshape.length_eq.trans hlength
        have hparts : List.Forall₂ (fun dim n => 0 < n ∧ n ∣ dim) shape parts :=
          ((List.forall₂_and_left parts shape).mpr ⟨hpos, hshape.flip⟩).flip
        have hindices : opShardingToNumpyIndices (.tiled dims devices last types) shape
            s.numDevices = .ok (tiles.map fun t => some (tileSlices shape parts t)) := by
          rw [opShardingToNumpyIndices, hreplicated, if_neg Bool.false_ne_true, if_pos hsize.symm,
            hways, ok_bind]
          refine (if_pos (hlength.trans hlen.symm)).trans ?_
          rw [mapM_axisIndices_eq hshape hpos, ok_bind, product_slices (hlen.trans hlength.symm),
            List.flatMap_map, flatMap_replicate_map]
          have hnone : List.replicate s.numDevices (none : Option (List Slice)) =
              (List.replicate s.numDevices none).map (Option.map (tileSlices shape parts)) := by
            rw [List.map_replicate, Option.map_none]
          rw [hnone, assignLoop_map, hassign]
          exact congrArg Except.ok (List.map_map ..)
        have hrun := (hshards shape hlen).trans (NamedSharding.mapM_shards hparts)
        rw [h.devicesIndicesMap hlen hrun hindices, zip_tiles]

theorem Assigns.nonempty_tiling (h : Assigns s ndims hlo parts replicas) :
    Nonempty (Tiling s ndims) := by
  cases hreplicated : isHloShardingReplicated hlo with
  | true => exact h.tiling_replicated hreplicated
  | false => exact h.tiling_tiled hreplicated

end

/-! ## The shardings of the repository -/

/-- `GSPMDSharding` -/
def gspmdSharding (device_assignment : List Device) (hlo_sharding : HloSharding) :
    TensorSharding where
  device_assignment := device_assignment
  is_fully_replicated := isHloShardingReplicated hlo_sharding
  to_xla_hlo_sharding := fun _ => .ok hlo_sharding

namespace NamedSharding

variable {A : Type} [DecidableEq A]

/-- `NamedSharding.is_fully_replicated` -/
def isFullyReplicated (s : NamedSharding A) : Bool :=
  volume s.mesh.axes = 1 ∨ size ((getArrayMapping s.spec).map fun e => s.mesh.shape e.1) = 1

def tensorSharding (s : NamedSharding A) (device_assignment : List Device) : TensorSharding where
  device_assignment := device_assignment
  is_fully_replicated := s.isFullyReplicated
  to_xla_hlo_sharding := namedShardingToXlaHloSharding s

/-- A named sharding assigns a tile to every device of its mesh. -/
theorem assigns (s : NamedSharding A)
    (hmanual : ∀ a ∈ s.mesh.axis_names, s.mesh.axis_types a ≠ .manual)
    (hunreduced : s.spec.unreduced = []) {ndims : ℕ} (hrank : s.spec.partitions.length ≤ ndims)
    {devices : List Device} (hdevices : devices.length = volume s.mesh.axes) :
    ∃ hlo parts replicas, Assigns (s.tensorSharding devices) ndims hlo parts replicas := by
  have hdivides : s.Divides (List.replicate ndims 0) := by
    refine ⟨hmanual, hunreduced, by rwa [List.length_replicate], fun d dim hd => ?_⟩
    rw [(List.mem_replicate.mp (List.mem_of_getElem? hd)).2]
    exact Nat.dvd_zero _
  have hpos : 0 < (s.tensorSharding devices).numDevices := by
    rw [TensorSharding.numDevices]
    exact hdevices ▸ volume_pos s.mesh.pos
  have hconvert := hdivides.convert
  rw [List.length_replicate] at hconvert
  by_cases hnames : s.spec'.names = []
  · rw [if_pos hnames] at hconvert
    exact ⟨.replicate, [], 0, hconvert, hpos, fun _ _ _ _ heq => (by cases heq),
      List.not_mem_nil, fun _ => rfl⟩
  · rw [if_neg hnames] at hconvert
    refine ⟨s.tiling ndims, (s.dimGroups ndims).map volume, volume s.unusedAxes, hconvert, hpos,
      fun dims ids last types heq => ?_, ?_, ?_⟩
    · have hsize := numDevices_tiling (s := s) ndims
      have hways := getNumWays_tiling (s := s) ndims
      have hperm := iotaDevices_perm s.mesh'.nodup (perm_mesh' (s := s) ndims)
      rw [volume_mesh', ← hdevices] at hperm
      rw [heq, ← hdevices] at hsize
      rw [tiling] at heq
      obtain ⟨-, rfl, -, -⟩ := HloSharding.tiled.inj heq
      exact ⟨hperm, hsize, hways, by rw [List.length_map, s.length_dimGroups hrank]⟩
    · exact List.not_mem_nil
    · intro hfull
      refine absurd ?_ hnames
      rw [names_spec', List.filter_eq_nil_iff]
      intro a ha
      rcases of_decide_eq_true hfull with hone | hone
      · exact absurd (one_lt_volume hnames) (by omega)
      · rw [← keys_getArrayMapping] at ha
        obtain ⟨e, he, rfl⟩ := List.mem_map.mp ha
        have hdvd := dvd_size (List.mem_map_of_mem (f := fun e => s.mesh.shape e.1) he)
        rw [hone, Nat.dvd_one] at hdvd
        simp [hdvd]

end NamedSharding

end JaxDas.Sharding
