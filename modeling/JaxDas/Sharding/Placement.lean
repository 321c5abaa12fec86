import JaxDas.Sharding.DeviceSlices

/-!
# Where a named sharding places an array

For a mesh without manual axes and a spec without unreduced ones, on an array whose dimensions the
spec divides.
-/

namespace JaxDas.Sharding

variable {A : Type} [DecidableEq A]

namespace NamedSharding

variable (s : NamedSharding A)

/-- The axes that a dimension is cut along, in the order of the spec. -/
def axesAt (d : ℕ) : List (A × ℕ) :=
  s.axesOf ((s.spec.partitions[d]?.map Partition.names).getD [])

/-- The axes that no dimension is cut along. -/
def unusedAxes : List (A × ℕ) := s.mesh.axes.filter fun a => a.1 ∉ s.spec.names

/-- The spec has no axis that is not for cutting, and divides the shape. -/
structure Divides (shape : List ℕ) : Prop where
  manual : ∀ a ∈ s.mesh.axis_names, s.mesh.axis_types a ≠ .manual
  unreduced : s.spec.unreduced = []
  rank : s.spec.partitions.length ≤ shape.length
  divides : ∀ (d dim : ℕ), shape[d]? = some dim → volume (s.axesAt d) ∣ dim

/-! ## The groups of axes -/

theorem axesOf_filter (names : List A) :
    s.axesOf (names.filter fun a => s.mesh.shape a ≠ 1) =
      (s.axesOf names).filter fun a => a.2 ≠ 1 := by
  rw [axesOf, axesOf, List.filter_map]
  rfl

theorem names_spec'_at (d : ℕ) : (s.spec'.partitions[d]?.map Partition.names).getD [] =
    ((s.spec.partitions[d]?.map Partition.names).getD []).filter fun a => s.mesh.shape a ≠ 1 := by
  simp only [spec', nonOneSizedSpec, List.getElem?_map]
  cases s.spec.partitions[d]? with
  | none => rfl
  | some p => cases p <;> rfl

/-- The group of a dimension has its axes but for those of size one. -/
theorem getElem?_dimGroups {n d : ℕ} (hn : s.spec.partitions.length ≤ n) (hd : d < n) :
    (s.dimGroups n)[d]? = some ((s.axesAt d).filter fun a => a.2 ≠ 1) := by
  rw [axesAt, ← axesOf_filter, ← names_spec'_at, dimGroups]
  rcases Nat.lt_or_ge d s.spec'.partitions.length with h | h
  · rw [List.getElem?_append_left (by simpa using h), List.getElem?_map,
      List.getElem?_eq_getElem h]
    rfl
  · rw [List.getElem?_append_right (by simpa using h), List.getElem?_replicate,
      if_pos (by rw [List.length_map]; have := s.length_spec'; omega), List.getElem?_eq_none h]
    rfl

theorem axesAt_subset (d : ℕ) : s.axesAt d ⊆ s.mesh.axes := by
  intro a ha
  obtain ⟨n, hn, rfl⟩ := List.mem_map.mp ha
  have hmem : n ∈ s.spec.names := by
    cases hp : s.spec.partitions[d]? with
    | none => rw [hp] at hn; simp at hn
    | some p =>
        rw [hp] at hn
        exact List.mem_flatMap.mpr ⟨p, List.mem_of_getElem? hp, by simpa using hn⟩
  obtain ⟨b, hb, rfl⟩ := List.mem_map.mp (s.names_mem hmem)
  rwa [shape_of_mem hb]

/-- What is not cut along takes as much room as the unused axes. -/
theorem volume_replicated : volume (replicatedMeshAxes s.mesh' s.spec') = volume s.unusedAxes := by
  rw [← volume_filter s.unusedAxes]
  congr 1
  rw [replicatedMeshAxes, keys_getArrayMapping, names_spec', unusedAxes, mesh', nonOneSizedMesh,
    List.filter_filter, List.filter_filter]
  refine List.filter_congr fun a ha => ?_
  by_cases h1 : a.2 = 1
  · simp [h1]
  · have hshape : s.mesh.shape a.1 ≠ 1 := by rwa [shape_of_mem ha]
    simp [h1, hshape]

theorem axesByType_eq (hmanual : ∀ a ∈ s.mesh.axis_names, s.mesh.axis_types a ≠ .manual)
    (hunreduced : s.spec.unreduced = []) :
    axesByType s.mesh' s.spec' =
      if replicatedMeshAxes s.mesh' s.spec' = [] then []
      else [(.replicated, replicatedMeshAxes s.mesh' s.spec')] := by
  have htype : ∀ a ∈ replicatedMeshAxes s.mesh' s.spec', typeOf s.mesh' s.spec' a.1 = .replicated := by
    intro a ha
    have hmem : a.1 ∈ s.mesh'.axis_names := List.mem_map_of_mem (List.mem_of_mem_filter ha)
    rw [s.typeOf_eq_replicated (hmanual _ ((mem_mesh'_names s).mp hmem).1), spec', nonOneSizedSpec,
      hunreduced]
    simp
  have hall : ((replicatedMeshAxes s.mesh' s.spec').filter fun a =>
      typeOf s.mesh' s.spec' a.1 = .replicated) = replicatedMeshAxes s.mesh' s.spec' :=
    List.filter_eq_self.mpr fun a ha => by simp [htype a ha]
  have hnone : ∀ ty ≠ OpShardingType.replicated, ((replicatedMeshAxes s.mesh' s.spec').filter
      fun a => typeOf s.mesh' s.spec' a.1 = ty) = [] := by
    intro ty hty
    refine List.filter_eq_nil_iff.mpr fun a ha => ?_
    simp [htype a ha, Ne.symm hty]
  have hmanual' : OpShardingType.manual ≠ .replicated := by simp
  have hunreduced' : OpShardingType.unreduced ≠ .replicated := by simp
  rw [axesByType]
  simp only [List.map_cons, List.map_nil, hall, hnone .manual hmanual',
    hnone .unreduced hunreduced']
  split
  · rename_i h
    simp [h]
  · rename_i h
    simp [h]

/-! ## The tiling -/

/-- The tiling with the replicated axes, if there are any, as a last dimension. -/
def tiling (n : ℕ) : HloSharding :=
  .tiled ((s.dimGroups n).map volume ++
      if replicatedMeshAxes s.mesh' s.spec' = [] then []
      else [volume (replicatedMeshAxes s.mesh' s.spec')])
    (iotaDevices s.mesh'.axis_sizes
      (positions s.mesh'.axes ((s.dimGroups n).flatten ++ replicatedMeshAxes s.mesh' s.spec')))
    (decide (replicatedMeshAxes s.mesh' s.spec' ≠ [])) []

variable {s} {shape : List ℕ}

theorem Divides.convert (h : s.Divides shape) : namedShardingToXlaHloSharding s shape.length =
    if s.spec'.names = [] then .ok .replicate else .ok (s.tiling shape.length) := by
  have hunreduced : s.spec'.unreduced = [] := by
    simp [spec', nonOneSizedSpec, h.unreduced]
  rw [s.convert_eq h.manual h.rank, hunreduced, tileGroups, s.axesByType_eq h.manual h.unreduced,
    tiling]
  simp only [and_true]
  split
  · rfl
  · by_cases hr : replicatedMeshAxes s.mesh' s.spec' = []
    · simp [hr, iotaTile]
    · simp [hr, iotaTile]

theorem perm_mesh' (n : ℕ) : ((s.dimGroups n).flatten ++ replicatedMeshAxes s.mesh' s.spec').Perm
    s.mesh'.axes := by
  rw [s.flatten_dimGroups]
  exact s.replicated_perm

theorem volume_mesh' : volume s.mesh'.axes = volume s.mesh.axes := volume_filter _

theorem numDevices_tiling (n : ℕ) : (s.tiling n).numDevices = volume s.mesh.axes := by
  have hsize : (s.tiling n).numDevices =
      volume ((s.dimGroups n).flatten ++ replicatedMeshAxes s.mesh' s.spec') := by
    rw [tiling, HloSharding.numDevices, size_append, volume_append,
      (radix_flatten (c := fun _ => 0) _).2]
    split
    · rename_i hr
      rw [hr]
      rfl
    · rw [size, size, Nat.mul_one]
  rw [hsize, volume_perm (perm_mesh' n), volume_mesh']

theorem getNumWays_tiling (n : ℕ) : getNumWaysDimSharded (s.tiling n) =
    .ok ((s.dimGroups n).map volume, volume s.unusedAxes) := by
  rw [← s.volume_replicated]
  by_cases hr : replicatedMeshAxes s.mesh' s.spec' = []
  · simp [tiling, getNumWaysDimSharded, hr]
  · simp [tiling, getNumWaysDimSharded, hr]

/-- An axis that is cut along has more than one coordinate. -/
theorem one_lt_volume (hnames : s.spec'.names ≠ []) : 1 < volume s.mesh.axes := by
  obtain ⟨a, ha⟩ := List.exists_mem_of_ne_nil _ hnames
  obtain ⟨b, hb, rfl⟩ := List.mem_map.mp (s.names_spec'_subset ha)
  obtain ⟨l₁, l₂, hl⟩ := List.append_of_mem hb
  have hpos : ∀ c ∈ s.mesh'.axes, 0 < c.2 := s.mesh'.pos
  have hb1 : b.2 ≠ 1 := by simpa using (List.mem_filter.mp hb).2
  have hb0 := hpos b hb
  rw [← volume_mesh', hl, volume_append, volume_cons]
  rw [hl] at hpos
  have h1 := volume_pos fun c hc => hpos c (List.mem_append_left _ hc)
  have h2 := volume_pos fun c hc => hpos c (List.mem_append_right _ (List.mem_cons_of_mem _ hc))
  have hle : 1 * (2 * 1) ≤ volume l₁ * (b.2 * volume l₂) :=
    Nat.mul_le_mul h1 (Nat.mul_le_mul (by omega) h2)
  omega

theorem not_replicated_tiling (n : ℕ) (hnames : s.spec'.names ≠ []) :
    isHloShardingReplicated (s.tiling n) = false := by
  have h := one_lt_volume hnames
  rw [← numDevices_tiling n] at h
  have hne : s.tiling n ≠ .replicate := nofun
  simp only [isHloShardingReplicated, hne, or_false, decide_eq_false_iff_not]
  omega

/-- Each dimension is divided by its number of tiles. -/
theorem Divides.parts (h : s.Divides shape) :
    List.Forall₂ (fun dim n => 0 < n ∧ n ∣ dim) shape ((s.dimGroups shape.length).map volume) := by
  refine List.forall₂_iff_get.mpr ⟨by rw [List.length_map, s.length_dimGroups h.rank], ?_⟩
  intro d hd hd'
  have hgroup := s.getElem?_dimGroups h.rank hd
  have hget : ((s.dimGroups shape.length).map volume).get ⟨d, hd'⟩ = volume (s.axesAt d) := by
    rw [List.get_eq_getElem, List.getElem_map]
    have h' := List.getElem?_eq_getElem (l := s.dimGroups shape.length) (i := d)
      (by simpa using hd')
    rw [Option.some.inj (h'.symm.trans hgroup), volume_filter]
  rw [hget]
  exact ⟨volume_pos fun a ha => s.mesh.pos a (s.axesAt_subset d ha),
    h.divides d _ (List.getElem?_eq_getElem hd)⟩

/-! ## The placement -/

/-- The shards of an array are where the sharding says. -/
structure Placed (s : NamedSharding A) (shape shards : List ℕ)
    (indices : List (Option (List Slice))) : Prop where
  rank : shards.length = shape.length
  lengths : ∀ (d dim : ℕ), shape[d]? = some dim →
    ∃ len, shards[d]? = some len ∧ len * volume (s.axesAt d) = dim
  /-- All devices are assigned. -/
  devices : indices.length = volume s.mesh.axes ∧ ∀ e ∈ indices, e.isSome
  /-- The device at `c` has the slices with the numbers that `c` makes. -/
  slices : ∀ c, Digits c s.mesh.axes → ∃ idx, indices[radix c s.mesh.axes]? = some (some idx) ∧
    idx.length = shape.length ∧ ∀ (d dim len : ℕ), shape[d]? = some dim → shards[d]? = some len →
      ∃ sl : Slice, idx[d]? = some sl ∧
        sl.bounds dim = (radix c (s.axesAt d) * len, (radix c (s.axesAt d) + 1) * len)
  /-- An element is on one device for each coordinate of the unused axes. -/
  elements : ∀ x, Within shape x → indices.countP (onDevice shape x) = volume s.unusedAxes

theorem mapM_shards : ∀ {shape parts : List ℕ},
    List.Forall₂ (fun dim n => 0 < n ∧ n ∣ dim) shape parts →
    ((shape.zip parts).mapM fun p : ℕ × ℕ =>
      if p.1 % p.2 = 0 then Except.ok (p.1 / p.2) else .error ShardingError.indivisible) =
        .ok ((shape.zip parts).map fun p => p.1 / p.2)
  | _, _, .nil => rfl
  | dim :: shape, n :: parts, .cons hn h => by
      rw [List.zip_cons_cons, List.mapM_cons, mapM_shards h, if_pos (Nat.mod_eq_zero_of_dvd hn.2)]
      rfl

/-- Only the names of axes of size one: each device has everything. -/
theorem Divides.placed_replicate (h : s.Divides shape) (hnames : s.spec'.names = []) :
    Placed s shape shape
      (List.replicate (volume s.mesh.axes) (some (List.replicate shape.length .all))) := by
  have hempty : ∀ d, d < shape.length → (s.axesAt d).filter (fun a => a.2 ≠ 1) = [] := by
    intro d hd
    have hflat := s.flatten_dimGroups shape.length
    rw [hnames, axesOf, List.map_nil] at hflat
    exact List.flatten_eq_nil_iff.mp hflat _ (List.mem_of_getElem? (s.getElem?_dimGroups h.rank hd))
  have hvolume : ∀ d, d < shape.length → volume (s.axesAt d) = 1 := by
    intro d hd
    rw [← volume_filter, hempty d hd]
    rfl
  refine ⟨rfl, ?_, ⟨List.length_replicate, ?_⟩, ?_, ?_⟩
  · intro d dim hd
    obtain ⟨hlt, -⟩ := List.getElem?_eq_some_iff.mp hd
    exact ⟨dim, hd, by rw [hvolume d hlt, Nat.mul_one]⟩
  · intro e he
    rw [(List.mem_replicate.mp he).2]
    rfl
  · intro c hc
    refine ⟨List.replicate shape.length .all, ?_, List.length_replicate, ?_⟩
    · rw [List.getElem?_replicate, if_pos (radix_lt hc)]
    · intro d dim len hd hlen
      obtain ⟨hlt, -⟩ := List.getElem?_eq_some_iff.mp hd
      obtain rfl : dim = len := Option.some.inj (hd.symm.trans hlen)
      refine ⟨.all, by rw [List.getElem?_replicate, if_pos hlt], ?_⟩
      have hzero : radix c (s.axesAt d) = 0 := by
        have := radix_lt (hc.subset (s.axesAt_subset d))
        have := hvolume d hlt
        omega
      rw [hzero]
      simp [Slice.bounds]
  · intro x hx
    have hholds : ∀ {shape x : List ℕ}, Within shape x →
        holdsAll shape x (List.replicate shape.length .all) = true := by
      intro shape x hx
      induction hx with
      | nil => rfl
      | cons hlt _ ih => simp [List.replicate_succ, holdsAll, Slice.holds, Slice.bounds, hlt, ih]
    have hvol : volume s.unusedAxes = volume s.mesh.axes := by
      rw [← s.volume_replicated, ← volume_mesh']
      have hperm := s.replicated_perm
      rw [hnames] at hperm
      exact volume_perm hperm
    rw [hvol, List.countP_replicate]
    exact if_pos (hholds hx)

theorem getElem?_parts (hn : s.spec.partitions.length ≤ shape.length) {d : ℕ}
    (hd : d < shape.length) :
    ((s.dimGroups shape.length).map volume)[d]? = some (volume (s.axesAt d)) := by
  rw [List.getElem?_map, s.getElem?_dimGroups hn hd, Option.map_some, volume_filter]

/-- What the loop over the tiles has left is the placement. -/
theorem Divides.placed_tiling (h : s.Divides shape) {ls : List (List Slice)}
    {indices : List (Option (List Slice))}
    (hcuts : List.Forall₂ (fun p l => Cuts p.1 p.2 l)
      (shape.zip ((s.dimGroups shape.length).map volume)) ls)
    (hat : ∀ (t v : ℕ) (p : List Slice),
      (iotaDevices s.mesh'.axis_sizes (positions s.mesh'.axes
        ((s.dimGroups shape.length).flatten ++ replicatedMeshAxes s.mesh' s.spec')))[t]? = some v →
      ((product ls).flatMap (List.replicate (volume s.unusedAxes)))[t]? = some p →
      indices[v]? = some (some p))
    (hindices : indices.Perm
      (((product ls).flatMap (List.replicate (volume s.unusedAxes))).map some))
    (hlength : ((product ls).flatMap (List.replicate (volume s.unusedAxes))).length =
      volume s.mesh.axes) :
    Placed s shape
      ((shape.zip ((s.dimGroups shape.length).map volume)).map fun p => p.1 / p.2) indices := by
  have hlen : shape.length = ((s.dimGroups shape.length).map volume).length := by
    rw [List.length_map, s.length_dimGroups h.rank]
  have hshard : ∀ d dim : ℕ, shape[d]? = some dim →
      ((shape.zip ((s.dimGroups shape.length).map volume)).map fun p => p.1 / p.2)[d]? =
        some (dim / volume (s.axesAt d)) := by
    intro d dim hd
    obtain ⟨hlt, -⟩ := List.getElem?_eq_some_iff.mp hd
    have hzip : (shape.zip ((s.dimGroups shape.length).map volume))[d]? =
        some (dim, volume (s.axesAt d)) :=
      List.getElem?_zip_eq_some.mpr ⟨hd, getElem?_parts h.rank hlt⟩
    rw [List.getElem?_map, hzip]
    rfl
  refine ⟨?_, ?_, ⟨?_, ?_⟩, ?_, ?_⟩
  · rw [List.length_map, List.length_zip, ← hlen, Nat.min_self]
  · intro d dim hd
    exact ⟨_, hshard d dim hd, Nat.div_mul_cancel (h.divides d dim hd)⟩
  · rw [hindices.length_eq, List.length_map, hlength]
  · intro e he
    obtain ⟨p, -, rfl⟩ := List.mem_map.mp (hindices.mem_iff.mp he)
    rfl
  · intro c hc
    have hc' : Digits c s.mesh'.axes := hc.subset (List.filter_subset_self _)
    have hflat := hc'.subset (perm_mesh' (s := s) shape.length).subset
    have hwithin : Within ((s.dimGroups shape.length).map volume)
        ((s.dimGroups shape.length).map (radix c)) := by
      refine List.forall₂_map_left_iff.mpr (List.forall₂_map_right_iff.mpr ?_)
      refine List.forall₂_same.mpr fun g hg => radix_lt fun a ha => hflat a ?_
      exact List.mem_append_left _ (List.mem_flatten.mpr ⟨g, hg, ha⟩)
    obtain ⟨idx, hidx, hidxLen, hslices⟩ := exists_slices hlen hwithin hcuts
    refine ⟨idx, ?_, hidxLen, ?_⟩
    · rw [← radix_filter hc]
      refine hat _ _ _ (getElem?_iotaDevices s.mesh'.nodup (perm_mesh' _) hc') ?_
      have hrep : radix c (replicatedMeshAxes s.mesh' s.spec') < volume s.unusedAxes := by
        rw [← s.volume_replicated]
        exact radix_lt (hflat.subset (List.subset_append_right _ _))
      rw [radix_append, s.volume_replicated, (radix_flatten _).1,
        getElem?_flatMap_const hrep (fun _ _ => List.length_replicate) hidx,
        List.getElem?_replicate, if_pos hrep]
    · intro d dim len hd hlen'
      obtain ⟨hlt, -⟩ := List.getElem?_eq_some_iff.mp hd
      obtain rfl : dim / volume (s.axesAt d) = len :=
        Option.some.inj ((hshard d dim hd).symm.trans hlen')
      refine hslices d dim _ _ hd (getElem?_parts h.rank hlt) ?_
      rw [List.getElem?_map, s.getElem?_dimGroups h.rank hlt, Option.map_some,
        radix_filter (hc.subset (s.axesAt_subset d))]
  · intro x hx
    have hcount := countP_product hx h.parts hcuts
    have hsame : ((onDevice shape x) ∘ some) = holdsAll shape x := rfl
    rw [hindices.countP_eq, List.countP_map, hsame,
      countP_flatMap_const (n := volume s.unusedAxes) (q := holdsAll shape x), hcount, Nat.one_mul]
    intro sls _
    rw [List.countP_replicate]

/-- The sharding places every array that its spec divides. -/
theorem Divides.placed (h : s.Divides shape) :
    ∃ shards indices, shardShape s shape = .ok shards ∧ devicesIndicesMap s shape = .ok indices ∧
      Placed s shape shards indices := by
  by_cases hnames : s.spec'.names = []
  · have hconvert := h.convert
    rw [if_pos hnames] at hconvert
    have hshards : shardShape s shape = .ok shape := by
      rw [shardShape, hconvert]
      rfl
    refine ⟨shape, _, hshards, ?_, h.placed_replicate hnames⟩
    rw [devicesIndicesMap, hshards, ok_bind, hconvert]
    rfl
  · have hconvert := h.convert
    rw [if_neg hnames] at hconvert
    have hnot := not_replicated_tiling (s := s) shape.length hnames
    have hparts := h.parts
    have hlen : shape.length = ((s.dimGroups shape.length).map volume).length := by
      rw [List.length_map, s.length_dimGroups h.rank]
    have hshards : shardShape s shape =
        .ok ((shape.zip ((s.dimGroups shape.length).map volume)).map fun p => p.1 / p.2) := by
      rw [shardShape, hconvert, ok_bind, hnot, getNumWays_tiling]
      exact (if_pos hlen.symm).trans (mapM_shards hparts)
    obtain ⟨ls, hls, hcuts⟩ := mapM_axisIndices hparts
    -- the slices of each tile, once for each copy
    have hproduct : (product ls).length = volume (s.dimGroups shape.length).flatten := by
      rw [length_product, lengths_of_cuts hlen hcuts, (radix_flatten (c := fun _ => 0) _).2]
    have hrounds : ((product ls).flatMap (List.replicate (volume s.unusedAxes))).length =
        volume s.mesh'.axes := by
      rw [length_flatMap_const fun _ _ => List.length_replicate, hproduct, ← s.volume_replicated,
        ← volume_append, volume_perm (perm_mesh' _)]
    have hperm := perm_mesh' (s := s) shape.length
    obtain ⟨indices, hassign, hat, hindices⟩ :=
      assignLoop_perm (iotaDevices_perm s.mesh'.nodup hperm) hrounds
    refine ⟨_, indices, hshards, ?_, ?_⟩
    · rw [devicesIndicesMap, hshards, ok_bind, hconvert, ok_bind]
      refine (if_neg (by simp [tiling, HloSharding.subgroupTypes])).trans ?_
      unfold opShardingToNumpyIndices
      rw [hnot]
      have hnum := numDevices_tiling (s := s) shape.length
      have hways := getNumWays_tiling (s := s) shape.length
      rw [tiling, HloSharding.numDevices] at hnum
      rw [tiling] at hways ⊢
      simp only [Bool.false_eq_true, if_false]
      rw [if_pos hnum.symm, hways, ok_bind]
      refine (if_pos hlen.symm).trans ?_
      rw [hls, ok_bind, ← volume_mesh']
      exact hassign
    · exact h.placed_tiling hcuts hat hindices (hrounds.trans volume_mesh')

/-- A mesh of 2, 3 and 1, and a spec that cuts the first dimension along `y` and then `x`. -/
def smallMesh : Mesh String where
  axes := [("x", 2), ("y", 3), ("z", 1)]
  axis_types := fun _ => .auto
  nodup := by decide
  pos := by decide

def smallSharding : NamedSharding String where
  mesh := smallMesh
  spec := ⟨[.axes ["y", "x"], .axes ["z"]], [], []⟩
  constructed := ⟨by decide, by decide, by decide⟩
  checked := rfl

theorem smallSharding_placed : ∃ shards indices, shardShape smallSharding [6, 4] = .ok shards ∧
    devicesIndicesMap smallSharding [6, 4] = .ok indices ∧
      Placed smallSharding [6, 4] shards indices :=
  Divides.placed {
    manual := by decide
    unreduced := rfl
    rank := by decide
    divides := fun d dim h => by
      match d, h with
      | 0, h => obtain rfl : 6 = dim := by simpa using h
                exact ⟨1, rfl⟩
      | 1, h => obtain rfl : 4 = dim := by simpa using h
                exact ⟨4, rfl⟩ }

end NamedSharding

end JaxDas.Sharding
