import JaxDas.Lib.DistinctSets
import JaxDas.Sharding.Devices

/-!
# The tiling of a named sharding

The axes of the mesh, but for those of size one, in groups: those of each dimension in the order of
the spec, and then those that no dimension is cut along, by type. The sharding is the iota tiling
with a tile for each number of each group.
-/

namespace JaxDas.Sharding

variable {A : Type}

theorem keys_getArrayMapping (spec : PartitionSpec A) :
    (getArrayMapping spec).map Prod.fst = spec.names := by
  unfold getArrayMapping PartitionSpec.names
  generalize 0 = k
  induction spec.partitions generalizing k with
  | nil => rfl
  | cons p ps ih =>
      rw [List.zipIdx_cons, List.flatMap_cons, List.flatMap_cons, List.map_append, ih, List.map_map]
      congr 1
      exact List.map_id _

/-- The mapping is sorted already. -/
theorem mergeSort_getArrayMapping (spec : PartitionSpec A) :
    ((getArrayMapping spec).mergeSort fun x y => x.2 ≤ y.2) = getArrayMapping spec := by
  refine List.mergeSort_of_pairwise ?_
  unfold getArrayMapping
  generalize 0 = k
  induction spec.partitions generalizing k with
  | nil => exact .nil
  | cons p ps ih =>
      rw [List.zipIdx_cons, List.flatMap_cons, List.pairwise_append]
      refine ⟨List.pairwise_map.mpr (List.pairwise_of_forall fun _ _ => by simp), ih (k + 1), ?_⟩
      intro x hx y hy
      obtain ⟨a, -, rfl⟩ := List.mem_map.mp hx
      obtain ⟨q, hq, hy⟩ := List.mem_flatMap.mp hy
      obtain ⟨b, -, rfl⟩ := List.mem_map.mp hy
      have hle := (List.mk_mem_zipIdx_iff_le_and_getElem?_sub.mp (show (q.1, q.2) ∈ _ from hq)).1
      simp only [decide_eq_true_eq]
      omega

variable [DecidableEq A]

namespace NamedSharding

variable (s : NamedSharding A)

/-- `get_non_one_sized_mesh_spec` -/
def mesh' : Mesh A := nonOneSizedMesh s.mesh

def spec' : PartitionSpec A := nonOneSizedSpec s.spec s.mesh

/-- The axes of names, with their sizes. -/
def axesOf (names : List A) : List (A × ℕ) := names.map fun a => (a, s.mesh.shape a)

/-- The axes of size above one that each of `n` dimensions is cut along. -/
def dimGroups (n : ℕ) : List (List (A × ℕ)) :=
  (s.spec'.partitions.map fun p => s.axesOf p.names) ++
    List.replicate (n - s.spec'.partitions.length) []

/-- Besides, the axes that none is cut along. -/
def tileGroups (n : ℕ) : List (List (A × ℕ)) :=
  s.dimGroups n ++ (axesByType s.mesh' s.spec').map Prod.snd

theorem length_spec' : s.spec'.partitions.length = s.spec.partitions.length := by
  simp [spec', nonOneSizedSpec]

theorem length_dimGroups {n : ℕ} (hn : s.spec.partitions.length ≤ n) :
    (s.dimGroups n).length = n := by
  have := s.length_spec'
  simp only [dimGroups, List.length_append, List.length_map, List.length_replicate]
  omega

/-! ## The mesh and the spec without axes of size one -/

theorem shape_of_mem {mesh : Mesh A} {a : A × ℕ} (ha : a ∈ mesh.axes) : mesh.shape a.1 = a.2 := by
  rw [Mesh.shape, lookup_eq_some_of_nodup mesh.nodup ha]
  rfl

/-- An axis that is left has the size that it had. -/
theorem shape_mesh' {a : A} (ha : a ∈ s.mesh'.axis_names) : s.mesh'.shape a = s.mesh.shape a := by
  obtain ⟨b, hb, rfl⟩ := List.mem_map.mp ha
  rw [shape_of_mem hb, shape_of_mem (List.mem_of_mem_filter hb)]

theorem mem_mesh'_names {a : A} :
    a ∈ s.mesh'.axis_names ↔ a ∈ s.mesh.axis_names ∧ s.mesh.shape a ≠ 1 := by
  constructor
  · intro ha
    obtain ⟨b, hb, rfl⟩ := List.mem_map.mp ha
    obtain ⟨hb, h1⟩ := List.mem_filter.mp hb
    rw [shape_of_mem hb]
    exact ⟨List.mem_map_of_mem hb, by simpa using h1⟩
  · rintro ⟨ha, h1⟩
    obtain ⟨b, hb, rfl⟩ := List.mem_map.mp ha
    rw [shape_of_mem hb] at h1
    exact List.mem_map_of_mem (List.mem_filter.mpr ⟨hb, by simpa using h1⟩)

theorem names_spec' : s.spec'.names = s.spec.names.filter fun a => s.mesh.shape a ≠ 1 := by
  simp only [spec', nonOneSizedSpec, PartitionSpec.names]
  induction s.spec.partitions with
  | nil => rfl
  | cons p ps ih =>
      rw [List.map_cons, List.flatMap_cons, List.flatMap_cons, List.filter_append, ih]
      cases p <;> rfl

theorem names_spec'_subset {a : A} (ha : a ∈ s.spec'.names) : a ∈ s.mesh'.axis_names := by
  rw [names_spec'] at ha
  obtain ⟨ha, h1⟩ := List.mem_filter.mp ha
  exact (mem_mesh'_names s).mpr ⟨s.names_mem ha, by simpa using h1⟩

theorem names_spec'_nodup : s.spec'.names.Nodup := by
  rw [names_spec']
  exact s.names_nodup.filter _

/-- The axes of the new mesh with given names. -/
theorem axesOf_subset {names : List A} (h : ∀ a ∈ names, a ∈ s.mesh'.axis_names) :
    s.axesOf names ⊆ s.mesh'.axes := by
  intro a ha
  obtain ⟨n, hn, rfl⟩ := List.mem_map.mp ha
  obtain ⟨b, hb, rfl⟩ := List.mem_map.mp (h n hn)
  rwa [shape_of_mem (List.mem_of_mem_filter hb)]

end NamedSharding

/-! ## The loop -/

/-- The axes of one entry of the spec. -/
theorem tileLoop_entry (mesh : Mesh A) (rest : List (A × ℕ)) (pre post : List ℕ) :
    ∀ (names : List A) (v : ℕ) (perm : List ℕ),
      tileLoop mesh ((names.map fun a => (a, pre.length)) ++ rest) (pre ++ v :: post) perm =
        tileLoop mesh rest (pre ++ (v * volume (names.map fun a => (a, mesh.shape a))) :: post)
          (perm ++ names.map fun a => mesh.axis_names.idxOf a)
  | [], v, perm => by simp
  | a :: names, v, perm => by
      have hlt : pre.length < (pre ++ v :: post).length := by simp
      have hmod : (pre ++ v :: post).modify pre.length (· * mesh.shape a) =
          pre ++ (v * mesh.shape a) :: post := by
        clear hlt
        induction pre with
        | nil => rfl
        | cons b pre ih => exact congrArg (b :: ·) ih
      rw [List.map_cons, List.cons_append, tileLoop, if_pos hlt, hmod,
        tileLoop_entry mesh rest pre post names]
      simp only [List.map_cons, volume_cons, Nat.mul_assoc, List.append_assoc, List.singleton_append]

theorem tileLoop_entries (mesh : Mesh A) : ∀ (ps : List (Partition A)) (pre perm : List ℕ) (m : ℕ),
    ps.length ≤ m →
    tileLoop mesh ((ps.zipIdx pre.length).flatMap fun p => p.1.names.map fun name => (name, p.2))
        (pre ++ List.replicate m 1) perm =
      .ok (pre ++ (ps.map fun p => volume (p.names.map fun a => (a, mesh.shape a))) ++
          List.replicate (m - ps.length) 1,
        perm ++ (ps.flatMap Partition.names).map fun a => mesh.axis_names.idxOf a)
  | [], pre, perm, m, _ => by simp [tileLoop]
  | p :: ps, pre, perm, m, hm => by
      obtain ⟨m, rfl⟩ : ∃ k, m = k + 1 := ⟨m - 1, by simp only [List.length_cons] at hm; omega⟩
      have ih := tileLoop_entries mesh ps
        (pre ++ [volume (p.names.map fun a => (a, mesh.shape a))])
        (perm ++ p.names.map fun a => mesh.axis_names.idxOf a) m (by simpa using hm)
      rw [List.length_append, List.length_singleton] at ih
      rw [List.zipIdx_cons, List.flatMap_cons, List.replicate_succ, tileLoop_entry, Nat.one_mul]
      rw [List.append_assoc, List.singleton_append] at ih
      rw [ih]
      simp

/-! ## The groups -/

namespace NamedSharding

variable (s : NamedSharding A)

theorem flatten_dimGroups (n : ℕ) : (s.dimGroups n).flatten = s.axesOf s.spec'.names := by
  rw [dimGroups, List.flatten_append, List.flatten_replicate_nil, List.append_nil, axesOf,
    PartitionSpec.names, ← List.flatMap_def, List.map_flatMap]
  rfl

/-- The axes that are cut along, and the others. -/
theorem replicated_perm : (s.axesOf s.spec'.names ++ replicatedMeshAxes s.mesh' s.spec').Perm
    s.mesh'.axes := by
  have hcut : (s.axesOf s.spec'.names).Perm
      (s.mesh'.axes.filter fun a => a.1 ∈ s.spec'.names) := by
    have hnd : (s.axesOf s.spec'.names).Nodup := by
      refine (List.Nodup.of_map Prod.fst ?_)
      rw [axesOf, List.map_map]
      exact (List.map_id _).symm ▸ s.names_spec'_nodup
    refine (List.perm_ext_iff_of_nodup hnd (s.mesh'.nodup.of_map.filter _)).mpr fun a => ?_
    constructor
    · intro ha
      refine List.mem_filter.mpr ⟨s.axesOf_subset (fun _ h => s.names_spec'_subset h) ha, ?_⟩
      obtain ⟨b, hb, rfl⟩ := List.mem_map.mp ha
      exact decide_eq_true hb
    · intro ha
      obtain ⟨ha, hn⟩ := List.mem_filter.mp ha
      refine List.mem_map.mpr ⟨a.1, of_decide_eq_true hn, ?_⟩
      rw [← s.shape_mesh' (List.mem_map_of_mem ha), shape_of_mem ha]
  have hrest : replicatedMeshAxes s.mesh' s.spec' =
      s.mesh'.axes.filter fun a => !decide (a.1 ∈ s.spec'.names) := by
    rw [replicatedMeshAxes, keys_getArrayMapping]
    refine List.filter_congr fun a _ => ?_
    simp
  rw [hrest]
  exact (hcut.append_right _).trans (List.filter_append_perm _ _)

theorem filter_ne_nil_flatten {α β : Type} [DecidableEq β] (l : List (α × List β)) :
    ((l.filter fun g => g.2 ≠ []).map Prod.snd).flatten = (l.map Prod.snd).flatten := by
  induction l with
  | nil => rfl
  | cons g l ih =>
      by_cases h : g.2 = []
      · rw [List.filter_cons_of_neg (by simpa using h), List.map_cons, List.flatten_cons, h, ih]
        rfl
      · rw [List.filter_cons_of_pos (by simpa using h), List.map_cons, List.map_cons,
          List.flatten_cons, List.flatten_cons, ih]

theorem axesByType_perm (mesh : Mesh A) (spec : PartitionSpec A) :
    ((axesByType mesh spec).map Prod.snd).flatten.Perm (replicatedMeshAxes mesh spec) := by
  rw [axesByType, filter_ne_nil_flatten]
  simp only [List.map_cons, List.map_nil, List.flatten_cons, List.flatten_nil, List.append_nil]
  induction replicatedMeshAxes mesh spec with
  | nil => exact .nil
  | cons a l ih =>
      cases h : typeOf mesh spec a.1 with
      | replicated => simpa [h] using ih
      | manual =>
          simp only [List.filter_cons, h, reduceCtorEq, decide_false, decide_true, if_true,
            Bool.false_eq_true, if_false, List.cons_append]
          exact List.perm_middle.trans (ih.cons a)
      | unreduced =>
          simp only [List.filter_cons, h, reduceCtorEq, decide_false, decide_true, if_true,
            Bool.false_eq_true, if_false, ← List.append_assoc]
          refine List.perm_middle.trans (.cons a ?_)
          rw [List.append_assoc]
          exact ih

/-- All axes are in one of the groups. -/
theorem tileGroups_perm (n : ℕ) : (s.tileGroups n).flatten.Perm s.mesh'.axes := by
  rw [tileGroups, List.flatten_append, s.flatten_dimGroups]
  exact ((axesByType_perm _ _).append_left _).trans s.replicated_perm

theorem unreduced_spec'_subset {a : A} (ha : a ∈ s.spec'.unreduced) : a ∈ s.mesh'.axis_names := by
  obtain ⟨ha, h1⟩ := List.mem_filter.mp ha
  exact (mem_mesh'_names s).mpr ⟨s.unreduced_mem ha, by simpa using h1⟩

theorem typeOf_eq_replicated {a : A} (hmanual : s.mesh.axis_types a ≠ .manual) :
    typeOf s.mesh' s.spec' a = .replicated ↔ a ∉ s.spec'.unreduced := by
  have hmanual' : s.mesh'.axis_types a ≠ .manual := hmanual
  unfold typeOf
  rw [if_neg hmanual']
  by_cases h : a ∈ s.spec'.unreduced
  · simp [h]
  · simp [h]

/-- Without manual axes the special ones are the unreduced ones. -/
theorem mem_specialAxes (hmanual : ∀ a ∈ s.mesh.axis_names, s.mesh.axis_types a ≠ .manual) {a : A} :
    a ∈ specialAxes s.mesh' s.spec' ↔ a ∈ s.spec'.unreduced := by
  have hne : ∀ a ∈ s.mesh'.axis_names, s.mesh.axis_types a ≠ .manual := fun a ha =>
    hmanual a ((mem_mesh'_names s).mp ha).1
  constructor
  · intro ha
    obtain ⟨ha, htype⟩ := List.mem_filter.mp ha
    have htype := of_decide_eq_true htype
    rwa [ne_eq, s.typeOf_eq_replicated (hne a ha), not_not] at htype
  · intro ha
    have hmem := s.unreduced_spec'_subset ha
    refine List.mem_filter.mpr ⟨hmem, decide_eq_true ?_⟩
    rw [ne_eq, s.typeOf_eq_replicated (hne a hmem), not_not]
    exact ha

theorem specialAxes_eq_nil (hmanual : ∀ a ∈ s.mesh.axis_names, s.mesh.axis_types a ≠ .manual) :
    specialAxes s.mesh' s.spec' = [] ↔ s.spec'.unreduced = [] := by
  rw [List.eq_nil_iff_forall_not_mem, List.eq_nil_iff_forall_not_mem]
  exact forall_congr' fun a => not_congr (s.mem_specialAxes hmanual)

theorem length_replicated :
    (replicatedMeshAxes s.mesh' s.spec').length = s.mesh'.axes.length ↔ s.spec'.names = [] := by
  have h := s.replicated_perm.length_eq
  rw [List.length_append, axesOf, List.length_map] at h
  rw [← List.length_eq_zero_iff]
  omega

/-- An unreduced axis is one that no dimension is cut along. -/
theorem specialAxes_subset (hmanual : ∀ a ∈ s.mesh.axis_names, s.mesh.axis_types a ≠ .manual) :
    specialAxes s.mesh' s.spec' ⊆ (replicatedMeshAxes s.mesh' s.spec').map Prod.fst := by
  intro a ha
  have ha := (s.mem_specialAxes hmanual).mp ha
  have hmem := s.unreduced_spec'_subset ha
  obtain ⟨b, hb, rfl⟩ := List.mem_map.mp hmem
  refine List.mem_map_of_mem (List.mem_filter.mpr ⟨hb, decide_eq_true ?_⟩)
  rw [keys_getArrayMapping, names_spec']
  intro hnames
  exact s.constructed.unreduced b.1 (List.mem_of_mem_filter hnames) (List.mem_of_mem_filter ha)

/-- The conversion, for a mesh without manual axes and an array of rank `n`. -/
theorem convert_eq (hmanual : ∀ a ∈ s.mesh.axis_names, s.mesh.axis_types a ≠ .manual) {n : ℕ}
    (hn : s.spec.partitions.length ≤ n) :
    namedShardingToXlaHloSharding s n =
      if s.spec'.names = [] ∧ s.spec'.unreduced = [] then .ok .replicate
      else .ok (iotaTile ((s.tileGroups n).map volume) s.mesh'.axis_sizes
        (positions s.mesh'.axes (s.tileGroups n).flatten)
        ((axesByType s.mesh' s.spec').map Prod.fst)) := by
  have hlen : s.spec'.partitions.length ≤ n := by
    simpa [spec', nonOneSizedSpec] using hn
  have hloop := tileLoop_entries s.mesh' s.spec'.partitions [] [] n hlen
  have hshape : (s.spec'.partitions.map fun p =>
      volume (p.names.map fun a => (a, s.mesh'.shape a))) =
        s.spec'.partitions.map fun p => volume (s.axesOf p.names) := by
    refine List.map_congr_left fun p hp => congrArg volume (List.map_congr_left fun a ha => ?_)
    rw [s.shape_mesh' (s.names_spec'_subset (List.mem_flatMap.mpr ⟨p, hp, ha⟩))]
  rw [hshape] at hloop
  replace hloop : tileLoop s.mesh'
      ((getArrayMapping s.spec').mergeSort fun x y => x.2 ≤ y.2) (List.replicate n 1) [] =
        .ok ((s.spec'.partitions.map fun p => volume (s.axesOf p.names)) ++
          List.replicate (n - s.spec'.partitions.length) 1,
          s.spec'.names.map fun a => s.mesh'.axis_names.idxOf a) := by
    rw [mergeSort_getArrayMapping]
    exact hloop
  have hdims : (s.dimGroups n).map volume =
      (s.spec'.partitions.map fun p => volume (s.axesOf p.names)) ++
        List.replicate (n - s.spec'.partitions.length) 1 := by
    rw [dimGroups, List.map_append, List.map_map, List.map_replicate]
    rfl
  have hpositions : positions s.mesh'.axes (s.tileGroups n).flatten =
      (s.spec'.names.map fun a => s.mesh'.axis_names.idxOf a) ++
        (axesByType s.mesh' s.spec').flatMap fun g =>
          g.2.map fun a => s.mesh'.axis_names.idxOf a.1 := by
    rw [tileGroups, List.flatten_append, s.flatten_dimGroups, positions, List.map_append,
      ← List.flatMap_def, List.map_flatMap, axesOf, List.map_map]
    rfl
  have hcond : ((replicatedMeshAxes s.mesh' s.spec').length = s.mesh'.axes.length ∧
      specialAxes s.mesh' s.spec' = []) ↔ s.spec'.names = [] ∧ s.spec'.unreduced = [] :=
    and_congr s.length_replicated (s.specialAxes_eq_nil hmanual)
  change (if (replicatedMeshAxes s.mesh' s.spec').length = s.mesh'.axes.length ∧
      specialAxes s.mesh' s.spec' = [] then _ else _) = _
  simp only [hcond]
  split
  · rfl
  · have hassert : ¬ (replicatedMeshAxes s.mesh' s.spec' ≠ [] ∧
        ¬ specialAxes s.mesh' s.spec' ⊆ (replicatedMeshAxes s.mesh' s.spec').map Prod.fst) :=
      fun h => h.2 (s.specialAxes_subset hmanual)
    refine bind_ok.mpr ⟨_, hloop, (if_neg hassert).trans ?_⟩
    rw [hpositions, tileGroups, List.map_append, hdims, List.map_map]
    rfl

end NamedSharding

end JaxDas.Sharding
