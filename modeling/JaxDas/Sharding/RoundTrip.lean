import JaxDas.Sharding.Unflatten

/-!
# Specs through XLA and back

What `parseFlattenOpSharding` makes of the tiling of a named sharding. The last dimension of the
tiling, of the axes that no dimension of the array is cut along, is dropped if these are replicated.
If they are unreduced it is kept, and the parsed spec cuts a dimension along them that the array
does not have.
-/

namespace JaxDas.Sharding

variable {A : Type}

/-! ## Trailing partitions -/

theorem dropTrailing_append_replicate (l : List (List A)) (k : ℕ) :
    dropTrailing (l ++ List.replicate k []) = dropTrailing l := by
  unfold dropTrailing
  rw [List.reverse_append, List.reverse_replicate, List.dropWhile_append_of_pos]
  intro p hp
  simpa using (List.mem_replicate.mp hp).2

theorem dropTrailing_getLast (l : List (List A)) : (dropTrailing l).getLast? ≠ some [] := by
  unfold dropTrailing
  rw [List.getLast?_reverse]
  intro h
  have hnot := List.head?_dropWhile_not (fun p : List A => decide (p = [])) l.reverse
  rw [h] at hnot
  simp at hnot

theorem dropTrailing_concat {l : List (List A)} {p : List A} (hp : p ≠ []) :
    dropTrailing (l ++ [p]) = l ++ [p] := by
  unfold dropTrailing
  rw [List.reverse_append, List.reverse_singleton, List.singleton_append,
    List.dropWhile_cons_of_neg (by simpa using hp), List.reverse_cons, List.reverse_reverse]

theorem getD_dropTrailing (l : List (List A)) (d : ℕ) :
    (dropTrailing l)[d]?.getD [] = l[d]?.getD [] := by
  induction l using List.reverseRecOn with
  | nil => rfl
  | append_singleton l p ih =>
      by_cases hp : p = []
      · subst hp
        have h := dropTrailing_append_replicate l 1
        rw [List.replicate_one] at h
        rw [h, ih]
        rcases Nat.lt_trichotomy d l.length with hd | hd | hd
        · rw [List.getElem?_append_left hd]
        · subst hd
          simp
        · rw [List.getElem?_eq_none (by omega), List.getElem?_eq_none (by simp; omega)]
      · rw [dropTrailing_concat hp]

variable [DecidableEq A]

/-! ## What is to be kept -/

/-- The axes that a spec cuts the dimension `d` along. -/
def PartitionSpec.axesAt (spec : PartitionSpec A) (d : ℕ) : List A :=
  match spec.partitions[d]? with
  | some p => p.names
  | none => []

namespace NamedSharding

variable (s : NamedSharding A)

/-- A spec that cuts the same dimensions along the same axes, but for those of size one. -/
structure Kept (spec : PartitionSpec A) : Prop where
  entries : ∀ d : ℕ, spec.axesAt d = (s.spec.axesAt d).filter fun a => s.mesh.shape a ≠ 1
  trailing : spec.partitions.getLast? ≠ some (.axes [])

/-- What is to come of the spec: `NotImplementedError`, or one spec, that is the same. -/
def Returned : Except ParseError (List (PartitionSpec A)) → Prop
  | .error e => e = .notImplemented
  | .ok specs => ∃ spec, specs = [spec] ∧ s.Kept spec

/-- The spec of the sharding of an array of rank `n` survives. -/
def Survives (n : ℕ) : Prop :=
  ∃ hlo, namedShardingToXlaHloSharding s n = .ok hlo ∧
    s.Returned (parseFlattenOpSharding hlo s.mesh)

end NamedSharding

/-! ## Taking the partitions -/

theorem takeAxes_volume {mesh : Mesh A} {rest : List A} : ∀ {group : List (A × ℕ)},
    (∀ a ∈ group, 1 < a.2 ∧ mesh.shape a.1 = a.2) →
      takeAxes mesh (volume group) (group.map Prod.fst ++ rest) =
        .ok (group.map Prod.fst, rest)
  | [], _ => by cases rest <;> rfl
  | a :: group, h => by
      obtain ⟨h1, hshape⟩ := h a List.mem_cons_self
      have hgroup : ∀ b ∈ group, 1 < b.2 ∧ mesh.shape b.1 = b.2 := fun b hb =>
        h b (List.mem_cons_of_mem _ hb)
      have hpos : 0 < volume group :=
        volume_pos fun b hb => Nat.lt_trans Nat.one_pos (hgroup b hb).1
      have hlt : 1 < a.2 * volume group := by
        have hle : 2 * 1 ≤ a.2 * volume group := Nat.mul_le_mul h1 hpos
        omega
      rw [List.map_cons, List.cons_append, takeAxes, volume_cons, if_pos hlt, hshape,
        if_pos (Nat.mul_mod_right _ _), Nat.mul_div_cancel_left _ (Nat.lt_trans Nat.one_pos h1),
        takeAxes_volume hgroup]
      rfl

theorem takePartitions_volumes {mesh : Mesh A} : ∀ {groups : List (List (A × ℕ))},
    (∀ a ∈ groups.flatten, 1 < a.2 ∧ mesh.shape a.1 = a.2) →
      takePartitions mesh (groups.map volume) (groups.flatten.map Prod.fst) =
        .ok (groups.map fun group => group.map Prod.fst)
  | [], _ => rfl
  | group :: groups, h => by
      have hgroup : ∀ a ∈ group, 1 < a.2 ∧ mesh.shape a.1 = a.2 := fun a ha =>
        h a (List.mem_append_left _ ha)
      have hgroups : ∀ a ∈ groups.flatten, 1 < a.2 ∧ mesh.shape a.1 = a.2 := fun a ha =>
        h a (List.mem_append_right _ ha)
      rw [List.map_cons, takePartitions, List.flatten_cons, List.map_append,
        takeAxes_volume hgroup, ok_bind]
      simp only [takePartitions_volumes hgroups, ok_bind]
      rfl

/-! ## The spec that is parsed -/

namespace NamedSharding

variable {s : NamedSharding A}

theorem axesAt_spec (d : ℕ) : (s.spec.axesAt d).filter (fun a => s.mesh.shape a ≠ 1) =
    (s.spec'.partitions.map Partition.names)[d]?.getD [] := by
  unfold PartitionSpec.axesAt spec' nonOneSizedSpec
  rw [List.map_map, List.getElem?_map]
  cases s.spec.partitions[d]? with
  | none => rfl
  | some p => cases p <;> rfl

/-- The spec with these axes for the dimensions is kept. -/
theorem kept_dropTrailing {l : List (List A)}
    (h : dropTrailing l = dropTrailing (s.spec'.partitions.map Partition.names)) :
    s.Kept ⟨(dropTrailing l).map .axes, [], []⟩ where
  entries := by
    intro d
    rw [axesAt_spec, ← getD_dropTrailing (s.spec'.partitions.map Partition.names), ← h]
    unfold PartitionSpec.axesAt
    rw [List.getElem?_map]
    cases (dropTrailing l)[d]? <;> rfl
  trailing := by
    rw [List.getLast?_map]
    intro hlast
    obtain ⟨p, hp, heq⟩ := Option.map_eq_some_iff.mp hlast
    injection heq with heq
    exact dropTrailing_getLast l (heq ▸ hp)

/-- The names of the axes that each dimension is cut along. -/
theorem dimGroups_names (n : ℕ) : ((s.dimGroups n).map fun group => group.map Prod.fst) =
    s.spec'.partitions.map Partition.names ++
      List.replicate (n - s.spec'.partitions.length) [] := by
  rw [dimGroups, List.map_append, List.map_map, List.map_replicate]
  congr 1
  refine List.map_congr_left fun p _ => ?_
  simp only [Function.comp_apply, axesOf, List.map_map]
  exact List.map_id _

/-- The partitions that are taken are the groups. -/
theorem parse_tiling (n : ℕ) (last : Bool) (types : List OpShardingType) :
    parseFlattenOpSharding (.tiled ((s.tileGroups n).map volume)
        (iotaDevices s.mesh'.axis_sizes (positions s.mesh'.axes (s.tileGroups n).flatten))
        last types) s.mesh =
      if 1 < types.length then .error .notImplemented
      else
        let partitions := (s.tileGroups n).map fun group => group.map Prod.fst
        let partitions := if last then partitions.dropLast else partitions
        .ok [⟨(dropTrailing partitions).map .axes, [], []⟩] := by
  have hperm := s.tileGroups_perm n
  have hself : (s.tileGroups n).flatten.filter (fun a => a.2 ≠ 1) = (s.tileGroups n).flatten :=
    List.filter_eq_self.mpr fun a ha => (List.mem_filter.mp (hperm.mem_iff.mp ha)).2
  have horder := @unflattenArray_iotaDevices _ _ s.mesh' _ hperm
  rw [hself] at horder
  have horder' : unflattenArray s.mesh.axes (iotaDevices s.mesh'.axis_sizes
      (positions s.mesh'.axes (s.tileGroups n).flatten)) =
        .ok ((s.tileGroups n).flatten.map Prod.fst) := by
    rw [← horder]
    unfold unflattenArray mesh' nonOneSizedMesh
    simp only [List.filter_filter, Bool.and_self]
    rfl
  have hsizes : ∀ a ∈ (s.tileGroups n).flatten, 1 < a.2 ∧ s.mesh.shape a.1 = a.2 := by
    intro a ha
    obtain ⟨ha, h1⟩ := List.mem_filter.mp (hperm.mem_iff.mp ha)
    have h0 := s.mesh.pos a ha
    have h1 : a.2 ≠ 1 := by simpa using h1
    exact ⟨by omega, shape_of_mem ha⟩
  rw [parseFlattenOpSharding, horder', ok_bind, takePartitions_volumes hsizes, ok_bind]

/-! ## The groups of the other axes -/

/-- The replicated and the unreduced axes. -/
theorem axesByType_filter (hmanual : ∀ a ∈ s.mesh.axis_names, s.mesh.axis_types a ≠ .manual) :
    axesByType s.mesh' s.spec' =
      [(OpShardingType.replicated,
          (replicatedMeshAxes s.mesh' s.spec').filter fun a => a.1 ∉ s.spec'.unreduced),
        (.unreduced,
          (replicatedMeshAxes s.mesh' s.spec').filter fun a => a.1 ∈ s.spec'.unreduced)].filter
        fun group => group.2 ≠ [] := by
  have htype : ∀ a ∈ replicatedMeshAxes s.mesh' s.spec', typeOf s.mesh' s.spec' a.1 =
      if a.1 ∈ s.spec'.unreduced then .unreduced else .replicated := by
    intro a ha
    have hmem : a.1 ∈ s.mesh'.axis_names := List.mem_map_of_mem (List.mem_of_mem_filter ha)
    have hne : s.mesh'.axis_types a.1 ≠ .manual := hmanual a.1 ((mem_mesh'_names s).mp hmem).1
    rw [typeOf, if_neg hne]
  have hreplicated : ((replicatedMeshAxes s.mesh' s.spec').filter fun a =>
      typeOf s.mesh' s.spec' a.1 = .replicated) =
        (replicatedMeshAxes s.mesh' s.spec').filter fun a => a.1 ∉ s.spec'.unreduced := by
    refine List.filter_congr fun a ha => ?_
    rw [htype a ha]
    split <;> simp [*]
  have hnone : ((replicatedMeshAxes s.mesh' s.spec').filter fun a =>
      typeOf s.mesh' s.spec' a.1 = .manual) = [] := by
    refine List.filter_eq_nil_iff.mpr fun a ha => ?_
    rw [htype a ha]
    split <;> simp
  have hunreduced : ((replicatedMeshAxes s.mesh' s.spec').filter fun a =>
      typeOf s.mesh' s.spec' a.1 = .unreduced) =
        (replicatedMeshAxes s.mesh' s.spec').filter fun a => a.1 ∈ s.spec'.unreduced := by
    refine List.filter_congr fun a ha => ?_
    rw [htype a ha]
    split <;> simp [*]
  rw [axesByType]
  simp only [List.map_cons, List.map_nil, hnone, hreplicated, hunreduced]
  rfl

theorem mem_replicated {a : A × ℕ} : a ∈ replicatedMeshAxes s.mesh' s.spec' ↔
    a ∈ s.mesh'.axes ∧ a.1 ∉ s.spec'.names := by
  rw [replicatedMeshAxes, keys_getArrayMapping, List.mem_filter, decide_eq_true_eq]

theorem unreduced_eq_nil :
    (replicatedMeshAxes s.mesh' s.spec').filter (fun a => a.1 ∈ s.spec'.unreduced) = [] ↔
      ∀ u ∈ s.spec.unreduced, s.mesh.shape u = 1 := by
  rw [List.filter_eq_nil_iff]
  constructor
  · intro h u hu
    by_contra h1
    have hu' : u ∈ s.spec'.unreduced := List.mem_filter.mpr ⟨hu, by simpa using h1⟩
    obtain ⟨b, hb, rfl⟩ := List.mem_map.mp (s.unreduced_spec'_subset hu')
    have hnot : b.1 ∉ s.spec'.names := by
      rw [names_spec']
      intro hname
      exact s.constructed.unreduced b.1 (List.mem_of_mem_filter hname) hu
    exact h b (mem_replicated.mpr ⟨hb, hnot⟩) (decide_eq_true hu')
  · intro h a _ hu
    obtain ⟨hu, h1⟩ := List.mem_filter.mp (of_decide_eq_true hu)
    rw [h a.1 hu] at h1
    simp at h1

theorem replicated_eq_nil :
    (replicatedMeshAxes s.mesh' s.spec').filter (fun a => a.1 ∉ s.spec'.unreduced) = [] ↔
      ¬ ∃ a ∈ s.mesh.axis_names, s.mesh.shape a ≠ 1 ∧ a ∉ s.spec.names ∧
        a ∉ s.spec.unreduced := by
  rw [List.filter_eq_nil_iff]
  constructor
  · rintro h ⟨a, ha, h1, hname, hu⟩
    obtain ⟨b, hb, rfl⟩ := List.mem_map.mp ((mem_mesh'_names s).mpr ⟨ha, h1⟩)
    have hname' : b.1 ∉ s.spec'.names := by
      rw [names_spec']
      exact fun hmem => hname (List.mem_of_mem_filter hmem)
    have hu' : b.1 ∉ s.spec'.unreduced := fun hmem => hu (List.mem_of_mem_filter hmem)
    exact h b (mem_replicated.mpr ⟨hb, hname'⟩) (decide_eq_true hu')
  · intro h a ha hu
    obtain ⟨hmem, hname⟩ := mem_replicated.mp ha
    obtain ⟨hmesh, h1⟩ := (mem_mesh'_names s).mp (List.mem_map_of_mem hmem)
    have hfilter : decide (s.mesh.shape a.1 ≠ 1) = true := decide_eq_true h1
    refine h ⟨a.1, hmesh, h1, ?_, ?_⟩
    · intro hmem
      rw [names_spec'] at hname
      exact hname (List.mem_filter.mpr ⟨hmem, hfilter⟩)
    · intro hmem
      exact of_decide_eq_true hu (List.mem_filter.mpr ⟨hmem, hfilter⟩)

/-! ## What comes back -/

theorem survives_of_convert {n : ℕ} {hlo : HloSharding}
    (h : namedShardingToXlaHloSharding s n = .ok hlo) :
    s.Survives n ↔ s.Returned (parseFlattenOpSharding hlo s.mesh) := by
  constructor
  · rintro ⟨hlo', h', hreturned⟩
    rw [h] at h'
    injection h' with h'
    exact h' ▸ hreturned
  · intro hreturned
    exact ⟨hlo, h, hreturned⟩

theorem returned_ok {spec : PartitionSpec A} : s.Returned (.ok [spec]) ↔ s.Kept spec := by
  constructor
  · rintro ⟨spec', heq, hkept⟩
    exact List.singleton_inj.mp heq ▸ hkept
  · intro hkept
    exact ⟨spec, rfl, hkept⟩

/-- The groups of the dimensions alone are the spec. -/
theorem kept_dimGroups (n : ℕ) : s.Kept
    ⟨(dropTrailing ((s.dimGroups n).map fun group => group.map Prod.fst)).map .axes, [], []⟩ := by
  refine kept_dropTrailing ?_
  rw [dimGroups_names, dropTrailing_append_replicate]

/-- An array that is not cut. -/
theorem kept_replicate (h : s.spec'.names = []) : s.Kept ⟨[], [], []⟩ := by
  refine kept_dropTrailing (l := []) ?_
  have hnil : s.spec'.partitions.map Partition.names =
      [] ++ List.replicate s.spec'.partitions.length [] := by
    rw [List.nil_append]
    refine List.eq_replicate_iff.mpr ⟨List.length_map _, fun names hnames => ?_⟩
    obtain ⟨p, hp, rfl⟩ := List.mem_map.mp hnames
    exact List.flatMap_eq_nil_iff.mp h p hp
  rw [hnil, dropTrailing_append_replicate]

/-- A dimension after those of the array. -/
theorem not_kept_extra {n : ℕ} (hn : s.spec.partitions.length ≤ n) {extra : List A}
    (hextra : extra ≠ []) : ¬ s.Kept
      ⟨(dropTrailing (((s.dimGroups n).map fun group => group.map Prod.fst) ++ [extra])).map .axes,
        [], []⟩ := by
  intro h
  have hentry := h.entries n
  rw [dropTrailing_concat hextra] at hentry
  unfold PartitionSpec.axesAt at hentry
  rw [List.getElem?_eq_none hn, List.getElem?_map,
    List.getElem?_append_right (by rw [List.length_map, s.length_dimGroups hn]), List.length_map,
    s.length_dimGroups hn, Nat.sub_self] at hentry
  exact hextra hentry

/-- The axis order of every transposed iota is found; a spec survives if it has no unreduced axis of
size above one, or if there is also such an axis that is neither unreduced nor in an entry. -/
theorem survives_iff (hmanual : ∀ a ∈ s.mesh.axis_names, s.mesh.axis_types a ≠ .manual) {n : ℕ}
    (hn : s.spec.partitions.length ≤ n) :
    (∀ flat : List (A × ℕ), flat.Perm s.mesh.axes →
      unflattenArray s.mesh.axes
          (iotaDevices (s.mesh.axes.map Prod.snd) (positions s.mesh.axes flat)) =
        .ok ((flat.filter fun a => a.2 ≠ 1).map Prod.fst)) ∧
    (s.Survives n ↔ (∀ u ∈ s.spec.unreduced, s.mesh.shape u = 1) ∨
      ∃ a ∈ s.mesh.axis_names, s.mesh.shape a ≠ 1 ∧ a ∉ s.spec.names ∧ a ∉ s.spec.unreduced) := by
  refine ⟨fun flat hperm => unflattenArray_iotaDevices hperm, ?_⟩
  have hconvert := s.convert_eq hmanual hn
  have hgroups : ((s.tileGroups n).map fun group => group.map Prod.fst) =
      ((s.dimGroups n).map fun group => group.map Prod.fst) ++
        (axesByType s.mesh' s.spec').map fun group => group.2.map Prod.fst := by
    rw [tileGroups, List.map_append, List.map_map]
    rfl
  rw [← unreduced_eq_nil, ← not_iff_comm.mp replicated_eq_nil.symm]
  have htypes := axesByType_filter hmanual
  split at hconvert
  · -- nothing to say of any axis
    rename_i hnone
    rw [survives_of_convert hconvert, parseFlattenOpSharding, returned_ok]
    refine iff_of_true (kept_replicate hnone.1) (.inl ?_)
    rw [hnone.2]
    simp
  · rw [survives_of_convert hconvert, iotaTile]
    generalize (replicatedMeshAxes s.mesh' s.spec').filter
      (fun a => a.1 ∉ s.spec'.unreduced) = replicated at htypes ⊢
    generalize (replicatedMeshAxes s.mesh' s.spec').filter
      (fun a => a.1 ∈ s.spec'.unreduced) = unreduced at htypes ⊢
    by_cases hr : replicated = []
    · by_cases hu : unreduced = []
      · -- all axes are used
        have hnil : axesByType s.mesh' s.spec' = [] := by simpa [hr, hu] using htypes
        rw [hnil] at hgroups ⊢
        rw [if_neg (by simp), parse_tiling, if_neg (by simp), hgroups]
        simpa [hu, returned_ok] using kept_dimGroups n
      · have hone : axesByType s.mesh' s.spec' = [(.unreduced, unreduced)] := by
          simpa [hr, hu] using htypes
        rw [hone] at hgroups ⊢
        have hextra : unreduced.map Prod.fst ≠ [] := by simpa using hu
        rw [if_neg (by simp), parse_tiling, if_neg (by simp), hgroups]
        simpa [hr, hu, returned_ok] using not_kept_extra hn hextra
    · by_cases hu : unreduced = []
      · have hone : axesByType s.mesh' s.spec' = [(.replicated, replicated)] := by
          simpa [hr, hu] using htypes
        rw [hone] at hgroups ⊢
        rw [if_pos (by simp), parse_tiling, if_neg (by simp), hgroups]
        simpa [hu, returned_ok] using kept_dimGroups n
      · -- two types of subgroups
        have htwo : axesByType s.mesh' s.spec' =
            [(.replicated, replicated), (.unreduced, unreduced)] := by simpa [hr, hu] using htypes
        rw [htwo, if_neg (by simp), parse_tiling, if_pos (by simp)]
        exact iff_of_true rfl (.inr hr)

/-- An array of rank two, cut along `u` and then `x`, on a mesh that has `x` first. -/
def swappedSharding : NamedSharding String where
  mesh :=
    { axes := [("x", 2), ("u", 3), ("z", 1)]
      axis_types := fun _ => .explicit
      nodup := by decide
      pos := by decide }
  spec := ⟨[.axes ["u", "x"], .axes ["z"]], [], []⟩
  constructed := ⟨by decide, by decide, by decide⟩
  checked := rfl

theorem swappedSharding_survives : swappedSharding.Survives 2 :=
  (survives_iff (by decide) (by decide)).2.mpr (.inl nofun)

/-- An array of rank one, cut along `x` and unreduced along `u`. -/
def unreducedSharding : NamedSharding String where
  mesh :=
    { axes := [("x", 2), ("u", 2)]
      axis_types := fun _ => .explicit
      nodup := by decide
      pos := by decide }
  spec := ⟨[.axes ["x"]], ["u"], []⟩
  constructed := ⟨by decide, by decide, by decide⟩
  checked := rfl

/-- It comes back as `P('x', 'u')`. -/
theorem unreduced_becomes_dimension : ¬ unreducedSharding.Survives 1 := by
  have hconvert : namedShardingToXlaHloSharding unreducedSharding 1 = .ok (iotaTile
      ((unreducedSharding.tileGroups 1).map volume) unreducedSharding.mesh'.axis_sizes
      (positions unreducedSharding.mesh'.axes (unreducedSharding.tileGroups 1).flatten)
      [.unreduced]) := by
    rw [unreducedSharding.convert_eq (by decide) (by decide), if_neg (by decide)]
    rfl
  rw [survives_of_convert hconvert, iotaTile, if_neg (by decide), parse_tiling, if_neg (by decide)]
  have hgroups : ((unreducedSharding.tileGroups 1).map fun group => group.map Prod.fst) =
      ((unreducedSharding.dimGroups 1).map fun group => group.map Prod.fst) ++ [["u"]] := by decide
  rw [hgroups]
  simp only [Bool.false_eq_true, if_false, returned_ok]
  exact not_kept_extra (by decide) (by decide)

end NamedSharding

end JaxDas.Sharding
