import JaxDas.Lib.Fallible
import Mathlib.Data.List.Nodup
import Mathlib.Data.Nat.Notation

/-!
# Meshes and partition specs

A mesh names the axes of an array of devices; a partition spec says which of them each dimension of
an array is cut along. `checkPspec` is what `NamedSharding` checks of the two.
-/

namespace JaxDas.Sharding

variable {A : Type} [DecidableEq A]

inductive AxisType where
  | auto
  | explicit
  | manual
deriving DecidableEq, Repr

/-- The axes of a mesh, by name and size. There are no two of a name, and there is a device. -/
structure Mesh (A : Type) where
  axes : List (A × ℕ)
  axis_types : A → AxisType
  nodup : (axes.map Prod.fst).Nodup
  pos : ∀ a ∈ axes, 0 < a.2

def Mesh.axis_names (mesh : Mesh A) : List A := mesh.axes.map Prod.fst

def Mesh.axis_sizes (mesh : Mesh A) : List ℕ := mesh.axes.map Prod.snd

/-- `mesh.shape[name]`, for the name of an axis. -/
def Mesh.shape (mesh : Mesh A) (name : A) : ℕ := (mesh.axes.lookup name).getD 1

/-- An entry of a partition spec, after `canonicalize_partition`: no axis is `None`, and one axis the
axis itself. -/
inductive Partition (A : Type) where
  | unconstrained
  | axes (names : List A)
deriving DecidableEq, Repr

def Partition.names : Partition A → List A
  | .unconstrained => []
  | .axes names => names

/-- A partition spec. Of the two sets only the members count. -/
structure PartitionSpec (A : Type) where
  partitions : List (Partition A)
  unreduced : List A
  reduced : List A
deriving DecidableEq, Repr

/-- `flatten_spec`, without `None` and `UNCONSTRAINED`. -/
def PartitionSpec.names (spec : PartitionSpec A) : List A := spec.partitions.flatMap Partition.names

/-- What the constructor of a partition spec checks. -/
structure PartitionSpec.Constructed (spec : PartitionSpec A) : Prop where
  unreduced : ∀ a ∈ spec.names, a ∉ spec.unreduced
  reduced : ∀ a ∈ spec.names, a ∉ spec.reduced
  disjoint : ∀ a ∈ spec.unreduced, a ∉ spec.reduced

/-- The errors of `check_pspec`, with what their messages are about. -/
inductive PspecError (A : Type) where
  /-- `DuplicateSpecError` -/
  | duplicate (spec : PartitionSpec A)
  | axisNotFound (axis : A)
  | unconstrainedWithoutAuto (spec : PartitionSpec A)
  | unreducedNotFound (axis : A)
  | unreducedNotExplicit (axis : A)
  | reducedNotFound (axis : A)
  | reducedNotExplicit (axis : A)

/-- `_check_unique_resources` -/
def checkUniqueResources (spec : PartitionSpec A) : Except (PspecError A) Unit :=
  if spec.names.Nodup then .ok () else .error (.duplicate spec)

def checkAxesFound (mesh : Mesh A) (error : A → PspecError A) : List A → Except (PspecError A) Unit
  | [] => .ok ()
  | r :: rs => if r ∈ mesh.axis_names then checkAxesFound mesh error rs else .error (error r)

/-- `_check_mesh_resource_axis` -/
def checkMeshResourceAxis (mesh : Mesh A) (spec : PartitionSpec A) :
    Except (PspecError A) Unit := do
  checkAxesFound mesh .axisNotFound spec.names
  if (∀ a ∈ mesh.axis_names, mesh.axis_types a ≠ .auto) ∧ .unconstrained ∈ spec.partitions then
    .error (.unconstrainedWithoutAuto spec)
  else .ok ()

/-- The loops of `_check_mesh_unreduced` over the unreduced and over the reduced axes. -/
def checkExplicit (mesh : Mesh A) (notFound notExplicit : A → PspecError A) :
    List A → Except (PspecError A) Unit
  | [] => .ok ()
  | u :: us =>
      if u ∉ mesh.axis_names then .error (notFound u)
      else if mesh.axis_types u = .auto ∨ mesh.axis_types u = .manual then .error (notExplicit u)
      else checkExplicit mesh notFound notExplicit us

/-- `_check_mesh_unreduced` -/
def checkMeshUnreduced (mesh : Mesh A) (spec : PartitionSpec A) : Except (PspecError A) Unit := do
  checkExplicit mesh .unreducedNotFound .unreducedNotExplicit spec.unreduced
  checkExplicit mesh .reducedNotFound .reducedNotExplicit spec.reduced

def checkPspec (mesh : Mesh A) (spec : PartitionSpec A) : Except (PspecError A) Unit := do
  checkUniqueResources spec
  checkMeshResourceAxis mesh spec
  checkMeshUnreduced mesh spec

/-- A mesh and a spec that make a `NamedSharding`. -/
structure NamedSharding (A : Type) [DecidableEq A] where
  mesh : Mesh A
  spec : PartitionSpec A
  constructed : spec.Constructed
  checked : checkPspec mesh spec = .ok ()

/-- `non_one_sized_spec` -/
def nonOneSizedSpec (spec : PartitionSpec A) (mesh : Mesh A) : PartitionSpec A where
  partitions := spec.partitions.map fun
    | .unconstrained => .unconstrained
    | .axes names => .axes (names.filter fun i => mesh.shape i ≠ 1)
  unreduced := spec.unreduced.filter fun u => mesh.shape u ≠ 1
  reduced := spec.reduced.filter fun r => mesh.shape r ≠ 1

/-- The mesh of `get_non_one_sized_mesh_spec`. -/
def nonOneSizedMesh (mesh : Mesh A) : Mesh A where
  axes := mesh.axes.filter fun a => a.2 ≠ 1
  axis_types := mesh.axis_types
  nodup := mesh.nodup.sublist (List.filter_sublist.map _)
  pos := fun a ha => mesh.pos a (List.mem_of_mem_filter ha)

/-- `get_array_mapping`: the items of the dictionary, in the order of insertion. No axis occurs
twice. -/
def getArrayMapping (spec : PartitionSpec A) : List (A × ℕ) :=
  spec.partitions.zipIdx.flatMap fun p => p.1.names.map fun name => (name, p.2)

/-! ## What the checks say -/

theorem checkAxesFound_ok {mesh : Mesh A} {error : A → PspecError A} : ∀ {rs : List A} {u : Unit},
    checkAxesFound mesh error rs = .ok u → ∀ r ∈ rs, r ∈ mesh.axis_names
  | [], _, _ => by simp
  | r :: rs, u, h => by
      unfold checkAxesFound at h
      split at h
      · exact List.forall_mem_cons.mpr ⟨‹_›, checkAxesFound_ok h⟩
      · exact nomatch h

theorem checkExplicit_ok {mesh : Mesh A} {e e' : A → PspecError A} : ∀ {us : List A} {u : Unit},
    checkExplicit mesh e e' us = .ok u → ∀ a ∈ us, a ∈ mesh.axis_names
  | [], _, _ => by simp
  | a :: us, u, h => by
      unfold checkExplicit at h
      split at h
      · exact nomatch h
      · split at h
        · exact nomatch h
        · exact List.forall_mem_cons.mpr ⟨not_not.mp ‹_›, checkExplicit_ok h⟩

namespace NamedSharding

variable (s : NamedSharding A)

theorem names_nodup : s.spec.names.Nodup := by
  obtain ⟨_, h, -⟩ := bind_ok.mp s.checked
  unfold checkUniqueResources at h
  split at h
  · assumption
  · exact nomatch h

theorem names_mem {a : A} (ha : a ∈ s.spec.names) : a ∈ s.mesh.axis_names := by
  obtain ⟨_, _, h⟩ := bind_ok.mp s.checked
  obtain ⟨_, h, -⟩ := bind_ok.mp h
  obtain ⟨_, h, -⟩ := bind_ok.mp h
  exact checkAxesFound_ok h a ha

theorem unreduced_mem {a : A} (ha : a ∈ s.spec.unreduced) : a ∈ s.mesh.axis_names := by
  obtain ⟨_, _, h⟩ := bind_ok.mp s.checked
  obtain ⟨_, _, h⟩ := bind_ok.mp h
  obtain ⟨_, h, -⟩ := bind_ok.mp h
  exact checkExplicit_ok h a ha

end NamedSharding

end JaxDas.Sharding
