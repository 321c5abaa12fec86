import Mathlib.Data.Int.Notation
import Mathlib.Algebra.BigOperators.Group.List.Basic
import Mathlib.Algebra.Order.Ring.Int
import JaxDas.Pytree.Object

/-!
# Tree definitions

A `PyTreeDef` is the list of the nodes of a pytree, children before parents. This
file has its constructors and its consumers as they stand in `pytree.cc`; what
they mean for each other is proved in the files after it.

`int` is unbounded here: no tree that fits into memory has `2^31` nodes. The one
place where a count can be negative or absurdly large is a deserialized arity, and
the arithmetic that meets it (`resizedLength`) is modelled to the bit.
-/

namespace JaxDas.Pytree

variable {α : Type}

/-- `PyTreeDef::Node`. -/
structure Node (α : Type) where
  kind : PyTreeKind := .leaf
  arity : ℤ := 0
  /-- The type of a namedtuple; the auxiliary data of a custom node or dataclass. -/
  nodeData : Option (PyObj α) := none
  sortedDictKeys : List (PyObj α) := []
  custom : Option (Registration α) := none
  numLeaves : ℤ := 0
  numNodes : ℤ := 0

/-- `PyTreeDef`. -/
structure PyTreeDef (α : Type) where
  registry : PyTreeRegistry α
  traversal : List (Node α) := []

namespace PyTreeDef

/-- `num_leaves()`. -/
def numLeaves (d : PyTreeDef α) : ℤ :=
  match d.traversal.getLast? with
  | none => 0
  | some n => n.numLeaves

/-- `num_nodes()`. -/
def numNodes (d : PyTreeDef α) : ℕ := d.traversal.length

end PyTreeDef

/-! ## Equality and hashing -/

section Equality

variable (py : Runtime α)

/-- The comparison of the registrations: only custom nodes have theirs compared. -/
def customDiffers (a b : Node α) : Bool :=
  a.kind = .custom &&
    match a.custom, b.custom with
    | some r, some s => r.fromIterable.ptr ≠ s.fromIterable.ptr || r.type ≠ s.type
    | none, none => false
    | _, _ => true

/-- `a.node_data && a.node_data.not_equal(b.node_data)`. -/
def nodeDataDiffers (a b : Node α) : Except PyErr Bool :=
  match a.nodeData, b.nodeData with
  | some x, some y =>
      match py.ne x y with
      | .ok r => .ok r
      | .error _ => .error (.valueError
          ("Exception raised while checking equality of metadata fields of pytree. " ++
            "Make sure that metadata fields are hashable and have simple equality semantics. " ++
            "(Note: arrays cannot be passed as metadata fields!)"))
  | _, _ => .ok false

/-- The body of the loop of `PyTreeDef::operator==`. -/
def nodeEq (a b : Node α) : Except PyErr Bool :=
  if a.kind ≠ b.kind ∨ a.arity ≠ b.arity ∨ a.nodeData.isSome ≠ b.nodeData.isSome ∨
      a.sortedDictKeys.length ≠ b.sortedDictKeys.length then .ok false
  else if customDiffers a b then .ok false
  else do
    if ← nodeDataDiffers py a b then .ok false
    else isSortedPyDictKeysEqual py a.sortedDictKeys b.sortedDictKeys

/-- The loop of `PyTreeDef::operator==`. -/
def nodesEq : List (Node α) → List (Node α) → Except PyErr Bool
  | a :: as, b :: bs => do
      if ← nodeEq py a b then nodesEq as bs else .ok false
  | _, _ => .ok true

/-- `PyTreeDef::operator==`. -/
def PyTreeDef.eq (d e : PyTreeDef α) : Except PyErr Bool :=
  if d.traversal.length ≠ e.traversal.length then .ok false
  else nodesEq py d.traversal e.traversal

end Equality

/-- What the hash of a node is combined from. A registration is identified by its type. -/
structure NodeHash where
  kind : PyTreeKind
  arity : ℤ
  custom : Option TypeId
  fromIterable : Option ℕ
  deriving DecidableEq

/-- `AbslHashValue` of a node. -/
def Node.hashFields (n : Node α) : NodeHash :=
  match n.kind, n.custom with
  | .custom, some r => ⟨n.kind, n.arity, some r.type, some r.fromIterable.ptr⟩
  | _, r => ⟨n.kind, n.arity, r.map (·.type), none⟩

/-- `AbslHashValue` of a definition; `combine` is the hash function itself. -/
def PyTreeDef.hash (combine : List NodeHash → ℕ) (d : PyTreeDef α) : ℕ :=
  combine (d.traversal.map Node.hashFields)

/-! ## Flattening -/

/-- What `Flatten` has appended so far. -/
structure Flat (α : Type) where
  leaves : List (PyObj α) := []
  traversal : List (Node α) := []

/-- Append a leaf, and the node for it. -/
def Flat.pushLeaf (s : Flat α) (x : PyObj α) (n : Node α) : Flat α where
  leaves := s.leaves ++ [x]
  traversal := s.traversal ++ [{ n with numLeaves := 1, numNodes := 1 }]

/-- Append the node of which everything since `start` is the subtree. -/
def Flat.pushNode (start s : Flat α) (n : Node α) : Flat α where
  leaves := s.leaves
  traversal := s.traversal ++
    [{ n with
        numLeaves := (s.leaves.length : ℤ) - start.leaves.length
        numNodes := (s.traversal.length : ℤ) - start.traversal.length + 1 }]

/-- An `is_leaf` predicate, if there is one. -/
abbrev LeafPredicate (α : Type) := Option (PyObj α → Except PyErr (PyObj α))

section Flatten

variable (py : Runtime α) (reg : PyTreeRegistry α) (leafPredicate : LeafPredicate α)

/-- What the predicate says of `x`; `None` counts as `False`. -/
def isKnownLeaf (x : PyObj α) : Except PyErr Bool :=
  match leafPredicate with
  | none => .ok false
  | some p => do
      match ← p x with
      | .none => .ok false
      | .bool b => .ok b
      | o => .error (.valueError
          ("is_leaf predicate returned a non-boolean value " ++ py.repr o ++
            "; expected a boolean"))

/-- The `switch` of `FlattenImpl`: the node for `x`, without its counts, and its children. -/
def expand (x : PyObj α) : Except PyErr (Node α × List (PyObj α)) :=
  match reg.kindOfObject x with
  | (.none, _) => .ok ({ kind := .none }, [])
  | (.tuple, _) => .ok ({ kind := .tuple, arity := x.tupleItems.length }, x.tupleItems)
  | (.list, _) => .ok ({ kind := .list, arity := x.listItems.length }, x.listItems)
  | (.dict, _) => do
      let items ← getSortedPyDictItems py x.dictItems
      .ok ({ kind := .dict, arity := x.dictItems.length, sortedDictKeys := items.map Prod.fst },
        items.map Prod.snd)
  | (.custom, some r) => do
      let (children, auxData) ← r.toIterable py x
      .ok ({ kind := .custom, custom := some r, nodeData := some auxData,
             arity := children.length }, children)
  | (.dataclass, some r) => do
      let auxData ← r.metaFields.mapM (py.getattr x)
      let children ← r.dataFields.mapM (py.getattr x)
      .ok ({ kind := .dataclass, custom := some r, nodeData := some (.tuple auxData),
             arity := r.dataFields.length }, children)
  | (.namedTuple, _) =>
      .ok ({ kind := .namedTuple, arity := x.tupleItems.length,
             nodeData := some (.type x.typeOf) }, x.tupleItems)
  | _ => .ok ({ kind := .leaf }, [])

/-- `PyTreeDef::FlattenImpl`; the fuel is what is left of the recursion limit. -/
def flattenImpl : ℕ → PyObj α → Flat α → Except PyErr (Flat α)
  | 0, _, _ => .error .recursionError
  | fuel + 1, x, s => do
      if ← isKnownLeaf py leafPredicate x then .ok (s.pushLeaf x {})
      else
        let (n, children) ← expand py reg x
        if n.kind = .leaf then .ok (s.pushLeaf x n)
        else
          let s' ← children.foldlM (fun s c => flattenImpl fuel c s) s
          .ok (s.pushNode s' n)

/-- `PyTreeDef::Flatten`. -/
def flatten (fuel : ℕ) (x : PyObj α) : Except PyErr (List (PyObj α) × PyTreeDef α) := do
  let s ← flattenImpl py reg leafPredicate fuel x {}
  .ok (s.leaves, { registry := reg, traversal := s.traversal })

end Flatten

/-! ## Unflattening -/

/-- `kwargs[name] = value`. -/
def kwSet (name : String) (v : PyObj α) : List (String × PyObj α) → List (String × PyObj α)
  | [] => [(name, v)]
  | m :: kw => if m.1 = name then (name, v) :: kw else m :: kwSet name v kw

/-- The keyword arguments a list of assignments leaves. -/
def kwargs (items : List (String × PyObj α)) : List (String × PyObj α) :=
  items.foldl (fun kw m => kwSet m.1 m.2 kw) []

section Unflatten

variable (py : Runtime α)

/-- The dictionary that a list of assignments leaves. -/
def mkDict (items : List (PyObj α × PyObj α)) : PyObj α :=
  .dict (items.foldl (fun d m => dictSet py m.1 m.2 d) [])

/-- `PyTreeDef::MakeNode`. -/
def makeNode (n : Node α) (children : List (PyObj α)) : Except PyErr (PyObj α) :=
  if (children.length : ℤ) ≠ n.arity then .error (.logicError "Node arity mismatch.")
  else match n.kind with
    | .leaf => .error (.logicError "MakeNode not implemented for leaves.")
    | .none => .ok .none
    | .tuple => .ok (.tuple children)
    | .namedTuple => py.call (n.nodeData.getD .none) children
    | .list => .ok (.list children)
    | .dict =>
        -- `sorted_dict_keys[i]` for every `i` below the arity.
        if n.sortedDictKeys.length < children.length then .error .undefinedBehavior
        else .ok (mkDict py (n.sortedDictKeys.zip children))
    | .custom =>
        match n.custom with
        | some r => r.fromIterable.call (n.nodeData.getD .none) children
        | none => .error .undefinedBehavior
    | .dataclass =>
        match n.custom, py.iter (n.nodeData.getD .none) with
        | some r, some auxData =>
            if auxData.length < r.metaFields.length ∨ children.length < r.dataFields.length then
              .error .undefinedBehavior
            else py.callKw (.type r.type)
              (kwargs (r.metaFields.zip auxData ++ r.dataFields.zip children))
        | some _, none => .error (.raised "TypeError")
        | none, _ => .error .undefinedBehavior

/-- The loop of `UnflattenImpl`, with the agenda, the leaves left and the number taken. -/
def unflattenLoop (expected : ℤ) : List (Node α) → List (PyObj α) → List (PyObj α) → ℕ →
    Except PyErr (List (PyObj α) × List (PyObj α))
  | [], agenda, leaves, _ => .ok (agenda, leaves)
  | n :: ns, agenda, leaves, leafCount =>
      -- `agenda.size() < node.arity` compares without signs.
      if n.arity < 0 ∨ (agenda.length : ℤ) < n.arity then
        .error (.logicError "Too few elements for TreeDef node.")
      else if n.kind = .leaf then
        match leaves with
        | [] => .error (.valueError
            ("Too few leaves for PyTreeDef; expected " ++ toString expected ++ ", got " ++
              toString leafCount))
        | x :: rest => unflattenLoop expected ns (agenda ++ [x]) rest (leafCount + 1)
      else do
        let o ← makeNode py n (agenda.drop (agenda.length - n.arity.toNat))
        unflattenLoop expected ns (agenda.take (agenda.length - n.arity.toNat) ++ [o]) leaves
          leafCount

/-- `PyTreeDef::Unflatten`. -/
def PyTreeDef.unflatten (d : PyTreeDef α) (leaves : List (PyObj α)) :
    Except PyErr (PyObj α) := do
  let (agenda, rest) ← unflattenLoop py d.numLeaves d.traversal [] leaves 0
  if rest ≠ [] then .error (.valueError
    ("Too many leaves for PyTreeDef; expected " ++ toString d.numLeaves ++ "."))
  else match agenda with
    | [x] => .ok x
    | _ => .error (.logicError "PyTreeDef traversal did not yield a singleton.")

end Unflatten

/-! ## Recounting -/

/-- The longest `std::vector<std::pair<int, int>>`. -/
def vectorMax : ℕ := 2 ^ 60 - 1

/-- `starts.size() - (arity - 1)`, in the arithmetic of `size_t`. -/
def resizedLength (size : ℕ) (arity : ℤ) : ℕ := (((size : ℤ) - (arity - 1)) % 2 ^ 64).toNat

/-- A vector of this length, when there is memory for `memory` entries. -/
def allocate (memory length : ℕ) (starts : List (ℤ × ℤ)) : Except PyErr (List (ℤ × ℤ)) :=
  if min memory vectorMax < length then .error .lengthError else .ok starts

/-- `starts.resize(length)`. -/
def resize (memory length : ℕ) (starts : List (ℤ × ℤ)) : Except PyErr (List (ℤ × ℤ)) :=
  allocate memory length
    (starts.take length ++ List.replicate (length - starts.length) (0, 0))

/-- The vector `starts` after the node number `i` of arity `arity`. -/
def nextStarts (memory : ℕ) (starts : List (ℤ × ℤ)) (start : ℤ × ℤ) (arity : ℤ) :
    Except PyErr (List (ℤ × ℤ)) :=
  if arity = 0 then allocate memory (starts.length + 1) (starts ++ [start])
  else if arity ≤ -2 ^ 31 then .error .undefinedBehavior
  else resize memory (resizedLength starts.length arity) starts

/-- The loop of `SetNumLeavesAndNumNodes`, from node number `i` on. -/
def setCounts (memory : ℕ) : List (ℤ × ℤ) → ℤ → ℤ → List (Node α) →
    Except PyErr (List (Node α))
  | _, _, _, [] => .ok []
  | starts, numLeaves, i, n :: ns => do
      let numLeaves' := if n.kind = .leaf then numLeaves + 1 else numLeaves
      let starts' ← nextStarts memory starts (numLeaves, i) n.arity
      match starts'.getLast? with
      | none => .error .undefinedBehavior
      | some back =>
          let rest ← setCounts memory starts' numLeaves' (i + 1) ns
          .ok ({ n with numLeaves := numLeaves' - back.1, numNodes := i + 1 - back.2 } :: rest)

/-- `PyTreeDef::SetNumLeavesAndNumNodes`. -/
def setNumLeavesAndNumNodes (memory : ℕ) (nodes : List (Node α)) :
    Except PyErr (List (Node α)) := setCounts memory [] 0 0 nodes

/-! ## Definitions from definitions -/

/-- `PyTreeDef::Compose`. -/
def PyTreeDef.compose (memory : ℕ) (d inner : PyTreeDef α) : Except PyErr (PyTreeDef α) :=
  if inner.registry.id ≠ d.registry.id then .error (.valueError
    "PyTree registries of PyTreeDefs passed to Compose() must match.")
  else do
    let nodes ← setNumLeavesAndNumNodes memory
      (d.traversal.flatMap fun n => if n.kind = .leaf then inner.traversal else [n])
    .ok { registry := d.registry, traversal := nodes }

/-- `PyTreeDef::Tuple`. -/
def PyTreeDef.tuple (reg : PyTreeRegistry α) (defs : List (PyTreeDef α)) :
    Except PyErr (PyTreeDef α) :=
  if defs.any fun d => d.registry.id ≠ reg.id then .error (.valueError
    "PyTree registries of PyTreeDefs passed to Tuple() must match.")
  else
    let nodes := defs.flatMap PyTreeDef.traversal
    .ok
      { registry := reg
        traversal := nodes ++
          [{ kind := .tuple, arity := defs.length, numLeaves := (defs.map numLeaves).sum,
             numNodes := nodes.length + 1 }] }

/-- The loop of `Children`: `i` children are to come, and end before `pos`. -/
def childrenLoop (nodes : List (Node α)) : ℕ → ℕ → List (List (Node α)) →
    Except PyErr (List (List (Node α)))
  | 0, pos, children =>
      if pos ≠ 0 then .error (.logicError "pos != 0 at end of PyTreeDef::Children")
      else .ok children
  | i + 1, pos, children =>
      match nodes[pos - 1]?, pos with
      | some n, pos' + 1 =>
          if ((pos' + 1 : ℕ) : ℤ) < n.numNodes then
            .error (.logicError "children() walked off start of array")
          else
            let start := pos' + 1 - n.numNodes.toNat
            childrenLoop nodes i start ((nodes.take (pos' + 1)).drop start :: children)
      | _, _ => .error (.raised "IndexError")

/-- `PyTreeDef::Children`. -/
def PyTreeDef.children (d : PyTreeDef α) : Except PyErr (List (PyTreeDef α)) :=
  match d.traversal.getLast? with
  | none => .ok []
  | some root => do
      let children ← childrenLoop d.traversal root.arity.toNat (d.traversal.length - 1) []
      .ok (children.map fun nodes => { registry := d.registry, traversal := nodes })

/-- `PyTreeDef::GetNodeData`. -/
def PyTreeDef.getNodeData (d : PyTreeDef α) : Except PyErr (Option (PyObj α × PyObj α)) :=
  match d.traversal.getLast? with
  | none => .error (.logicError "empty PyTreeDef traversal.")
  | some n =>
      match n.kind with
      | .leaf => .ok none
      | .none => .ok (some (.type .noneType, .none))
      | .tuple => .ok (some (.type .tuple, .none))
      | .list => .ok (some (.type .list, .none))
      | .dict => .ok (some (.type .dict, .list n.sortedDictKeys))
      | .namedTuple => .ok (some (n.nodeData.getD .none, .none))
      | .custom | .dataclass =>
          match n.custom with
          | some r => .ok (some (.type r.type, n.nodeData.getD .none))
          | none => .error .undefinedBehavior

/-- The root that `FromNodeDataAndChildren` appends, without its counts. -/
def rootOf (py : Runtime α) (reg : PyTreeRegistry α) (nodeData : Option (PyObj α × PyObj α))
    (arity : ℕ) : Except PyErr (Node α) :=
  match nodeData with
  | none => .ok { kind := .leaf, arity := arity }
  | some (t, data) => do
      if ← py.isNamedTupleType t then .ok { kind := .namedTuple, arity := arity, nodeData := some t }
      else
        let registration := match t with
          | .type t => reg.lookup t
          | _ => none
        match registration with
        | none => .error (.logicError ("Could not find type: " ++ py.repr t ++ "."))
        | some r =>
            if r.kind = .custom ∨ r.kind = .dataclass then
              .ok { kind := r.kind, arity := arity, custom := some r, nodeData := some data }
            else if r.kind = .dict then
              match py.iter data with
              | some keys => .ok { kind := .dict, arity := arity, sortedDictKeys := keys }
              | none => .error (.raised "TypeError")
            else .ok { kind := r.kind, arity := arity }

/-- `PyTreeDef::FromNodeDataAndChildren`. -/
def fromNodeDataAndChildren (py : Runtime α) (reg : PyTreeRegistry α)
    (nodeData : Option (PyObj α × PyObj α)) (children : List (PyTreeDef α)) :
    Except PyErr (PyTreeDef α) := do
  let nodes := children.flatMap PyTreeDef.traversal
  let numLeaves := (children.map PyTreeDef.numLeaves).sum
  let root ← rootOf py reg nodeData children.length
  .ok
    { registry := reg
      traversal := nodes ++
        [{ root with
            numLeaves := if nodeData.isNone then numLeaves + 1 else numLeaves
            numNodes := nodes.length + 1 }] }

end JaxDas.Pytree
