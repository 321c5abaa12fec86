import JaxDas.Pytree.TreeDef

/-!
# Key paths

`FlattenWithPath` appends to every leaf the keys on the way to it, and
`FlattenOneLevelWithKeys` returns the children of one node with their keys. The keys
of the same node are made by two different pieces of code, so both are here as they
are written: `expandWithKeys` is the `switch` of the one, `flattenOneLevelWithKeys`
the `switch` of the other.
-/

namespace JaxDas.Pytree

variable {α : Type}

/-- A key on the way to a leaf. -/
inductive Key (α : Type) where
  /-- `SequenceKey`. -/
  | sequence (idx : ℕ)
  /-- `DictKey`. -/
  | dict (key : PyObj α)
  /-- `GetAttrKey`. -/
  | getAttr (name : String)
  /-- `FlattenedIndexKey`. -/
  | flattenedIndex (key : ℕ)
  /-- Whatever the key function of a custom type returned. -/
  | custom (key : PyObj α)

/-- What the interpreter does when it is asked for names, and when keys are compared. -/
structure KeyRuntime (α : Type) extends Runtime α where
  /-- `str(a)`. -/
  str : PyObj α → Except PyErr String
  /-- `a is b or a == b`, as tuples compare what they hold. -/
  eq : PyObj α → PyObj α → Bool
  /-- The same for an object and a key of one of the four classes above. -/
  eqKey : PyObj α → Key α → Bool
  eq_refl : ∀ a, eq a a = true

/-- `SequenceKey::Equals`, `DictKey::Equals`, `GetAttrKey::Equals` and `FlattenedIndexKey::Equals`. -/
def Key.equals (py : KeyRuntime α) : Key α → Key α → Bool
  | .sequence i, .sequence j => i = j
  | .dict k, .dict l => py.eq k l
  | .getAttr m, .getAttr n => m = n
  | .flattenedIndex i, .flattenedIndex j => i = j
  | .custom k, .custom l => py.eq k l
  | .custom k, l => py.eqKey k l
  | k, .custom l => py.eqKey l k
  | _, _ => false

theorem Key.equals_refl (py : KeyRuntime α) (k : Key α) : Key.equals py k k = true := by
  cases k <;> simp [Key.equals, py.eq_refl]

/-- A node's children, each under its key. -/
abbrev KeyedItems (α : Type) := List (Key α × PyObj α)

/-- The leaves with the keys on the way to each. -/
abbrev PathLeaves (α : Type) := List (List (Key α) × PyObj α)

/-- `nb::try_cast<nb::tuple>`. -/
def PyObj.asTuple : PyObj α → Option (List (PyObj α))
  | .tuple xs => some xs
  | .namedTuple _ xs => some xs
  | _ => Option.none

/-- The items of a tuple or a list, under their indices. -/
def sequenceKeys (xs : List (PyObj α)) : KeyedItems α :=
  xs.zipIdx.map fun m => (.sequence m.2, m.1)

/-- The same with the keys of a custom type that has no key function. -/
def flattenedIndexKeys (xs : List (PyObj α)) : KeyedItems α :=
  xs.zipIdx.map fun m => (.flattenedIndex m.2, m.1)

/-- A `(key, child)` pair out of what a key function returned. -/
def keyLeafPair (py : Runtime α) (pair : PyObj α) : Except PyErr (Key α × PyObj α) :=
  match pair.asTuple with
  | some [key, leaf] => .ok (.custom key, leaf)
  | _ => .error (.valueError
      ("The to_iterable_with_keys function for a custom PyTree node should " ++
        "return a (key_leaf_pairs, aux_data) tuple where 'child" ++ py.repr pair))

/-- `Registration::ToIterableWithKeys`: the children with their keys, and the auxiliary data. -/
def Registration.toIterableWithKeys (py : Runtime α) (r : Registration α) (x : PyObj α) :
    Except PyErr (KeyedItems α × PyObj α) :=
  match r.toIterableWithKeysFn with
  | none => do
      let (leaves, auxData) ← r.toIterable py x
      .ok (flattenedIndexKeys leaves, auxData)
  | some f => do
      let out ← f x
      match out.asTuple with
      | some [pairs, auxData] =>
          match py.iter pairs with
          | some pairs => do
              let result ← pairs.mapM (keyLeafPair py)
              .ok (result, auxData)
          | none => .error (.valueError
              ("The to_iterable_with_keys function for a custom PyTree node should " ++
                "return a (key_leaf_pairs, aux_data) tuple where 'key_leaf_pairs' is " ++
                "iterable, got " ++ py.repr out))
      | _ => .error (.valueError
          ("The to_iterable_with_keys function for a custom PyTree " ++
            "node should return a (key_leaf_pairs, aux_data) tuple, got " ++ py.repr out))

/-- The `_fields` of a namedtuple, one for each of its items. -/
def namedTupleFields (py : Runtime α) (x : PyObj α) : Except PyErr (List (PyObj α)) := do
  let fields ← py.getattr x "_fields"
  match fields.asTuple with
  | some fields =>
      if x.tupleItems.length = fields.length then .ok fields
      else .error (.valueError
        "A namedtuple's _fields attribute should have the same size as the tuple.")
  | none => .error (.valueError
      "A namedtuple's _fields attribute should have the same size as the tuple.")

section Flatten

variable (py : KeyRuntime α) (reg : PyTreeRegistry α)

/--
The `switch` of `FlattenImpl` with a key path: the node for `x`, without its counts,
and its children with their keys.
-/
def expandWithKeys (x : PyObj α) : Except PyErr (Node α × KeyedItems α) :=
  match reg.kindOfObject x with
  | (.none, _) => .ok ({ kind := .none }, [])
  | (.tuple, _) =>
      .ok ({ kind := .tuple, arity := x.tupleItems.length }, sequenceKeys x.tupleItems)
  | (.list, _) => .ok ({ kind := .list, arity := x.listItems.length }, sequenceKeys x.listItems)
  | (.dict, _) => do
      let items ← getSortedPyDictItems py.toRuntime x.dictItems
      .ok ({ kind := .dict, arity := x.dictItems.length, sortedDictKeys := items.map Prod.fst },
        items.map fun m => (.dict m.1, m.2))
  | (.custom, some r) => do
      let (children, auxData) ← r.toIterableWithKeys py.toRuntime x
      .ok ({ kind := .custom, custom := some r, nodeData := some auxData,
             arity := children.length }, children)
  | (.dataclass, some r) => do
      let auxData ← r.metaFields.mapM (py.getattr x)
      let children ← r.dataFields.mapM (py.getattr x)
      .ok ({ kind := .dataclass, custom := some r, nodeData := some (.tuple auxData),
             arity := r.dataFields.length }, (r.dataFields.map .getAttr).zip children)
  | (.namedTuple, _) => do
      let fields ← namedTupleFields py.toRuntime x
      let names ← fields.mapM py.str
      -- `field_iter++` once for each entry.
      .ok ({ kind := .namedTuple, arity := x.tupleItems.length,
             nodeData := some (.type x.typeOf) }, (names.map .getAttr).zip x.tupleItems)
  | _ => .ok ({ kind := .leaf }, [])

/-- What `FlattenWithPath` has appended so far. -/
structure PathFlat (α : Type) where
  leaves : PathLeaves α := []
  traversal : List (Node α) := []

/-- Append a leaf with the path to it, and the node for it. -/
def PathFlat.pushLeaf (s : PathFlat α) (path : List (Key α)) (x : PyObj α) (n : Node α) :
    PathFlat α where
  leaves := s.leaves ++ [(path, x)]
  traversal := s.traversal ++ [{ n with numLeaves := 1, numNodes := 1 }]

/-- Append the node of which everything since `start` is the subtree. -/
def PathFlat.pushNode (start s : PathFlat α) (n : Node α) : PathFlat α where
  leaves := s.leaves
  traversal := s.traversal ++
    [{ n with
        numLeaves := (s.leaves.length : ℤ) - start.leaves.length
        numNodes := (s.traversal.length : ℤ) - start.traversal.length + 1 }]

/-- An `is_leaf` predicate that is shown the path, if there is one. -/
abbrev PathLeafPredicate (α : Type) :=
  Option (List (Key α) → PyObj α → Except PyErr (PyObj α))

/-- What the predicate says of `x` at the end of `path`. -/
def isKnownLeafAt (leafPredicate : PathLeafPredicate α) (path : List (Key α)) (x : PyObj α) :
    Except PyErr Bool :=
  isKnownLeaf py.toRuntime (leafPredicate.map fun p => p path) x

/-- `PyTreeDef::FlattenImpl` with a key path; a key is pushed for the time a child takes. -/
def flattenWithPathImpl (leafPredicate : PathLeafPredicate α) :
    ℕ → List (Key α) → PyObj α → PathFlat α → Except PyErr (PathFlat α)
  | 0, _, _, _ => .error .recursionError
  | fuel + 1, path, x, s => do
      if ← isKnownLeafAt py leafPredicate path x then .ok (s.pushLeaf path x {})
      else
        let (n, children) ← expandWithKeys py reg x
        if n.kind = .leaf then .ok (s.pushLeaf path x n)
        else
          let s' ← children.foldlM
            (fun s m => flattenWithPathImpl leafPredicate fuel (path ++ [m.1]) m.2 s) s
          .ok (s.pushNode s' n)

/-- `PyTreeDef::FlattenWithPath`. -/
def flattenWithPath (leafPredicate : PathLeafPredicate α) (fuel : ℕ) (x : PyObj α) :
    Except PyErr (PathLeaves α × PyTreeDef α) := do
  let s ← flattenWithPathImpl py reg leafPredicate fuel [] x {}
  .ok (s.leaves, { registry := reg, traversal := s.traversal })

/--
`PyTreeRegistry::FlattenOneLevelWithKeys`: the children with their keys and the auxiliary
data, or nothing for a leaf.
-/
def flattenOneLevelWithKeys (x : PyObj α) : Except PyErr (Option (KeyedItems α × PyObj α)) :=
  match reg.kindOfObject x with
  | (.none, _) => .ok (some ([], .none))
  | (.tuple, _) => .ok (some (sequenceKeys x.tupleItems, .none))
  | (.list, _) => .ok (some (sequenceKeys x.listItems, .none))
  | (.dict, _) => do
      let items ← getSortedPyDictItems py.toRuntime x.dictItems
      .ok (some (items.map fun m => (.dict m.1, m.2), .tuple (items.map Prod.fst)))
  | (.namedTuple, _) => do
      let fields ← namedTupleFields py.toRuntime x
      -- `field_iter` stays at `fields.begin()`.
      let out ← x.tupleItems.mapM fun entry => do
        let name ← py.str (fields.headD .none)
        .ok (.getAttr name, entry)
      .ok (some (out, .type x.typeOf))
  | (.custom, some r) => do
      let (leaves, auxData) ← r.toIterableWithKeys py.toRuntime x
      .ok (some (leaves, auxData))
  | (.dataclass, some r) => do
      let leaves ← r.dataFields.mapM fun field => do
        let value ← py.getattr x field
        .ok (.getAttr field, value)
      let auxData ← r.metaFields.mapM (py.getattr x)
      .ok (some (leaves, .tuple auxData))
  | _ => .ok none

/--
A caller's own recursion over `FlattenOneLevelWithKeys`: the leaves, each with the keys
of its branch.
-/
def leavesByLevel : ℕ → PyObj α → Except PyErr (PathLeaves α)
  | 0, _ => .error .recursionError
  | fuel + 1, x => do
      match ← flattenOneLevelWithKeys py reg x with
      | none => .ok [([], x)]
      | some (children, _) =>
          let rows ← children.mapM fun m => do
            let leaves ← leavesByLevel fuel m.2
            .ok (leaves.map fun l => (m.1 :: l.1, l.2))
          .ok rows.flatten

end Flatten

end JaxDas.Pytree
