import JaxDas.Pytree.TreeDef

/-!
# Flattening up to a definition

`FlattenUpTo` takes an object apart along the nodes of a definition and stops at its
leaves. It reads the node list backwards, with the objects still to be taken apart on an
agenda, and fills a list of leaves from its end.

An entry of that list is `none` as long as nothing was stored in it.
-/

namespace JaxDas.Pytree

variable {α : Type}

/-! ## The text of a definition -/

section ToString

variable (py : Runtime α) (str : PyObj α → Except PyErr String)

/-- The text of a node, given those of its children. -/
def Node.representation (n : Node α) (children : List String) : Except PyErr String :=
  let joined := ", ".intercalate children
  match n.kind with
  | .leaf => .ok "*"
  | .none => .ok "None"
  | .tuple => .ok ("(" ++ (if n.arity = 1 then joined ++ "," else joined) ++ ")")
  | .list => .ok ("[" ++ joined ++ "]")
  | .dict =>
      if (n.sortedDictKeys.length : ℤ) ≠ n.arity then
        .error (.logicError "Number of keys and entries does not match.")
      else .ok ("\x7b" ++ ", ".intercalate
        (List.zipWith (fun k c => py.repr k ++ ": " ++ c) n.sortedDictKeys children) ++ "\x7d")
  | .namedTuple => do
      let data ← match n.nodeData with
        | some t => do
            let name ← py.getattr t "__name__"
            let name ← str name
            .ok ("[" ++ name ++ "]")
        | none => .ok ""
      .ok ("CustomNode(namedtuple" ++ data ++ ", [" ++ joined ++ "])")
  | .custom | .dataclass =>
      match n.custom with
      | none => .error .undefinedBehavior
      | some r => do
          let name ← py.getattr (.type r.type) "__name__"
          let kind ← str name
          let data ← match n.nodeData with
            | some x => do
                let text ← str x
                .ok ("[" ++ text ++ "]")
            | none => .ok ""
          .ok ("CustomNode(" ++ kind ++ data ++ ", [" ++ joined ++ "])")

/-- The loop of `ToString`. -/
def toStringLoop : List (Node α) → List String → Except PyErr (List String)
  | [], agenda => .ok agenda
  | n :: ns, agenda =>
      if n.arity < 0 ∨ (agenda.length : ℤ) < n.arity then
        .error (.logicError "Too few elements for container.")
      else do
        let children := agenda.drop (agenda.length - n.arity.toNat)
        let representation ← n.representation py str children
        -- A leaf leaves the agenda as it is.
        let below := if n.kind = .leaf then agenda
          else agenda.take (agenda.length - n.arity.toNat)
        toStringLoop ns (below ++ [representation])

/-- `PyTreeDef::ToString`. -/
def PyTreeDef.toString (d : PyTreeDef α) : Except PyErr String := do
  let agenda ← toStringLoop py str d.traversal []
  match agenda with
  | [text] => .ok ("PyTreeDef(" ++ text ++ ")")
  | _ => .error (.logicError "PyTreeDef traversal did not yield a singleton.")

end ToString

/-! ## `FlattenUpTo` -/

section UpTo

variable (py : Runtime α) (reg : PyTreeRegistry α)

/-- `registration != node.custom`; a registration is identified by its type. -/
def registrationDiffers (x : PyObj α) (n : Node α) : Bool :=
  (reg.lookup x.typeOf).map (·.type) ≠ n.custom.map (·.type)

/-- The `switch` of `FlattenUpTo`: what a node that is no leaf pushes on the agenda. -/
def upToChildren (n : Node α) (object : PyObj α) : Except PyErr (List (PyObj α)) :=
  match n.kind with
  | .leaf => .ok []
  | .none =>
      if object.typeOf ≠ .noneType then .error (.valueError
        ("Expected None, got " ++ py.repr object ++ ".\n\n" ++
          "In previous releases of JAX, flatten-up-to used to consider None to be a " ++
          "tree-prefix of non-None values. To obtain the previous behavior, you can usually " ++
          "write:\n  jax.tree.map(lambda x, y: None if x is None else f(x, y), a, b, " ++
          "is_leaf=lambda x: x is None)"))
      else .ok []
  | .tuple =>
      if object.typeOf ≠ .tuple then
        .error (.valueError ("Expected tuple, got " ++ py.repr object ++ "."))
      else if (object.tupleItems.length : ℤ) ≠ n.arity then .error (.valueError
        ("Tuple arity mismatch: " ++ toString object.tupleItems.length ++ " != " ++
          toString n.arity ++ "; tuple: " ++ py.repr object ++ "."))
      else .ok object.tupleItems
  | .list =>
      if object.typeOf ≠ .list then
        .error (.valueError ("Expected list, got " ++ py.repr object ++ "."))
      else if (object.listItems.length : ℤ) ≠ n.arity then .error (.valueError
        ("List arity mismatch: " ++ toString object.listItems.length ++ " != " ++
          toString n.arity ++ "; list: " ++ py.repr object ++ "."))
      else .ok object.listItems
  | .dict =>
      if object.typeOf ≠ .dict then
        .error (.valueError ("Expected dict, got " ++ py.repr object ++ "."))
      else do
        let items ← getSortedPyDictItems py object.dictItems
        if ← isSortedPyDictKeysEqual py (items.map Prod.fst) n.sortedDictKeys then
          .ok (items.map Prod.snd)
        else .error (.valueError
          ("Dict key mismatch; expected keys: " ++ py.repr (.list n.sortedDictKeys) ++
            "; present keys: " ++ py.repr (.list (items.map Prod.fst)) ++ "."))
  | .namedTuple =>
      if !object.isNamedTuple then
        .error (.valueError ("Expected named tuple, got " ++ py.repr object ++ "."))
      else if (object.tupleItems.length : ℤ) ≠ n.arity then .error (.valueError
        ("Named tuple arity mismatch: " ++ toString object.tupleItems.length ++ " != " ++
          toString n.arity ++ "; tuple: " ++ py.repr object ++ "."))
      else do
        if ← py.ne (.type object.typeOf) (n.nodeData.getD .none) then .error (.valueError
          ("Named tuple type mismatch: expected type: " ++ py.repr (n.nodeData.getD .none) ++
            ", tuple: " ++ py.repr object ++ "."))
        else .ok object.tupleItems
  | .custom =>
      match n.custom with
      | none => .error .undefinedBehavior
      | some r =>
          if registrationDiffers reg object n then .error (.valueError
            ("Custom node type mismatch: expected type: " ++ py.repr (.type r.type) ++
              ", value: " ++ py.repr object ++ "."))
          else do
            let (leaves, auxData) ← r.toIterable py object
            if ← py.ne (n.nodeData.getD .none) auxData then .error (.valueError
              ("Mismatch custom node data: " ++ py.repr (n.nodeData.getD .none) ++ " != " ++
                py.repr auxData ++ "; value: " ++ py.repr object ++ "."))
            else if (leaves.length : ℤ) ≠ n.arity then .error (.valueError
              ("Custom type arity mismatch: " ++ toString leaves.length ++ " != " ++
                toString n.arity ++ "; value: " ++ py.repr object ++ "."))
            else .ok leaves
  | .dataclass =>
      match n.custom with
      | none => .error .undefinedBehavior
      | some r =>
          if registrationDiffers reg object n then .error (.valueError
            ("Custom dataclass node type mismatch: expected type: " ++ py.repr (.type r.type) ++
              ", value: " ++ py.repr object ++ "."))
          else do
            let auxData ← r.metaFields.mapM (py.getattr object)
            if ← py.ne (n.nodeData.getD .none) (.tuple auxData) then .error (.valueError
              ("Mismatch custom dataclass node data: " ++ py.repr (n.nodeData.getD .none) ++
                " != " ++ py.repr (.tuple auxData) ++ "; value: " ++ py.repr object ++ "."))
            else if (r.dataFields.length : ℤ) ≠ n.arity then .error (.valueError
              ("Custom type arity mismatch: " ++ toString r.dataFields.length ++ " != " ++
                toString n.arity ++ "; value: " ++ py.repr object ++ "."))
            else r.dataFields.mapM (py.getattr object)

/--
The loop of `FlattenUpTo`, with the nodes from the last to the first, the agenda from its
back, and the position of the next leaf.
-/
def flattenUpToLoop (mismatch : PyErr) : List (Node α) → List (PyObj α) → ℤ →
    List (Option (PyObj α)) → Except PyErr (List (Option (PyObj α)))
  | ns, [], leaf, leaves =>
      if !ns.isEmpty || leaf ≠ -1 then .error mismatch else .ok leaves
  | [], _ :: _, _, _ => .error mismatch
  | n :: ns, object :: agenda, leaf, leaves =>
      if n.kind = .leaf then
        if leaf < 0 then .error (.logicError "Leaf count mismatch.")
        else flattenUpToLoop mismatch ns agenda (leaf - 1) (leaves.set leaf.toNat (some object))
      else do
        let children ← upToChildren py reg n object
        flattenUpToLoop mismatch ns (children.reverse ++ agenda) leaf leaves

/-- The exception that names the two structures. -/
def structuresDidNotMatch (str : PyObj α → Except PyErr String) (d : PyTreeDef α)
    (xs : PyObj α) : PyErr :=
  match d.toString py str with
  | .ok text =>
      .valueError ("Tree structures did not match: " ++ py.repr xs ++ " vs " ++ text)
  | .error e => e

/-- `PyTreeDef::FlattenUpTo`. -/
def PyTreeDef.flattenUpTo (str : PyObj α → Except PyErr String) (d : PyTreeDef α)
    (xs : PyObj α) : Except PyErr (List (Option (PyObj α))) :=
  flattenUpToLoop py d.registry (structuresDidNotMatch py str d xs) d.traversal.reverse [xs]
    (d.numLeaves - 1) (List.replicate d.numLeaves.toNat none)

end UpTo

end JaxDas.Pytree
