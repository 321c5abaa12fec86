import Mathlib.Data.List.Basic
import Mathlib.Data.List.Forall2
import Mathlib.Data.List.Nodup
import Mathlib.Tactic.Common

/-!
# Python objects and the pytree registry

What flattening can see of an object: its type, the items of the built-in
containers, and whatever the functions registered for its type answer. Those
functions, Python's comparisons and the calling of types are the program's own
code, so they are fields of `Runtime` and `Registration`, not definitions.

Objects are compared here by what they hold; a container built afresh from the
items of another one is the same object.
-/

namespace JaxDas.Pytree

/-- The exceptions of the module: C++ exceptions, and those of the Python code it calls. -/
inductive PyErr where
  /-- `std::invalid_argument`. -/
  | valueError (msg : String)
  /-- `std::logic_error`. -/
  | logicError (msg : String)
  /-- An exception out of Python code. -/
  | raised (name : String)
  /-- The recursion limit of the interpreter. -/
  | recursionError
  /-- `std::length_error` or `std::bad_alloc`: a vector too long for the memory. -/
  | lengthError
  /-- No exception at all: the behaviour of the program is undefined from here on. -/
  | undefinedBehavior
  deriving DecidableEq, Repr

/-- A class defined by the program, by identity. -/
abbrev ClassId := ℕ

/-- Type objects, by identity. -/
inductive TypeId where
  | noneType | bool | str | type | tuple | list | dict
  | user (c : ClassId)
  deriving DecidableEq, Repr

/-- An object. `α` is whatever else a program computes with: numbers, arrays, functions. -/
inductive PyObj (α : Type) where
  | none
  | bool (b : Bool)
  | str (s : String)
  | type (t : TypeId)
  | atom (cls : ClassId) (a : α)
  | tuple (items : List (PyObj α))
  | list (items : List (PyObj α))
  /-- The items in insertion order. -/
  | dict (items : List (PyObj α × PyObj α))
  /-- An instance of a subclass of `tuple` with a `_fields` attribute. -/
  | namedTuple (cls : ClassId) (items : List (PyObj α))
  /-- An instance of any other class, with its attributes. -/
  | object (cls : ClassId) (attrs : List (String × PyObj α))

namespace PyObj

variable {α : Type}

/-- `type(x)`. -/
def typeOf : PyObj α → TypeId
  | none => .noneType
  | bool _ => .bool
  | str _ => .str
  | type _ => .type
  | atom c _ => .user c
  | tuple _ => .tuple
  | list _ => .list
  | dict _ => .dict
  | namedTuple c _ => .user c
  | object c _ => .user c

/-- The items `PyTuple_GET_ITEM` reads. -/
def tupleItems : PyObj α → List (PyObj α)
  | tuple xs => xs
  | namedTuple _ xs => xs
  | _ => []

/-- The items `PyList_GET_ITEM` reads. -/
def listItems : PyObj α → List (PyObj α)
  | list xs => xs
  | _ => []

/-- The items `PyDict_Next` visits. -/
def dictItems : PyObj α → List (PyObj α × PyObj α)
  | dict items => items
  | _ => []

/-- `isinstance(x, tuple) and hasattr(x, "_fields")`. -/
def isNamedTuple : PyObj α → Bool
  | namedTuple _ _ => true
  | _ => false

end PyObj

/-- What the interpreter does when the module asks it. -/
structure Runtime (α : Type) where
  /-- `a < b`. -/
  lt : PyObj α → PyObj α → Except PyErr Bool
  /-- `a != b`. -/
  ne : PyObj α → PyObj α → Except PyErr Bool
  /-- Two keys are the same to a `dict`. -/
  sameKey : PyObj α → PyObj α → Bool
  /-- The items of an iterable, or nothing if the object is none. -/
  iter : PyObj α → Option (List (PyObj α))
  getattr : PyObj α → String → Except PyErr (PyObj α)
  /-- `f(*args)`. -/
  call : PyObj α → List (PyObj α) → Except PyErr (PyObj α)
  /-- `f(**kwargs)`. -/
  callKw : PyObj α → List (String × PyObj α) → Except PyErr (PyObj α)
  /-- `PyObject_IsSubclass(t, tuple)` and `hasattr(t, "_fields")`. -/
  isNamedTupleType : PyObj α → Except PyErr Bool
  repr : PyObj α → String
  iter_tuple : ∀ xs, iter (.tuple xs) = some xs
  iter_list : ∀ xs, iter (.list xs) = some xs
  /-- Type objects are compared by identity. -/
  ne_type : ∀ s t, ne (.type s) (.type t) = .ok (decide (s ≠ t))
  ne_str : ∀ a b, ne (.str a) (.str b) = .ok (decide (a ≠ b))

/-! ## The registry -/

/-- `PyTreeKind`. -/
inductive PyTreeKind where
  | leaf | none | tuple | namedTuple | list | dict | custom | dataclass
  deriving DecidableEq, Repr

/-- A Python function `(aux_data, children) -> object`, with the identity of the function object. -/
structure Callable (α : Type) where
  ptr : ℕ
  call : PyObj α → List (PyObj α) → Except PyErr (PyObj α)

/-- `PyTreeRegistry::Registration`. -/
structure Registration (α : Type) where
  kind : PyTreeKind
  type : TypeId
  toIterableFn : PyObj α → Except PyErr (PyObj α) := fun _ => .error (.raised "TypeError")
  fromIterable : Callable α := ⟨0, fun _ _ => .error (.raised "TypeError")⟩
  toIterableWithKeysFn : Option (PyObj α → Except PyErr (PyObj α)) := none
  dataFields : List String := []
  metaFields : List String := []

/-- The kinds a registration can have, and the types that have the built-in ones. -/
def Registration.KindOk {α : Type} (r : Registration α) : Prop :=
  match r.kind with
  | .none => r.type = .noneType
  | .tuple => r.type = .tuple
  | .list => r.type = .list
  | .dict => r.type = .dict
  | .custom => True
  | .dataclass => True
  | .leaf => False
  | .namedTuple => False

/-- `PyTreeRegistry`: at most one registration for each type. -/
structure PyTreeRegistry (α : Type) where
  /-- The identity of the registry object. -/
  id : ℕ
  registrations : List (Registration α)
  nodup : (registrations.map (·.type)).Nodup
  kindOk : ∀ r ∈ registrations, r.KindOk

namespace PyTreeRegistry

variable {α : Type}

/-- `PyTreeRegistry::Lookup`. -/
def lookup (reg : PyTreeRegistry α) (t : TypeId) : Option (Registration α) :=
  reg.registrations.find? fun r => r.type = t

theorem lookup_mem {reg : PyTreeRegistry α} {t : TypeId} {r : Registration α}
    (h : reg.lookup t = some r) : r ∈ reg.registrations := List.mem_of_find?_eq_some h

theorem lookup_type {reg : PyTreeRegistry α} {t : TypeId} {r : Registration α}
    (h : reg.lookup t = some r) : r.type = t := by
  simpa using List.find?_some h

/-- Registrations of one registry are identified by their type. -/
theorem eq_of_type {reg : PyTreeRegistry α} {r s : Registration α} (hr : r ∈ reg.registrations)
    (hs : s ∈ reg.registrations) (h : r.type = s.type) : r = s :=
  List.inj_on_of_nodup_map reg.nodup hr hs h

theorem lookup_of_mem {reg : PyTreeRegistry α} {r : Registration α}
    (hr : r ∈ reg.registrations) : reg.lookup r.type = some r := by
  cases h : reg.lookup r.type with
  | none => exact absurd (List.find?_eq_none.mp h r hr) (by simp)
  | some s => rw [reg.eq_of_type (lookup_mem h) hr (lookup_type h)]

/-- `registrations_.emplace(type, registration)`. -/
def emplace (reg : PyTreeRegistry α) (r : Registration α) (hr : r.KindOk) (msg : String) :
    Except PyErr (PyTreeRegistry α) :=
  if h : r.type ∈ reg.registrations.map (·.type) then .error (.valueError msg)
  else .ok
    { id := reg.id
      registrations := r :: reg.registrations
      nodup := by rw [List.map_cons]; exact List.nodup_cons.mpr ⟨h, reg.nodup⟩
      kindOk := List.forall_mem_cons.mpr ⟨hr, reg.kindOk⟩ }

/-- `PyTreeRegistry::Register`. -/
def register (py : Runtime α) (reg : PyTreeRegistry α) (t : TypeId)
    (toIterable : PyObj α → Except PyErr (PyObj α)) (fromIterable : Callable α)
    (toIterableWithKeys : Option (PyObj α → Except PyErr (PyObj α))) :
    Except PyErr (PyTreeRegistry α) :=
  reg.emplace
    { kind := .custom, type := t, toIterableFn := toIterable, fromIterable,
      toIterableWithKeysFn := toIterableWithKeys } trivial
    ("Duplicate custom PyTreeDef type registration for " ++ py.repr (.type t) ++ ".")

/-- `PyTreeRegistry::RegisterDataclass`. -/
def registerDataclass (py : Runtime α) (reg : PyTreeRegistry α) (t : TypeId)
    (dataFields metaFields : List String) : Except PyErr (PyTreeRegistry α) :=
  reg.emplace { kind := .dataclass, type := t, dataFields, metaFields } trivial
    ("Duplicate custom dataclass PyTreeDef type registration for " ++ py.repr (.type t) ++ ".")

/-- The built-in types, with the kinds the constructor gives them. -/
def builtins (enableNone enableTuple enableList enableDict : Bool) : List (Registration α) :=
  (if enableNone then [{ kind := .none, type := .noneType }] else []) ++
  (if enableTuple then [{ kind := .tuple, type := .tuple }] else []) ++
  (if enableList then [{ kind := .list, type := .list }] else []) ++
  (if enableDict then [{ kind := .dict, type := .dict }] else [])

/--
The constructor `PyTreeRegistry::PyTreeRegistry`. It also takes `enable_namedtuple`, which
nothing reads.
-/
def new (id : ℕ) (enableNone enableTuple enableList enableDict : Bool) : PyTreeRegistry α where
  id := id
  registrations := builtins enableNone enableTuple enableList enableDict
  nodup := by
    cases enableNone <;> cases enableTuple <;> cases enableList <;> cases enableDict <;>
      simp [builtins]
  kindOk := by
    cases enableNone <;> cases enableTuple <;> cases enableList <;> cases enableDict <;>
      simp [builtins, Registration.KindOk]

/-- `PyTreeRegistry::KindOfObject`: the kind, and the registration of a custom type. -/
def kindOfObject (reg : PyTreeRegistry α) (x : PyObj α) :
    PyTreeKind × Option (Registration α) :=
  match reg.lookup x.typeOf with
  | some r => (r.kind, if r.kind = .custom ∨ r.kind = .dataclass then some r else none)
  | none => if x.isNamedTuple then (.namedTuple, none) else (.leaf, none)

end PyTreeRegistry

/-- `Registration::ToIterable`: the children and the auxiliary data of a custom node. -/
def Registration.toIterable {α : Type} (py : Runtime α) (r : Registration α) (x : PyObj α) :
    Except PyErr (List (PyObj α) × PyObj α) := do
  let out ← r.toIterableFn x
  match out with
  | .tuple [leaves, auxData] =>
      match py.iter leaves with
      | some children => .ok (children, auxData)
      | none => .error (.valueError
          ("The to_iterable function for a custom PyTree node should return " ++
            "a (children, aux_data) tuple where 'children' is iterable, got " ++ py.repr out))
  | _ => .error (.valueError
      ("The to_iterable function for a custom PyTree node should return " ++
        "a (children, aux_data) tuple, got " ++ py.repr out))

/-! ## Dictionary keys in order -/

section Sorting

variable {α : Type} (py : Runtime α)

/-- Put an item where the first larger-or-equal key begins. -/
def insertItem (m : PyObj α × PyObj α) :
    List (PyObj α × PyObj α) → Except PyErr (List (PyObj α × PyObj α))
  | [] => .ok [m]
  | n :: items => do
      if ← py.lt n.1 m.1 then
        let rest ← insertItem m items
        .ok (n :: rest)
      else .ok (m :: n :: items)

/-- The stable sort of the items by key. -/
def sortItems : List (PyObj α × PyObj α) → Except PyErr (List (PyObj α × PyObj α))
  | [] => .ok []
  | m :: items => do
      let sorted ← sortItems items
      insertItem py m sorted

/-- `GetSortedPyDictKeys`, with the value of each key: an exception of `<` becomes another. -/
def getSortedPyDictItems (items : List (PyObj α × PyObj α)) :
    Except PyErr (List (PyObj α × PyObj α)) :=
  match sortItems py items with
  | .ok sorted => .ok sorted
  | .error _ =>
      .error (.valueError "Comparator raised exception while sorting pytree dictionary keys.")

/-- `IsSortedPyDictKeysEqual`. -/
def isSortedPyDictKeysEqual : List (PyObj α) → List (PyObj α) → Except PyErr Bool
  | [], [] => .ok true
  | k :: ks, l :: ls => do
      if ← py.ne k l then .ok false
      else isSortedPyDictKeysEqual ks ls
  | _, _ => .ok false

/-- `dict[key] = value`. -/
def dictSet (k v : PyObj α) : List (PyObj α × PyObj α) → List (PyObj α × PyObj α)
  | [] => [(k, v)]
  | m :: items => if py.sameKey m.1 k then (m.1, v) :: items else m :: dictSet k v items

end Sorting

/-! ## A plain interpreter -/

section Plain

variable {α : Type} [DecidableEq α]

mutual

/-- Equality of objects without `__eq__` methods; items of dictionaries are compared in order. -/
def PyObj.beq : PyObj α → PyObj α → Bool
  | .none, .none => true
  | .bool a, .bool b => a = b
  | .str a, .str b => a = b
  | .type s, .type t => s = t
  | .atom c a, .atom d b => c = d && a = b
  | .tuple xs, .tuple ys => PyObj.beqItems xs ys
  | .list xs, .list ys => PyObj.beqItems xs ys
  | .dict xs, .dict ys => PyObj.beqDict xs ys
  | .namedTuple c xs, .namedTuple d ys => c = d && PyObj.beqItems xs ys
  | .object c xs, .object d ys => c = d && PyObj.beqAttrs xs ys
  | _, _ => false
termination_by structural x => x

def PyObj.beqItems : List (PyObj α) → List (PyObj α) → Bool
  | [], [] => true
  | x :: xs, y :: ys => x.beq y && PyObj.beqItems xs ys
  | _, _ => false
termination_by structural x => x

def PyObj.beqDict : List (PyObj α × PyObj α) → List (PyObj α × PyObj α) → Bool
  | [], [] => true
  | (k, x) :: xs, (l, y) :: ys => k.beq l && x.beq y && PyObj.beqDict xs ys
  | _, _ => false
termination_by structural x => x

def PyObj.beqAttrs : List (String × PyObj α) → List (String × PyObj α) → Bool
  | [], [] => true
  | (k, x) :: xs, (l, y) :: ys => k = l && x.beq y && PyObj.beqAttrs xs ys
  | _, _ => false
termination_by structural x => x

end

mutual

/-- Objects without `__eq__` methods are equal when they are built alike. -/
theorem PyObj.beq_iff : ∀ (x y : PyObj α), x.beq y = true ↔ x = y
  | .none, y => by cases y <;> simp [PyObj.beq]
  | .bool a, y => by cases y <;> simp [PyObj.beq]
  | .str a, y => by cases y <;> simp [PyObj.beq]
  | .type s, y => by cases y <;> simp [PyObj.beq]
  | .atom c a, y => by cases y <;> simp [PyObj.beq]
  | .tuple xs, y => by cases y <;> simp [PyObj.beq, PyObj.beqItems_iff xs]
  | .list xs, y => by cases y <;> simp [PyObj.beq, PyObj.beqItems_iff xs]
  | .dict xs, y => by cases y <;> simp [PyObj.beq, PyObj.beqDict_iff xs]
  | .namedTuple c xs, y => by cases y <;> simp [PyObj.beq, PyObj.beqItems_iff xs]
  | .object c xs, y => by cases y <;> simp [PyObj.beq, PyObj.beqAttrs_iff xs]

theorem PyObj.beqItems_iff : ∀ (xs ys : List (PyObj α)), PyObj.beqItems xs ys = true ↔ xs = ys
  | [], ys => by cases ys <;> simp [PyObj.beqItems]
  | x :: xs, ys => by
      cases ys <;> simp [PyObj.beqItems, PyObj.beq_iff x, PyObj.beqItems_iff xs]

theorem PyObj.beqDict_iff : ∀ (xs ys : List (PyObj α × PyObj α)),
    PyObj.beqDict xs ys = true ↔ xs = ys
  | [], ys => by cases ys <;> simp [PyObj.beqDict]
  | (k, x) :: xs, ys => by
      cases ys <;>
        simp [PyObj.beqDict, PyObj.beq_iff k, PyObj.beq_iff x, PyObj.beqDict_iff xs, Prod.ext_iff]

theorem PyObj.beqAttrs_iff : ∀ (xs ys : List (String × PyObj α)),
    PyObj.beqAttrs xs ys = true ↔ xs = ys
  | [], ys => by cases ys <;> simp [PyObj.beqAttrs]
  | (k, x) :: xs, ys => by
      cases ys <;> simp [PyObj.beqAttrs, PyObj.beq_iff x, PyObj.beqAttrs_iff xs, Prod.ext_iff]

end

/--
An interpreter whose classes do nothing unusual: strings are ordered, instances compare
by what they hold, and calling a class keeps the arguments it is called with.
-/
def Runtime.plain (namedTuples : List ClassId) : Runtime α where
  lt
    | .str a, .str b => .ok (a < b)
    | _, _ => .error (.raised "TypeError")
  ne a b := .ok (!a.beq b)
  sameKey a b := a.beq b
  iter
    | .tuple xs => some xs
    | .list xs => some xs
    | .dict items => some (items.map Prod.fst)
    | _ => none
  getattr x name :=
    match x with
    | .object _ attrs =>
        match attrs.find? fun m => m.1 = name with
        | some m => .ok m.2
        | none => .error (.raised "AttributeError")
    | _ => .error (.raised "AttributeError")
  call f args :=
    match f with
    | .type (.user c) =>
        if c ∈ namedTuples then .ok (.namedTuple c args) else .error (.raised "TypeError")
    | _ => .error (.raised "TypeError")
  callKw f kwargs :=
    match f with
    | .type (.user c) =>
        if c ∈ namedTuples then .error (.raised "TypeError") else .ok (.object c kwargs)
    | _ => .error (.raised "TypeError")
  isNamedTupleType
    | .type (.user c) => .ok (c ∈ namedTuples)
    | .type _ => .ok false
    | _ => .error (.raised "TypeError")
  repr _ := "<object>"
  iter_tuple _ := rfl
  iter_list _ := rfl
  ne_type s t := by simp [PyObj.beq]
  ne_str a b := by simp [PyObj.beq]

end Plain

/-- The registry of the built-in containers. -/
def builtinRegistry : PyTreeRegistry ℕ := .new 0 true true true true

end JaxDas.Pytree
