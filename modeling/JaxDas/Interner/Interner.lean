import Mathlib.Data.List.Nodup
import Mathlib.Data.List.Sort
import Mathlib.Logic.Function.Basic
import JaxDas.WeakrefCache.Keys

/-!
# WeakValueInterner

An interner holds the arguments of its calls strongly and the results weakly. A call looks
for an entry under the lock, calls the function without it, and stores what the function
returned under the lock again; meanwhile other calls may do the same for an equal key, and
results may die. When a result has died, the callbacks of its weakrefs are due, which may
be much later.

`State` is what the lock protects together with what the calls in progress hold, and
`Step` is one section under the lock, or an event outside of it. Addresses of entries and
of weakref objects are used again once nothing has them any more; results are told apart
forever.
-/

namespace JaxDas.Interner

open WeakrefCache

/-- `a is b`, and `a is b or a == b`. -/
structure Comparison (Obj : Type) where
  is : Obj → Obj → Bool
  equal : Obj → Obj → Bool

/-- What Python promises of them: identity implies equality, which is an equivalence. -/
structure Comparison.Laws {Obj : Type} (C : Comparison Obj) : Prop where
  is_refl : ∀ a, C.is a a = true
  equal_of_is : ∀ {a b}, C.is a b = true → C.equal a b = true
  equal_symm : ∀ {a b}, C.equal a b = true → C.equal b a = true
  equal_trans : ∀ {a b c}, C.equal a b = true → C.equal b c = true → C.equal a c = true

/-- `Key`. Names are interned, so that equal names are the same object. -/
structure Key (Obj : Type) where
  kwnames : List String
  args : List Obj

/-- A weakref with the callback of the interner: its address, and the object it was made for. -/
structure WeakRef (Val : Type) where
  addr : ℕ
  referent : Val
  deriving DecidableEq

/-- `Entry`, and its own address. -/
structure Entry (Obj Val : Type) where
  addr : ℕ
  key : Key Obj
  valueWeakref : WeakRef Val

/-- What a call of the interner is doing. -/
inductive Call (Obj Val : Type) where
  | idle
  /-- The function is running. -/
  | running (key : Key Obj)
  /-- The function has returned; the call holds its result, and the entry it has made. -/
  | storing (entry : Entry Obj Val)

structure State (Obj Val : Type) where
  /-- `entries_`. -/
  entries : List (Entry Obj Val)
  /-- `reverse_index_`, from addresses of weakrefs to addresses of entries. -/
  reverseIndex : List (ℕ × ℕ)
  calls : ℕ → Call Obj Val
  /-- The results that have died. -/
  dead : List Val
  /-- The weakrefs whose callback is due. -/
  pending : List (WeakRef Val)
  /-- What calls have returned, for which keys. -/
  returned : List (Key Obj × Val)

variable {Obj Val : Type}

/-- Right after `Create`. -/
def State.init : State Obj Val where
  entries := []
  reverseIndex := []
  calls _ := .idle
  dead := []
  pending := []
  returned := []

/-- `VectorCall` sorts keyword arguments by their interned names. -/
def makeKey (nameLe : String → String → Bool) (args : List Obj) (kwargs : List (String × Obj)) :
    Key Obj :=
  let sorted := kwargs.insertionSort fun a b => nameLe a.1 b.1 = true
  { kwnames := sorted.map Prod.fst
    args := args ++ sorted.map Prod.snd }

section Operations

variable (C : Comparison Obj)

/-- `KeyEqual` of two keys. -/
def Key.equal (a b : Key Obj) : Bool := a.kwnames == b.kwnames && listsEqual C.equal a.args b.args

/-- `KeyEqual` of a key and a `PointerKey`. -/
def Key.pointerEqual (a b : Key Obj) : Bool :=
  a.kwnames == b.kwnames && listsEqual C.is a.args b.args

variable [DecidableEq Val]

/-- `value_weakref()`: the object, while it lives. -/
def deref (dead : List Val) (w : WeakRef Val) : Option Val :=
  if w.referent ∈ dead then none else some w.referent

/-- `entries_.find`. -/
def find (entries : List (Entry Obj Val)) (key : Key Obj) : Option (Entry Obj Val) :=
  entries.find? fun e => Key.equal C e.key key

/-- `reverse_index_.erase`. -/
def eraseRef (reverseIndex : List (ℕ × ℕ)) (weakref : ℕ) : List (ℕ × ℕ) :=
  reverseIndex.filter fun p => p.1 ≠ weakref

/-- `reverse_index_[weakref] = entry`. -/
def setRef (reverseIndex : List (ℕ × ℕ)) (weakref entry : ℕ) : List (ℕ × ℕ) :=
  (weakref, entry) :: eraseRef reverseIndex weakref

/-- The first section under the lock: the object that a call may return at once. -/
def lookup (s : State Obj Val) (key : Key Obj) : Option Val :=
  match find C s.entries key with
  | some e => deref s.dead e.valueWeakref
  | none => none

/-- The second section under the lock, with the entry that the call has made. -/
def store (s : State Obj Val) (new : Entry Obj Val) : State Obj Val × Val :=
  match find C s.entries new.key with
  | none =>
      ({ s with
          entries := new :: s.entries
          reverseIndex := setRef s.reverseIndex new.valueWeakref.addr new.addr },
        new.valueWeakref.referent)
  | some e =>
      match deref s.dead e.valueWeakref with
      | some ans => (s, ans)
      | none =>
          -- the entry exists but its value is dead: it gets the new weakref
          ({ s with
              entries := s.entries.map fun e' =>
                if e'.addr = e.addr then { e' with valueWeakref := new.valueWeakref } else e'
              reverseIndex := setRef (eraseRef s.reverseIndex e.valueWeakref.addr)
                new.valueWeakref.addr e.addr },
            new.valueWeakref.referent)

/-- `OnWeakrefDestroyed`. -/
def onWeakrefDestroyed (s : State Obj Val) (weakref : ℕ) : State Obj Val :=
  match s.reverseIndex.find? fun p => p.1 = weakref with
  | none => s
  | some (_, addr) =>
      let reverseIndex := eraseRef s.reverseIndex weakref
      match s.entries.find? fun e => e.addr = addr with
      | none => { s with reverseIndex }
      | some entry =>
          { s with
            reverseIndex
            entries := s.entries.eraseP fun e => Key.pointerEqual C e.key entry.key }

end Operations

/-! ## Steps -/

/-- The addresses of weakref objects that something still has. -/
def State.HasRef (s : State Obj Val) (weakref : ℕ) : Prop :=
  (∃ e ∈ s.entries, e.valueWeakref.addr = weakref) ∨
    (∃ c e, s.calls c = .storing e ∧ e.valueWeakref.addr = weakref) ∨
    ∃ w ∈ s.pending, w.addr = weakref

/-- The addresses of entries that something still has. -/
def State.HasEntry (s : State Obj Val) (addr : ℕ) : Prop :=
  (∃ e ∈ s.entries, e.addr = addr) ∨ ∃ c e, s.calls c = .storing e ∧ e.addr = addr

/-- One section under the lock, or an event outside of it. -/
inductive Step [DecidableEq Val] (C : Comparison Obj) : State Obj Val → State Obj Val → Prop where
  /-- A call finds a living result and returns it. -/
  | hit {s : State Obj Val} {c : ℕ} {key : Key Obj} {ans : Val} : s.calls c = .idle →
      lookup C s key = some ans →
      Step C s { s with returned := (key, ans) :: s.returned }
  /-- A call finds none, and calls the function. -/
  | miss {s : State Obj Val} {c : ℕ} {key : Key Obj} : s.calls c = .idle →
      lookup C s key = none →
      Step C s { s with calls := Function.update s.calls c (.running key) }
  /-- The function returns; the call makes a weakref and an entry. -/
  | functionReturns {s : State Obj Val} {c addr weakref : ℕ} {key : Key Obj} {result : Val} :
      s.calls c = .running key → result ∉ s.dead → ¬ s.HasRef weakref → ¬ s.HasEntry addr →
      Step C s { s with
        calls := Function.update s.calls c (.storing ⟨addr, key, ⟨weakref, result⟩⟩) }
  /-- The function, a hash or a comparison raises, or there can be no weakref to the result. -/
  | fails {s : State Obj Val} {c : ℕ} :
      Step C s { s with calls := Function.update s.calls c .idle }
  /-- A call stores its entry and returns. -/
  | store {s : State Obj Val} {c : ℕ} {new : Entry Obj Val} : s.calls c = .storing new →
      Step C s { (store C s new).1 with
        calls := Function.update s.calls c .idle
        returned := (new.key, (store C s new).2) :: s.returned }
  /-- A result dies that no call holds. The callbacks of the weakrefs in entries are due. -/
  | dies {s : State Obj Val} {v : Val} : v ∉ s.dead →
      (∀ c e, s.calls c = .storing e → e.valueWeakref.referent ≠ v) →
      Step C s { s with
        dead := v :: s.dead
        pending := (s.entries.map Entry.valueWeakref).filter (·.referent = v) ++ s.pending }
  /-- A callback runs. -/
  | callback {s : State Obj Val} {w : WeakRef Val} : w ∈ s.pending →
      Step C s { onWeakrefDestroyed C s w.addr with pending := s.pending.erase w }

/-- The states of all runs. -/
inductive Reachable [DecidableEq Val] (C : Comparison Obj) : State Obj Val → Prop where
  | init : Reachable C State.init
  | step {s s' : State Obj Val} : Reachable C s → Step C s s' → Reachable C s'

end JaxDas.Interner
