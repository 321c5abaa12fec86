import Mathlib.Algebra.Order.Ring.Int
import JaxDas.Lib.IntrusiveList
import JaxDas.Lib.SlotTable
import JaxDas.WeakrefCache.Keys

/-!
# The weakref cache as a state machine

`WeakrefLRUCacheBase` with its running calls. Everything done under the lock is one
step: the first half of `Call`, the release of what a call holds, the callback of a
weakref, an explicit eviction, `Clear`. Between its two halves a call is a `Frame`.

Entries are shared: by a slot of the two-level map, and by frames. What the C++ code
leaves to `shared_ptr` is spelled out here: a step that drops an entry calls
`release`, which runs the destructor unless somebody still holds it.
-/

namespace JaxDas.WeakrefCache

open IntrusiveList SlotTable

/-- `CacheEntry`, without its links. -/
structure CacheEntry (Obj Def : Type) where
  completed : Bool := false
  /-- `result`, when `has_result`. -/
  result : Option Obj := none
  threadId : ℕ
  wrKey : WeakKey Obj
  key : StrongKey Obj Def

/-- What a running call holds on to. -/
structure Frame where
  id : ℕ
  threadId : ℕ
  entry : ℕ
  inserted : Bool
  deriving DecidableEq

/-- A call, the entry that served it, and the keys of that entry. -/
structure Served (Obj Def Call : Type) where
  call : Call
  entry : ℕ
  wrKey : WeakKey Obj
  key : StrongKey Obj Def

/-- The first level of the map has the caches of the second level as its values. -/
abbrev Slot (Obj Def : Type) := WeakKey Obj × List (StrongKey Obj Def × ℕ)

/--
The state of a cache. `clock`, `lastUse` and `served` only record what happened; no
step reads them.
-/
structure State (Obj Def Call : Type) where
  entries : List (Slot Obj Def) := []
  /-- The entries that have not been destroyed. -/
  heap : ℕ → Option (CacheEntry Obj Def) := fun _ => none
  links : Links ℕ := .empty
  lruSize : ℤ := 0
  /-- The entries under a weakref; none is the same as no set at all. -/
  reverseIndex : ℕ → List ℕ := fun _ => []
  misses : ℤ := 0
  totalQueries : ℤ := 0
  frames : List Frame := []
  nextEntry : ℕ := 0
  nextFrame : ℕ := 0
  nextRef : ℕ := 0
  /-- The weakrefs made so far, the cleared ones, and those whose callback is to come. -/
  refs : List (WeakRef Obj) := []
  cleared : ℕ → Bool := fun _ => false
  pending : List ℕ := []
  clock : ℕ := 0
  lastUse : ℕ → ℕ := fun _ => 0
  served : List (Served Obj Def Call) := []

/-- A cache: its size, and how it makes the keys of a call. -/
structure Config (Obj Def Call : Type) where
  maxsize : ℤ
  /-- The weakly held objects and the strong key, unless making them raises. -/
  makeKey : Call → Option (List Obj × StrongKey Obj Def)

variable {Obj Def Call : Type}

/-- The entries that slots lead to. -/
def mappedOf (slots : List (Slot Obj Def)) : List ℕ :=
  slots.flatMap fun slot => slot.2.map Prod.snd

namespace State

/-- The entries that the map leads to. -/
def mapped (s : State Obj Def Call) : List ℕ := mappedOf s.entries

/-- Some running call holds the entry. -/
def Held (s : State Obj Def Call) (e : ℕ) : Prop := ∃ f ∈ s.frames, f.entry = e

instance (s : State Obj Def Call) (e : ℕ) : Decidable (s.Held e) :=
  inferInstanceAs (Decidable (∃ f ∈ s.frames, f.entry = e))

/-! ## The LRU list -/

/-- `CacheEntry::Unlink`. -/
def unlink (s : State Obj Def Call) (e : ℕ) : State Obj Def Call :=
  { s with links := s.links.unlink e, lruSize := s.lruSize - 1 }

/-- `if (entry->IsLinked()) entry->Unlink()`. -/
def unlinkIfLinked (s : State Obj Def Call) (e : ℕ) : State Obj Def Call :=
  if s.links.isLinked e then s.unlink e else s

/-- `PushFront`. -/
def pushFront (s : State Obj Def Call) (e : ℕ) : State Obj Def Call :=
  { s with links := s.links.pushFront e, lruSize := s.lruSize + 1 }

/-- `MoveToFront`. -/
def moveToFront (s : State Obj Def Call) (e : ℕ) : State Obj Def Call :=
  (s.unlinkIfLinked e).pushFront e

/-! ## Destruction -/

/-- `RemoveEntryFromReverseIndex`. -/
def removeEntryFromReverseIndex (s : State Obj Def Call) (e : ℕ) (wrKey : WeakKey Obj) :
    State Obj Def Call :=
  let remove (index : ℕ → List ℕ) (r : WeakRef Obj) :=
    Function.update index r.id ((index r.id).filter (· ≠ e))
  { s with reverseIndex := wrKey.foldl remove s.reverseIndex }

/-- `~CacheEntry`. -/
def destroy (s : State Obj Def Call) (e : ℕ) : State Obj Def Call :=
  match s.heap e with
  | none => s
  | some c =>
      let s := (s.unlinkIfLinked e).removeEntryFromReverseIndex e c.wrKey
      { s with heap := Function.update s.heap e none }

/-- Drop a reference to an entry. -/
def release (s : State Obj Def Call) (e : ℕ) : State Obj Def Call :=
  if e ∈ s.mapped ∨ s.Held e then s else s.destroy e

/-- Drop references to entries, one after the other. -/
def releaseAll (s : State Obj Def Call) (es : List ℕ) : State Obj Def Call := es.foldl release s

/-! ## Lookups -/

/-- `WeakKey::Make`: new weakrefs to the objects. -/
def makeRefs : ℕ → List Obj → WeakKey Obj
  | _, [] => []
  | i, o :: os => ⟨i, o⟩ :: makeRefs (i + 1) os

/-- The state with these weakrefs made. -/
def withRefs (s : State Obj Def Call) (os : List Obj) : State Obj Def Call :=
  { s with nextRef := s.nextRef + os.length, refs := s.refs ++ makeRefs s.nextRef os }

section Lookups

variable (I : Interp Obj Def)

/-- `entries_.find(key)`. -/
def findWeak (s : State Obj Def Call) (k : WeakKey Obj) :
    Option (List (Slot Obj Def) × Slot Obj Def × List (Slot Obj Def)) :=
  find (fun slot => I.reaches (s.entries.map fun t => WeakKey.hash I t.1) (WeakKey.hash I k)
    (WeakKey.hash I slot.1) && WeakKey.equal I s.cleared slot.1 k) s.entries

/-- `entries_.find(ptr_wr_key)`. -/
def findWeakPointer (s : State Obj Def Call) (k : WeakKey Obj) :
    Option (List (Slot Obj Def) × Slot Obj Def × List (Slot Obj Def)) :=
  find (fun slot => I.reaches (s.entries.map fun t => WeakKey.hash I t.1) (WeakKey.hash I k)
    (WeakKey.hash I slot.1) && WeakKey.pointerEqual slot.1 k) s.entries

/-- `cache.find(lkey)`. -/
def findStrong (cache : List (StrongKey Obj Def × ℕ)) (k : StrongKey Obj Def) :
    Option (List (StrongKey Obj Def × ℕ) × (StrongKey Obj Def × ℕ) × List (StrongKey Obj Def × ℕ)) :=
  find (fun slot => I.reaches (cache.map fun t => t.1.hash I) (k.hash I) (slot.1.hash I) &&
    StrongKey.equal I slot.1 k) cache

/-- `cache_ptr->find(ptr_strong_key)`. -/
def findStrongPointer (cache : List (StrongKey Obj Def × ℕ)) (k : StrongKey Obj Def) :
    Option (List (StrongKey Obj Def × ℕ) × (StrongKey Obj Def × ℕ) × List (StrongKey Obj Def × ℕ)) :=
  find (fun slot => I.reaches (cache.map fun t => t.1.hash I) (k.hash I) (slot.1.hash I) &&
    StrongKey.pointerEqual I slot.1 k) cache

/-! ## Eviction -/

/-- The slots with the one of `wrKey` in place, or without it if its cache is empty. -/
def putCache (before : List (Slot Obj Def)) (wrKey : WeakKey Obj)
    (cache : List (StrongKey Obj Def × ℕ)) (after : List (Slot Obj Def)) : List (Slot Obj Def) :=
  if cache.isEmpty then before ++ after else before ++ (wrKey, cache) :: after

/-- `EvictLeastRecentlyUsed`. -/
def evictLeastRecentlyUsed (s : State Obj Def Call) : State Obj Def Call :=
  match s.links.tail with
  | none => s
  | some tail =>
      match s.heap tail with
      | none => s
      | some c =>
          let s := s.unlinkIfLinked tail
          match s.findWeakPointer I c.wrKey with
          | none => s
          | some (before, (wrKey, cache), after) =>
              match findStrongPointer I cache c.key with
              | none => s
              | some (b, (_, e), a) =>
                  { s with entries := putCache before wrKey (b ++ a) after }.release e

/-- One round of the loop of `EvictWeakref`, with the entries it defers to delete. -/
def evictEntry (s : State Obj Def Call) (e : ℕ) : State Obj Def Call × List ℕ :=
  match s.heap e with
  | none => (s, [])
  | some c =>
      let s := s.unlinkIfLinked e
      match s.findWeakPointer I c.wrKey with
      | none => (s, [])
      | some (before, (wrKey, cache), after) =>
          match findStrongPointer I cache c.key with
          | none => ({ s with entries := putCache before wrKey cache after }, [])
          | some (b, (_, e'), a) =>
              ({ s with entries := putCache before wrKey (b ++ a) after }, [e'])

/-- The loop of `EvictWeakref`. -/
def evictEntries (s : State Obj Def Call) : List ℕ → State Obj Def Call × List ℕ
  | [] => (s, [])
  | e :: es =>
      let (s', deferred) := s.evictEntry I e
      let (s'', deferred') := s'.evictEntries es
      (s'', deferred ++ deferred')

/-- `EvictWeakref`. -/
def evictWeakref (s : State Obj Def Call) (dyingWeakref : ℕ) : State Obj Def Call :=
  let entriesToEvict := I.order (s.reverseIndex dyingWeakref)
  let s := { s with reverseIndex := Function.update s.reverseIndex dyingWeakref [] }
  let (s', deferredDeletes) := s.evictEntries I entriesToEvict
  s'.releaseAll deferredDeletes

/-- `EvictWeakKey`. -/
def evictWeakKey (s : State Obj Def Call) (searchKey : WeakKey Obj) : State Obj Def Call :=
  match s.findWeak I searchKey with
  | none => s
  | some (before, (_, cache), after) =>
      let s := (cache.map Prod.snd).foldl unlinkIfLinked s
      { s with entries := before ++ after }.releaseAll (cache.map Prod.snd)

end Lookups

/-- `Clear`. -/
def clear (s : State Obj Def Call) : State Obj Def Call :=
  let s' := s.mapped.foldl unlinkIfLinked s
  { s' with entries := [], reverseIndex := fun _ => [], misses := 0, totalQueries := 0 }.releaseAll
    s.mapped

/-! ## Calls -/

/-- What a call that found an entry leaves behind when it lets go of the lock. -/
def serve (s : State Obj Def Call) (threadId : ℕ) (call : Call) (e : ℕ) (inserted : Bool)
    (wrKey : WeakKey Obj) (key : StrongKey Obj Def) : State Obj Def Call :=
  { s with
      frames := ⟨s.nextFrame, threadId, e, inserted⟩ :: s.frames
      nextFrame := s.nextFrame + 1
      clock := s.clock + 1
      lastUse := Function.update s.lastUse e s.clock
      served := ⟨call, e, wrKey, key⟩ :: s.served }

/-- The new entry of a call that missed. -/
def insert (s : State Obj Def Call) (threadId : ℕ) (before : List (Slot Obj Def))
    (wrKey : WeakKey Obj) (cache : List (StrongKey Obj Def × ℕ)) (after : List (Slot Obj Def))
    (key : StrongKey Obj Def) : State Obj Def Call :=
  { s with
      misses := s.misses + 1
      entries := before ++ (wrKey, cache ++ [(key, s.nextEntry)]) :: after
      heap := Function.update s.heap s.nextEntry (some { threadId, wrKey, key })
      nextEntry := s.nextEntry + 1
      reverseIndex := fun r =>
        if r ∈ WeakKey.ids wrKey then s.nextEntry :: s.reverseIndex r else s.reverseIndex r
      }.pushFront s.nextEntry

/-- The part of `Call` under the lock, up to `explain_`. -/
def enter (I : Interp Obj Def) (cfg : Config Obj Def Call) (s : State Obj Def Call) (threadId : ℕ)
    (call : Call) (wrKey : WeakKey Obj) (key : StrongKey Obj Def) : State Obj Def Call :=
  let s := { s with totalQueries := s.totalQueries + 1 }
  let (before, (wrKey, cache), after) := (s.findWeak I wrKey).getD (s.entries, (wrKey, []), [])
  match findStrong I cache key with
  | none =>
      let s' := (s.insert threadId before wrKey cache after key).serve threadId call s.nextEntry true
        wrKey key
      if 0 < cfg.maxsize ∧ cfg.maxsize < s'.lruSize then s'.evictLeastRecentlyUsed I else s'
  | some (_, (key, e), _) => (s.moveToFront e).serve threadId call e false wrKey key

/-- `CacheInfo`: hits, misses, maxsize and currsize. -/
def getCacheInfo (cfg : Config Obj Def Call) (s : State Obj Def Call) : ℤ × ℤ × ℤ × ℤ :=
  (s.totalQueries - s.misses, s.misses, cfg.maxsize, s.lruSize)

/-- `fn_` has returned or raised in the call that computes an entry. -/
def complete (s : State Obj Def Call) (f : Frame) (result : Option Obj) :
    Option (State Obj Def Call) := do
  let c ← s.heap f.entry
  if f ∈ s.frames ∧ f.inserted ∧ !c.completed then
    some { s with heap := Function.update s.heap f.entry (some { c with completed := true, result }) }
  else none

/--
A call ends: with the result of its entry, by computing its own when the entry has
none, or with a `RecursionError` when its own thread computes the entry.
-/
def leave (s : State Obj Def Call) (f : Frame) : Option (State Obj Def Call) := do
  let c ← s.heap f.entry
  if f ∈ s.frames ∧ (c.completed ∨ !f.inserted ∧ c.threadId = f.threadId) then
    some ({ s with frames := s.frames.erase f }.release f.entry)
  else none

end State

/-! ## Steps and runs -/

/-- What can happen to a cache. -/
inductive Action (Obj Call : Type) where
  /-- A call takes the lock, and finds or makes its entry. -/
  | call (threadId : ℕ) (c : Call)
  /-- A call takes the lock, and comparing its keys raises. -/
  | callRaises (c : Call)
  /-- A call makes an entry, and `explain_` raises. -/
  | explainRaises (threadId : ℕ) (c : Call)
  /-- `fn_` returns in the call that computes an entry, or raises. -/
  | complete (f : Frame) (result : Option Obj)
  /-- A call drops what it holds. -/
  | leave (f : Frame)
  /-- An object dies, and the weakrefs to it are cleared. -/
  | die (o : Obj)
  /-- One of their callbacks runs. -/
  | callback (ref : ℕ)
  /-- `evict_weakref`. -/
  | evictWeakref (os : List Obj)
  /-- `clear`. -/
  | clear

section Steps

variable (I : Interp Obj Def) (cfg : Config Obj Def Call)

/-- One step. -/
def step (s : State Obj Def Call) : Action Obj Call → Option (State Obj Def Call)
  | .call threadId c => do
      let (os, key) ← cfg.makeKey c
      some ((s.withRefs os).enter I cfg threadId c (State.makeRefs s.nextRef os) key)
  | .callRaises c => do
      let (os, _) ← cfg.makeKey c
      some { s.withRefs os with totalQueries := s.totalQueries + 1 }
  | .explainRaises threadId c => do
      let (os, key) ← cfg.makeKey c
      let s' := (s.withRefs os).enter I cfg threadId c (State.makeRefs s.nextRef os) key
      -- `explain_` is asked only after a miss; its exception leaves the entry in the map.
      if s'.nextEntry = s.nextEntry then none
      else some ({ s' with frames := s.frames }.release s.nextEntry)
  | .complete f result => s.complete f result
  | .leave f => s.leave f
  | .die o =>
      let dead := (s.refs.filter fun r => I.is r.referent o && !s.cleared r.id).map (·.id)
      some { s with cleared := fun r => s.cleared r || dead.contains r, pending := s.pending ++ dead }
  | .callback ref =>
      if ref ∈ s.pending then
        some { s.evictWeakref I ref with pending := s.pending.filter (· ≠ ref) }
      else none
  | .evictWeakref os => some ((s.withRefs os).evictWeakKey I (State.makeRefs s.nextRef os))
  | .clear => some s.clear

/-- The states that a new cache can come to. -/
inductive Reachable : State Obj Def Call → Prop where
  | init : Reachable {}
  | step {s s' : State Obj Def Call} {a : Action Obj Call} : Reachable s →
      step I cfg s a = some s' → Reachable s'

end Steps

end JaxDas.WeakrefCache
