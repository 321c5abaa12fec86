import Mathlib
import JaxDas.Lib.Interruptible

/-!
# The compilation cache on disk

`LRUCache` keeps an entry in two files: `<key>-cache` holds the value, and
`<key>-atime` the time of the last use of it, which only a cache with a size limit
writes. All caches on one directory share these files, whatever their limits. A call is
a `Prog` over the directory: each file operation is an action, so that a process may stop
between any two of them.

Calls come one after another, so the lock is always free and is left out. So are the
warning of `put` and the debug log. The clock is a parameter of each call; its reading in
nanoseconds fits the 8 bytes of an access time file, which is the number here.
-/

namespace JaxDas.LruCache

abbrev Bytes := List UInt8

/-- `_CACHE_SUFFIX` -/
def cacheSuffix : String := "-cache"

/-- `_ATIME_SUFFIX` -/
def atimeSuffix : String := "-atime"

/-- The exceptions the calls can raise. -/
inductive PyError
  | valueError (msg : String)
  | fileNotFoundError (name : String)
  | indexError (msg : String)
  deriving DecidableEq

/-- The files of the directory, by key: no name ends in both suffixes. -/
structure Directory where
  /-- What `<key>-cache` holds. -/
  cacheFiles : AList (fun _ : String => Bytes)
  /-- What `<key>-atime` holds. -/
  atimeFiles : AList (fun _ : String => ℕ)
  /-- Ghost: the cache files written (`some value`) and removed (`none`), newest first. -/
  history : List (String × Option Bytes)

namespace Directory

/-- An empty directory. -/
def empty : Directory := ⟨∅, ∅, []⟩

def writeCache (d : Directory) (key : String) (value : Bytes) : Directory :=
  { d with cacheFiles := d.cacheFiles.insert key value, history := (key, some value) :: d.history }

def writeAtime (d : Directory) (key : String) (timestamp : ℕ) : Directory :=
  { d with atimeFiles := d.atimeFiles.insert key timestamp }

def unlinkCache (d : Directory) (key : String) : Directory :=
  { d with cacheFiles := d.cacheFiles.erase key, history := (key, none) :: d.history }

def unlinkAtime (d : Directory) (key : String) : Directory :=
  { d with atimeFiles := d.atimeFiles.erase key }

end Directory

abbrev Io := Prog Directory PyError

/-! ## File operations -/

/-- The value of a file, or the exception where it is not there. -/
def present {α : Type} (name : String) : Option α → Except PyError α
  | some a => .ok a
  | none => .error (.fileNotFoundError name)

namespace Io

/-- `cache_path.exists()` -/
def cacheExists (key : String) : Io Bool :=
  Prog.look fun d => .ok (decide (key ∈ d.cacheFiles))

/-- `cache_path.read_bytes()` -/
def readCache (key : String) : Io Bytes :=
  Prog.look fun d => present (key ++ cacheSuffix) (d.cacheFiles.lookup key)

/-- `cache_path.stat().st_size` -/
def statCache (key : String) : Io ℕ :=
  Prog.look fun d => (present (key ++ cacheSuffix) (d.cacheFiles.lookup key)).map List.length

/-- `int.from_bytes(atime_path.read_bytes(), "little")` -/
def readAtime (key : String) : Io ℕ :=
  Prog.look fun d => present (key ++ atimeSuffix) (d.atimeFiles.lookup key)

/-- `cache_path.write_bytes(value)` -/
def writeCache (key : String) (value : Bytes) : Io Unit :=
  Prog.update fun d => d.writeCache key value

/-- `atime_path.write_bytes(timestamp)` -/
def writeAtime (key : String) (timestamp : ℕ) : Io Unit :=
  Prog.update fun d => d.writeAtime key timestamp

/-- `cache_path.unlink()` -/
def unlinkCache (key : String) : Io Unit :=
  Prog.change (fun d => present (key ++ cacheSuffix) (d.cacheFiles.lookup key))
    fun d => d.unlinkCache key

/-- `atime_path.unlink()` -/
def unlinkAtime (key : String) : Io Unit :=
  Prog.change (fun d => present (key ++ atimeSuffix) (d.atimeFiles.lookup key))
    fun d => d.unlinkAtime key

/-- `self.path.glob(f"*{_CACHE_SUFFIX}")`, each name less its suffix. -/
def globCache : Io (List String) :=
  Prog.look fun d => .ok d.cacheFiles.keys

end Io

/-! ## Eviction -/

/-- An element of the priority queue: the tuple `(file_atime, key, file_size)`. -/
structure Item where
  fileAtime : ℕ
  key : String
  fileSize : ℕ

/-- Tuples are compared field by field. -/
def Item.tuple (x : Item) : ℕ ×ₗ String ×ₗ ℕ :=
  toLex (x.fileAtime, toLex (x.key, x.fileSize))

def Item.le (x y : Item) : Prop := x.tuple ≤ y.tuple

instance : DecidableRel Item.le := fun x y => inferInstanceAs (Decidable (x.tuple ≤ y.tuple))

/-- `heapq.heappush`. The heap is the list of its elements in the order `heappop` has them. -/
def heappush (h : List Item) (x : Item) : List Item := h.orderedInsert Item.le x

/-- The body of the `for` loop of `_evict_if_needed`, for what is left of the glob. -/
def scan : List String → List Item → ℕ → Io (List Item × ℕ)
  | [], h, dirSize => pure (h, dirSize)
  | key :: rest, h, dirSize => do
      let fileSize ← Io.statCache key
      let fileAtime ← Io.readAtime key
      scan rest (heappush h ⟨fileAtime, key, fileSize⟩) (dirSize + fileSize)

/-- The `while` loop of `_evict_if_needed`. -/
def evict (targetSize : ℤ) : List Item → ℤ → Io Unit
  | [], dirSize =>
      if dirSize > targetSize then Prog.raise (.indexError "index out of range") else pure ()
  | x :: h, dirSize =>
      if dirSize > targetSize then do
        Io.unlinkCache x.key
        Io.unlinkAtime x.key
        evict targetSize h (dirSize - x.fileSize)
      else pure ()

/-- A cache object on the directory. -/
structure LRUCache where
  maxSize : ℤ

namespace LRUCache

/-- No eviction where `max_size` is -1. -/
def evictionEnabled (c : LRUCache) : Bool := c.maxSize != -1

/-- `_evict_if_needed` -/
def evictIfNeeded (c : LRUCache) (additionalSize : ℕ) : Io Unit :=
  if c.evictionEnabled then do
    let names ← Io.globCache
    let (h, dirSize) ← scan names [] 0
    evict (c.maxSize - additionalSize) h dirSize
  else pure ()

/-- The end of `get` and of `put`: only a cache with a limit records the time. -/
def recordUse (c : LRUCache) (now : ℕ) (key : String) : Io Unit :=
  if c.evictionEnabled then Io.writeAtime key now else pure ()

def get (c : LRUCache) (now : ℕ) (key : String) : Io (Option Bytes) :=
  if key = "" then Prog.raise (.valueError "key cannot be empty")
  else do
    let exists_ ← Io.cacheExists key
    if exists_ then do
      let val ← Io.readCache key
      c.recordUse now key
      pure (some val)
    else pure none

/-- `put` when the file of the key is not there yet. -/
def add (c : LRUCache) (now : ℕ) (key : String) (value : Bytes) : Io Unit := do
  c.evictIfNeeded value.length
  Io.writeCache key value
  c.recordUse now key

def put (c : LRUCache) (now : ℕ) (key : String) (value : Bytes) : Io Unit :=
  if key = "" then Prog.raise (.valueError "key cannot be empty")
  -- too large for the cache: a warning is all
  else if c.evictionEnabled ∧ (value.length : ℤ) > c.maxSize then pure ()
  else do
    let exists_ ← Io.cacheExists key
    if exists_ then pure () else c.add now key value

end LRUCache

/-! ## Runs -/

/-- The states of a directory that any caches have used, one call after another, each
call ending or stopping between two file operations. -/
inductive Reachable : Directory → Prop
  | empty : Reachable Directory.empty
  | get (c : LRUCache) (now : ℕ) (key : String) {d d' : Directory} (h : Reachable d)
      (hs : (c.get now key).Stops d d') : Reachable d'
  | put (c : LRUCache) (now : ℕ) (key : String) (value : Bytes) {d d' : Directory}
      (h : Reachable d) (hs : (c.put now key value).Stops d d') : Reachable d'

/-- Every cache file has its access time file. -/
def Timed (d : Directory) : Prop := ∀ k ∈ d.cacheFiles, k ∈ d.atimeFiles

/-- Runs in which only caches with a limit put, and no put stops between its two writes. -/
inductive Orderly : Directory → Prop
  | empty : Orderly Directory.empty
  | get (c : LRUCache) (now : ℕ) (key : String) {d d' : Directory} (h : Orderly d)
      (hs : (c.get now key).Stops d d') : Orderly d'
  | put (c : LRUCache) (now : ℕ) (key : String) (value : Bytes) {d d' : Directory}
      (h : Orderly d) (hc : c.evictionEnabled = true) (hs : (c.put now key value).Stops d d')
      (hw : key ∈ d'.cacheFiles → key ∈ d'.atimeFiles) : Orderly d'

end JaxDas.LruCache
