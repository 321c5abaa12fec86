import Mathlib

/-!
# A hash set whose equality may change it

`ReentrantHashSet` is an open-addressing table: a control byte for every slot, the first
group of them repeated behind the last, and probes that look at a group at a time. While an
operation waits for a call of the equality functor, anything may happen to the table; when
the call returns, the operation compares the version it started at with that of the table
and starts again if they differ. So the model of an operation is cut at these calls:
`attempt` runs it up to its first comparison, and `resume` from one comparison to the next.

`W` is the group width (`Group::kWidth`) and `hash` the hash functor. A `while (true)` runs
on fuel: `none` says that the fuel did not suffice, or that the code would read a slot with
no element in it or write to no slot. An array is a function; nothing beyond its end is
used. `capacity_` is a power of two, so that `& (capacity_ - 1)` is `% capacity_`. Sizes
fit in memory, and are numbers.
-/

namespace JaxDas.ReentrantHash

/-- A control byte. -/
inductive Ctrl
  | empty
  | deleted
  | sentinel
  | full (h2 : ℕ)
  deriving DecidableEq

/-- `IsEmptyOrDeleted` -/
def Ctrl.isEmptyOrDeleted : Ctrl → Bool
  | empty => true
  | deleted => true
  | sentinel => false
  | full _ => false

/-- `H1`: where a probe begins. -/
def h1 (hash : ℕ) : ℕ := hash / 128

/-- `H2`: what the control byte of a full slot holds. -/
def h2 (hash : ℕ) : ℕ := hash % 128

structure Table (Key : Type) where
  /-- `ctrl_`: one byte a slot, then the first group again, then a sentinel. -/
  ctrl : ℕ → Ctrl
  /-- `slots_`, where an element has been constructed. -/
  slots : ℕ → Option Key
  size : ℕ
  numDeleted : ℕ
  capacity : ℕ
  /-- How often the table was changed: `version_`, before it wraps. -/
  version : ℕ

/-- What is looked for: its hash, and how the equality functor compares a slot with it. -/
structure Query (Key : Type) where
  hash : ℕ
  eq : Key → Bool

/-- `static_cast<float>` of a `size_t`: 24 binary digits, ties to even. -/
def asFloat (n : ℕ) : ℕ :=
  if n < 2 ^ 24 then n
  else
    let unit := 2 ^ (Nat.log 2 n - 23)
    let q := n / unit
    let r := n % unit
    if 2 * r < unit ∨ (2 * r = unit ∧ q % 2 = 0) then q * unit else (q + 1) * unit

/-- A `size_t` has 64 bits, and so does `version_`. -/
def wordSize : ℕ := 2 ^ 64

section Operations

variable {Key : Type} (W : ℕ) (hash : Key → ℕ)

namespace Table

/-! ## Groups -/

/-- `Group::Match` at a position: the offsets of the bytes that hold `h2`. -/
def groupMatch (T : Table Key) (curr h2 : ℕ) : List ℕ :=
  (List.range W).filter fun i => T.ctrl (curr + i) = .full h2

/-- `Group::MatchEmpty`: is any byte empty? -/
def groupEmpty (T : Table Key) (curr : ℕ) : Bool :=
  (List.range W).any fun i => T.ctrl (curr + i) = .empty

/-- `LowestBitSet` of `Group::MatchEmptyOrDeleted`. -/
def groupEmptyOrDeleted (T : Table Key) (curr : ℕ) : Option ℕ :=
  (List.range W).find? fun i => (T.ctrl (curr + i)).isEmptyOrDeleted

/-! ## Changes -/

/-- `Initialize`, on the table whose arrays it replaces. -/
def reset (T : Table Key) (capacity : ℕ) : Table Key where
  ctrl i := if i = capacity + W then .sentinel else .empty
  slots _ := none
  size := 0
  numDeleted := 0
  capacity := capacity
  version := T.version + 1

/-- `SetCtrlMirrored` -/
def setCtrlMirrored (T : Table Key) (idx : ℕ) (c : Ctrl) : Table Key :=
  if idx < W then
    { T with ctrl := Function.update (Function.update T.ctrl idx c) (idx + T.capacity) c }
  else { T with ctrl := Function.update T.ctrl idx c }

/-- `clear`. The sentinel goes to the byte that mirrors slot 0. -/
def clear (T : Table Key) : Table Key :=
  if T.capacity = 0 then T
  else
    { T with
      ctrl := fun i =>
        if i = T.capacity then .sentinel
        else if i < T.capacity + W then .empty else T.ctrl i
      slots := fun _ => none
      size := 0
      numDeleted := 0
      version := T.version + 1 }

/-- `erase`; the `CHECK`s fail on anything but a full slot. -/
def erase (T : Table Key) (idx : ℕ) : Option (Table Key) :=
  if idx < T.capacity then
    match T.ctrl idx with
    | .full _ =>
        let T' := T.setCtrlMirrored W idx .deleted
        some { T' with
          slots := Function.update T.slots idx none
          size := T.size - 1
          numDeleted := T.numDeleted + 1
          version := T.version + 1 }
    | _ => none
  else none

/-- Puts an element into a slot. -/
def place (T : Table Key) (idx h2 : ℕ) (key : Key) : Table Key :=
  let T' := T.setCtrlMirrored W idx (.full h2)
  { T' with slots := Function.update T.slots idx (some key), size := T.size + 1 }

/-- The end of `insert` and of `try_emplace`. -/
def add (T : Table Key) (idx h2 : ℕ) (key : Key) : Table Key :=
  let T' := T.place W idx h2 key
  { T' with
    numDeleted := if T.ctrl idx = .deleted then T.numDeleted - 1 else T.numDeleted
    version := T.version + 1 }

/-! ## Rehash -/

/-- The `while` loop of `Rehash` for one element: the slot it finds. -/
def findFree (T : Table Key) : ℕ → ℕ → ℕ → Option ℕ
  | 0, _, _ => none
  | fuel + 1, curr, step =>
      match T.groupEmptyOrDeleted W curr with
      | some i => some ((curr + i) % T.capacity)
      | none => findFree T fuel ((curr + (step + W)) % T.capacity) (step + W)

/-- The `for` loop of `Rehash`, for the slots of the old table that are left. -/
def rehashLoop (fuel : ℕ) (old : Table Key) : List ℕ → Table Key → Option (Table Key)
  | [], T => some T
  | i :: rest, T =>
      match old.ctrl i, old.slots i with
      | .full b, some key =>
          match T.findFree W fuel (h1 (hash key) % T.capacity) 0 with
          | some idx => rehashLoop fuel old rest (T.place W idx b key)
          | none => none
      | .full _, none => none
      | _, _ => rehashLoop fuel old rest T

def rehash (fuel : ℕ) (T : Table Key) (newCapacity : ℕ) : Option (Table Key) :=
  rehashLoop W hash fuel T (List.range T.capacity)
    (T.reset W (if newCapacity < 8 then 8 else newCapacity))

/-- `size_ + num_deleted_ + 1 > capacity_ * max_load_factor_ || capacity_ == 0` -/
def overloaded (T : Table Key) : Bool :=
  7 * asFloat T.capacity < 8 * asFloat (T.size + T.numDeleted + 1) || T.capacity = 0

/-- The capacity that `insert` asks `Rehash` for. -/
def newCapacity (T : Table Key) : ℕ :=
  if T.capacity / 2 ≤ T.size then T.capacity * 2
  else if T.capacity = 0 then 8 else T.capacity

end Table

/-- A new table. -/
def init : Table Key :=
  Table.reset W ⟨fun _ => .empty, fun _ => none, 0, 0, 0, 0⟩ 0

/-! ## Probing -/

/-- The local variables of `FindInternal`. -/
structure Frame where
  curr : ℕ
  step : ℕ
  /-- `target_idx`, once there is one. -/
  target : Option ℕ
  /-- The bits of `g.Match(h2)` that are left. -/
  candidates : List ℕ

/-- Where a probe gets by itself. -/
inductive Pause
  /-- To the comparison of the slot `idx` with the key. -/
  | compare (idx : ℕ) (frame : Frame)
  /-- To the end, with the slot for an insertion. -/
  | ended (target : Option ℕ)

/-- The first group of a probe. -/
def Table.frame (T : Table Key) (hash : ℕ) : Frame where
  curr := h1 hash % T.capacity
  step := 0
  target := none
  candidates := T.groupMatch W (h1 hash % T.capacity) (h2 hash)

/-- The next candidate of the group, or what follows when there is none left. -/
def Table.visit (T : Table Key) (hash : ℕ) (f : Frame) : Pause ⊕ Frame :=
  match f.candidates with
  | i :: rest => .inl (.compare ((f.curr + i) % T.capacity) { f with candidates := rest })
  | [] =>
      let target :=
        match f.target with
        | some t => some t
        | none => (T.groupEmptyOrDeleted W f.curr).map fun i => (f.curr + i) % T.capacity
      if T.groupEmpty W f.curr then .inl (.ended target)
      else
        let curr := (f.curr + (f.step + W)) % T.capacity
        .inr ⟨curr, f.step + W, target, T.groupMatch W curr (h2 hash)⟩

/-- The loops of `FindInternal`, from where the frame is. -/
def Table.scan (T : Table Key) (hash : ℕ) : ℕ → Frame → Option Pause
  | 0, _ => none
  | fuel + 1, f =>
      match T.visit W hash f with
      | .inl pause => some pause
      | .inr f => T.scan hash fuel f

/-! ## The operations -/

inductive Op (Key : Type)
  | find (q : Query Key)
  /-- `try_emplace`, where `made` is the element built from its arguments. -/
  | tryEmplace (q : Query Key) (made : Key)

def Op.query : Op Key → Query Key
  | .find q => q
  | .tryEmplace q _ => q

/-- `insert`: as `try_emplace`, with the key itself as the element. -/
def Op.insert (eqv : Key → Key → Bool) (key : Key) : Op Key :=
  .tryEmplace ⟨hash key, fun slot => eqv slot key⟩ key

inductive Result
  /-- The slot of an element equal to the key. -/
  | found (idx : ℕ)
  /-- `end()` -/
  | absent
  /-- The slot of the new element. -/
  | inserted (idx : ℕ)
  deriving DecidableEq

/-- An operation that waits for `eq_(slots_[idx], key)`. -/
structure Compare where
  /-- `current_version` -/
  version : ℕ
  idx : ℕ
  frame : Frame

inductive Outcome
  | compare (c : Compare)
  | returned (r : Result)

/-- What an operation does when its probe has found nothing. -/
def Op.finish (T : Table Key) (target : Option ℕ) : Op Key → Option (Table Key × Outcome)
  | .find _ => some (T, .returned .absent)
  | .tryEmplace q made =>
      target.map fun idx => (T.add W idx (h2 q.hash) made, .returned (.inserted idx))

/-- `FindInternal` from a frame on, up to a comparison or to the end of the operation. -/
def Op.advance (fuel : ℕ) (T : Table Key) (op : Op Key) (version : ℕ) (frame : Frame) :
    Option (Table Key × Outcome) :=
  match T.scan W op.query.hash fuel frame with
  | none => none
  | some (.compare idx frame) => some (T, .compare ⟨version, idx, frame⟩)
  | some (.ended target) => op.finish W T target

/-- The beginning of the outer `while` loop, once `capacity_` was looked at. -/
def Op.probe (fuel : ℕ) (T : Table Key) (op : Op Key) : Option (Table Key × Outcome) :=
  op.advance W fuel T T.version (T.frame W op.query.hash)

/-- The outer `while` loop, up to the first comparison. -/
def Op.attempt (fuel : ℕ) (T : Table Key) (op : Op Key) : Option (Table Key × Outcome) :=
  match op with
  | .find _ => if T.capacity = 0 then some (T, .returned .absent) else op.probe W fuel T
  | .tryEmplace _ _ =>
      if T.overloaded then
        match T.rehash W hash fuel T.newCapacity with
        | some T' => op.probe W fuel T'
        | none => none
      else op.probe W fuel T

/-- What follows when the comparison has returned. -/
def Op.resume (fuel : ℕ) (T : Table Key) (op : Op Key) (c : Compare) :
    Option (Table Key × Outcome) :=
  if T.version % wordSize ≠ c.version % wordSize then op.attempt W hash fuel T
  else
    match T.slots c.idx with
    | none => none
    | some key =>
        if op.query.eq key then some (T, .returned (.found c.idx))
        else op.advance W fuel T c.version c.frame

/-- Comparisons that leave the table alone, at most `n` of them. -/
def Op.drive (fuel : ℕ) (op : Op Key) : ℕ → Table Key × Outcome → Option (Table Key × Result)
  | _, (T, .returned r) => some (T, r)
  | 0, (_, .compare _) => none
  | n + 1, (T, .compare c) =>
      match op.resume W hash fuel T c with
      | none => none
      | some out => op.drive fuel n out

/-- An operation whose comparisons leave the table alone. -/
def Op.run (fuel : ℕ) (T : Table Key) (op : Op Key) : Option (Table Key × Result) :=
  match op.attempt W hash fuel T with
  | none => none
  | some out => op.drive W hash fuel fuel out

end Operations

end JaxDas.ReentrantHash
