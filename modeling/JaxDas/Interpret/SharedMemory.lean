import JaxDas.Interpret.VectorClock

/-!
# Cores, semaphores and DMAs

The state of the interpreter: the clocks of the cores, the counts and clocks of the
semaphores, the DMAs, the tasks that wait for them, and what each core is doing. Every
function here is one section under a lock, or a part of one.

The contents of the buffers are left out; that a buffer was read or written is an event of
the trace. An exception takes its core out of the run.
-/

namespace JaxDas.Interpret

/-- There are `n` cores, and `v` virtual ones for the DMAs. -/
abbrev Clock (n v : ℕ) := VectorClock (n + v)

/-- What signals a semaphore: a core, or a DMA that has read its source or written its
destination. -/
inductive Signaler (n : ℕ)
  | core (c : Fin n)
  | source (dma : ℕ)
  | destination (dma : ℕ)
  deriving DecidableEq

/-- What has happened, with the clocks that were recorded for it. -/
inductive Event (n v : ℕ)
  /-- `get`, `store` or `swap` by a core. -/
  | access (c : Fin n) (clock : Clock n v)
  | signaled (who : Signaler n) (sem : ℕ) (target : Fin n) (amount : ℕ) (clock : Clock n v)
  /-- A wait has taken its value from the count. -/
  | waited (c : Fin n) (sem value : ℕ)
  | started (c : Fin n) (dma : ℕ) (clock : Clock n v)
  | read (dma : ℕ) (clock : Clock n v)
  | wrote (dma : ℕ) (clock : Clock n v)
  | barrier (low : Fin n) (high : ℕ)

inductive DmaState
  | started
  | read
  | completed
  deriving DecidableEq

/-- What `dma_start` is given; `size` is what the data take, and a buffer access may be out
of bounds. -/
structure Transfer (n v : ℕ) where
  dst : Fin n
  srcSem : Option ℕ
  dstSem : ℕ
  size : ℕ
  srcInBounds : Bool
  dstInBounds : Bool
  virtualDeviceId : Fin v

structure DMA (n v : ℕ) extends Transfer n v where
  src : Fin n
  clock : Clock n v
  state : DmaState
  /-- The core that holds the lock. -/
  lock : Option (Fin n)

/-- `dma.execute_read` or `dma.execute_read_and_write` -/
structure Task where
  dma : ℕ
  write : Bool

/-- The parts of the execution of a DMA. -/
inductive DmaStep
  | acquireRead
  | get
  | signalSrc
  | acquireWrite
  | store
  | signalDst
  deriving DecidableEq

/-- What a core does next. A task goes back to the wait that has popped it, if there is one. -/
inductive Doing (n v : ℕ)
  | idle
  | signaling (sem : ℕ) (target : Fin n) (amount : ℕ) (clock : Clock n v)
  | waiting (hasTasks : Bool) (sem value : ℕ)
  | merging (clock : Clock n v)
  | polling (sem value : ℕ)
  | appending (tasks : List ((ℕ × Fin n) × Task))
  | running (step : DmaStep) (task : Task) (back : Option (ℕ × ℕ))
  | raised

/-- `SharedMemory`, the DMAs, the cores and the trace. -/
structure World (n v : ℕ) where
  clocks : Fin n → Clock n v
  countByCore : ℕ → Fin n → ℤ
  semClocks : ℕ → Fin n → Option (Clock n v)
  tasksBySem : ℕ × Fin n → List Task
  dmas : List (DMA n v)
  doing : Fin n → Doing n v
  trace : List (Event n v)

namespace World

variable {n v : ℕ}

/-- Nothing has happened yet. -/
def init (n v : ℕ) : World n v where
  clocks _ := VectorClock.make (n + v)
  countByCore _ _ := 0
  semClocks _ _ := none
  tasksBySem _ := []
  dmas := []
  doing _ := .idle
  trace := []

/-! ### Parts of the sections -/

/-- The core `c` goes on with `d`. -/
def goto (w : World n v) (c : Fin n) (d : Doing n v) : World n v :=
  { w with doing := Function.update w.doing c d }

@[simp] theorem goto_dmas (w : World n v) (c : Fin n) (d : Doing n v) :
    (w.goto c d).dmas = w.dmas := rfl

@[simp] theorem goto_trace (w : World n v) (c : Fin n) (d : Doing n v) :
    (w.goto c d).trace = w.trace := rfl

@[simp] theorem goto_doing (w : World n v) (c : Fin n) (d : Doing n v) :
    (w.goto c d).doing = Function.update w.doing c d := rfl

theorem goto_self (w : World n v) (c : Fin n) (d : Doing n v) : (w.goto c d).doing c = d :=
  Function.update_self _ _ _

theorem goto_of_ne (w : World n v) {c c' : Fin n} (d : Doing n v) (hc : c' ≠ c) :
    (w.goto c d).doing c' = w.doing c' :=
  Function.update_of_ne hc _ _

def log (w : World n v) (e : Event n v) : World n v :=
  { w with trace := w.trace ++ [e] }

@[simp] theorem log_dmas (w : World n v) (e : Event n v) : (w.log e).dmas = w.dmas := rfl

@[simp] theorem log_doing (w : World n v) (e : Event n v) : (w.log e).doing = w.doing := rfl

@[simp] theorem log_trace (w : World n v) (e : Event n v) :
    (w.log e).trace = w.trace ++ [e] := rfl

/-- `vc.inc_vector_clock(self.clocks[c], c)`, where races are detected. -/
def tick (detect : Bool) (w : World n v) (c : Fin n) : World n v :=
  if detect then
    { w with clocks :=
        Function.update w.clocks c (VectorClock.inc (w.clocks c) (Fin.castAdd v c)) }
  else w

/-- `vc.update_vector_clock(self.clocks[c], clock)` -/
def merge (w : World n v) (c : Fin n) (clock : Clock n v) : World n v :=
  { w with clocks := Function.update w.clocks c (VectorClock.update (w.clocks c) clock) }

def setDma (w : World n v) (id : ℕ) (dma : DMA n v) : World n v :=
  { w with dmas := w.dmas.set id dma }

@[simp] theorem setDma_dmas (w : World n v) (id : ℕ) (dma : DMA n v) :
    (w.setDma id dma).dmas = w.dmas.set id dma := rfl

@[simp] theorem setDma_doing (w : World n v) (id : ℕ) (dma : DMA n v) :
    (w.setDma id dma).doing = w.doing := rfl

@[simp] theorem setDma_trace (w : World n v) (id : ℕ) (dma : DMA n v) :
    (w.setDma id dma).trace = w.trace := rfl

/-- The count of a semaphore is an `np.int32` too. -/
def setCount (w : World n v) (sem : ℕ) (c : Fin n) (count : ℤ) : World n v :=
  { w with countByCore :=
      Function.update w.countByCore sem (Function.update (w.countByCore sem) c count) }

/-- The clock of a semaphore takes in that of a signal. -/
def mergeSem (detect : Bool) (w : World n v) (sem : ℕ) (c : Fin n) (clock : Clock n v) :
    World n v :=
  if detect then
    { w with semClocks :=
        Function.update w.semClocks sem (Function.update (w.semClocks sem) c
          (match w.semClocks sem c with
            | none => some clock
            | some semClock => some (VectorClock.update semClock clock))) }
  else w

/-- `semaphore.signal`; it raises (`none`) when the amount is no `np.int32`, and the sum
wraps. -/
def signal (detect : Bool) (w : World n v) (who : Signaler n) (sem : ℕ) (target : Fin n)
    (amount : ℕ) (clock : Clock n v) : Option (World n v) :=
  if int32Max < amount then none
  else
    some (((w.setCount sem target
      (Int.bmod (w.countByCore sem target + amount) 4294967296)).mergeSem detect sem target
        clock).log (.signaled who sem target amount clock))

def setTasks (w : World n v) (queue : ℕ × Fin n) (tasks : List Task) : World n v :=
  { w with tasksBySem := Function.update w.tasksBySem queue tasks }

/-- `task_queue.pop()` -/
def popTask (w : World n v) (queue : ℕ × Fin n) : Option (Task × World n v) :=
  match (w.tasksBySem queue).getLast? with
  | none => none
  | some task => some (task, w.setTasks queue (w.tasksBySem queue).dropLast)

/-- `append_semaphore_task` -/
def appendTask (w : World n v) (queue : ℕ × Fin n) (task : Task) : World n v :=
  w.setTasks queue (w.tasksBySem queue ++ [task])

/-- The cores from `low` on, up to `high`. -/
def cores (low : Fin n) (high : ℕ) : List (Fin n) :=
  (List.finRange n).filter fun c => low < c && c < high

/-- The clock of `low` after the first loop of `update_clocks`. -/
def merged (w : World n v) (low : Fin n) (high : ℕ) : Clock n v :=
  (cores low high).foldl (fun x c => VectorClock.update x (w.clocks c)) (w.clocks low)

/-- `update_clocks` -/
def updateClocks (w : World n v) (low : Fin n) (high : ℕ) : World n v :=
  { w with clocks := fun c =>
      if c = low then w.merged low high
      else if c ∈ cores low high then VectorClock.update (w.clocks c) (w.merged low high)
      else w.clocks c }

end World

end JaxDas.Interpret
