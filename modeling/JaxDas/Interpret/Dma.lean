import JaxDas.Interpret.SharedMemory

/-!
# What the cores do

Cores access buffers, signal semaphores, wait for them and start DMAs. A DMA is executed by
the core that starts it, or, on wait, by the cores that wait for its semaphores: its lock
keeps them apart.

A run is a list of actions, each of which lets one core begin an operation or take its next
step, or is a barrier. A core that has to wait for a lock or for a count stays as it is.
-/

namespace JaxDas.Interpret

/-- How the interpreter is set up: whether races are detected, and whether DMAs are executed
eagerly rather than on wait. -/
structure Config where
  detectRaces : Bool
  eager : Bool

/-- What a core that is idle may begin. -/
inductive Op (n v : ℕ)
  | access
  | semaphoreSignal (sem : ℕ) (target : Fin n) (inc : ℕ)
  | semaphoreWait (sem value : ℕ)
  | dmaStart (transfer : Transfer n v)
  | dmaWait (sem size : ℕ)

inductive Action (n v : ℕ)
  | begin (c : Fin n) (op : Op n v)
  | advance (c : Fin n)
  | barrier (low : Fin n) (high : ℕ)

namespace World

variable {n v : ℕ} (cfg : Config)

/-! ### The execution of a DMA -/

/-- A task is done: its core goes back to the wait, if there is one. -/
def backTo (back : Option (ℕ × ℕ)) : Doing n v :=
  match back with
  | none => .idle
  | some (sem, value) => .waiting true sem value

/-- What comes after `execute_read`. -/
def afterRead (task : Task) (back : Option (ℕ × ℕ)) : Doing n v :=
  if task.write then .running .acquireWrite task back else backTo back

/-- `vc.inc_vector_clock(self.clock, self.virtual_device_id)` -/
def DMA.tick (dma : DMA n v) : DMA n v :=
  if cfg.detectRaces then
    { dma with clock := VectorClock.inc dma.clock (Fin.natAdd n dma.virtualDeviceId) }
  else dma

/-- `execute_read` up to its check of the state, with the lock. -/
def acquireRead (w : World n v) (c : Fin n) (task : Task) (back : Option (ℕ × ℕ))
    (dma : DMA n v) : World n v :=
  if dma.lock.isSome then w
  else if dma.state ≠ .started then w.goto c (afterRead task back)
  else (w.setDma task.dma { dma with lock := some c }).goto c (.running .get task back)

/-- The `get` of `execute_read`: it increments the clock of the core of the source as well. -/
def get (w : World n v) (c : Fin n) (task : Task) (back : Option (ℕ × ℕ)) (dma : DMA n v) :
    World n v :=
  let dma := DMA.tick cfg dma
  let w := w.tick cfg.detectRaces dma.src
  if dma.srcInBounds then
    ((w.setDma task.dma dma).goto c (.running .signalSrc task back)).log
      (.read task.dma dma.clock)
  else (w.setDma task.dma { dma with lock := none }).goto c .raised

/-- The end of `execute_read`. -/
def endRead (w : World n v) (c : Fin n) (task : Task) (back : Option (ℕ × ℕ))
    (dma : DMA n v) : World n v :=
  (w.setDma task.dma { dma with state := .read, lock := none }).goto c (afterRead task back)

/-- The signal of `execute_read`. -/
def signalSrc (w : World n v) (c : Fin n) (task : Task) (back : Option (ℕ × ℕ))
    (dma : DMA n v) : World n v :=
  let dma := DMA.tick cfg dma
  match dma.srcSem with
  | none => w.endRead c task back dma
  | some sem =>
      match w.signal cfg.detectRaces (.source task.dma) sem dma.src dma.size dma.clock with
      | none => (w.setDma task.dma { dma with lock := none }).goto c .raised
      | some w => w.endRead c task back dma

/-- `execute_write` up to its check of the state. -/
def acquireWrite (w : World n v) (c : Fin n) (task : Task) (back : Option (ℕ × ℕ))
    (dma : DMA n v) : World n v :=
  if dma.lock.isSome then w
  else
    match dma.state with
    | .started => w.goto c .raised
    | .completed => w.goto c (backTo back)
    | .read => (w.setDma task.dma { dma with lock := some c }).goto c (.running .store task back)

/-- The `store` of `execute_write`: it increments the clock of the core of the destination
as well. -/
def store (w : World n v) (c : Fin n) (task : Task) (back : Option (ℕ × ℕ)) (dma : DMA n v) :
    World n v :=
  let dma := DMA.tick cfg dma
  let w := w.tick cfg.detectRaces dma.dst
  if dma.dstInBounds then
    ((w.setDma task.dma dma).goto c (.running .signalDst task back)).log
      (.wrote task.dma dma.clock)
  else (w.setDma task.dma { dma with lock := none }).goto c .raised

/-- The signal of `execute_write`, and its end. -/
def signalDst (w : World n v) (c : Fin n) (task : Task) (back : Option (ℕ × ℕ))
    (dma : DMA n v) : World n v :=
  let dma := DMA.tick cfg dma
  match w.signal cfg.detectRaces (.destination task.dma) dma.dstSem dma.dst dma.size
      dma.clock with
  | none => (w.setDma task.dma { dma with lock := none }).goto c .raised
  | some w =>
      (w.setDma task.dma { dma with state := .completed, lock := none }).goto c (backTo back)

/-- The next part of the execution of a DMA. -/
def runDma (w : World n v) (c : Fin n) (step : DmaStep) (task : Task) (back : Option (ℕ × ℕ)) :
    World n v :=
  match w.dmas[task.dma]? with
  | none => w
  | some dma =>
      match step with
      | .acquireRead => w.acquireRead c task back dma
      | .get => get cfg w c task back dma
      | .signalSrc => signalSrc cfg w c task back dma
      | .acquireWrite => w.acquireWrite c task back dma
      | .store => store cfg w c task back dma
      | .signalDst => signalDst cfg w c task back dma

/-! ### The operations of a core -/

/-- The tasks that `dma_start` registers, on wait. -/
def tasksOf (c : Fin n) (id : ℕ) (t : Transfer n v) : List ((ℕ × Fin n) × Task) :=
  match t.srcSem with
  | none => [((t.dstSem, t.dst), ⟨id, true⟩)]
  | some srcSem => [((srcSem, c), ⟨id, false⟩), ((t.dstSem, t.dst), ⟨id, true⟩)]

/-- `dma_start`, once it has the semaphores and its clock. -/
def startDma (w : World n v) (c : Fin n) (t : Transfer n v) : World n v :=
  let id := w.dmas.length
  let dma : DMA n v :=
    { t with src := c, clock := w.clocks c, state := .started, lock := none }
  ({ w with dmas := w.dmas ++ [dma] }.goto c
    (if cfg.eager then .running .acquireRead ⟨id, true⟩ none
     else .appending (tasksOf c id t))).log (.started c id (w.clocks c))

/-- An operation begins: each of them increments the clock of its core. -/
def beginOp (w : World n v) (c : Fin n) (op : Op n v) : World n v :=
  let w := w.tick cfg.detectRaces c
  match op with
  | .access => w.log (.access c (w.clocks c))
  | .semaphoreSignal sem target inc => w.goto c (.signaling sem target inc (w.clocks c))
  | .semaphoreWait sem value => w.goto c (.waiting false sem value)
  | .dmaStart t => startDma cfg w c t
  | .dmaWait sem size => w.goto c (.waiting true sem size)

/-- The section of `semaphore.wait` that looks at the count. -/
def tryWait (w : World n v) (c : Fin n) (hasTasks : Bool) (sem value : ℕ) : World n v :=
  if (value : ℤ) ≤ w.countByCore sem c then
    let w := w.setCount sem c (w.countByCore sem c - value)
    (w.goto c
      (if cfg.detectRaces then
        match w.semClocks sem c with
        | none => .raised
        | some clock => .merging clock
      else .idle)).log (.waited c sem value)
  else if hasTasks then w.goto c (.polling sem value)
  else w

/-- The next step of the core `c`. -/
def advance (w : World n v) (c : Fin n) : World n v :=
  match w.doing c with
  | .idle => w
  | .signaling sem target inc clock =>
      match w.signal cfg.detectRaces (.core c) sem target inc clock with
      | none => w.goto c .raised
      | some w => w.goto c .idle
  | .waiting hasTasks sem value => tryWait cfg w c hasTasks sem value
  | .merging clock => (w.merge c clock).goto c .idle
  | .polling sem value =>
      match w.popTask (sem, c) with
      | none => w.goto c (.waiting true sem value)
      | some (task, w) => w.goto c (.running .acquireRead task (some (sem, value)))
  | .appending [] => w.goto c .idle
  | .appending ((queue, task) :: tasks) => (w.appendTask queue task).goto c (.appending tasks)
  | .running step task back => runDma cfg w c step task back
  | .raised => w

/-- Every core of the range is at the barrier. -/
def AllIdle (w : World n v) (low : Fin n) (high : ℕ) : Prop :=
  ∀ c : Fin n, low ≤ c → c < high → w.doing c = .idle

/-- One step of a run. -/
inductive Step (w : World n v) : Action n v → World n v → Prop
  | begin (c : Fin n) (op : Op n v) (hidle : w.doing c = .idle) :
      Step w (.begin c op) (beginOp cfg w c op)
  | advance (c : Fin n) : Step w (.advance c) (advance cfg w c)
  | barrier (low : Fin n) (high : ℕ) (hidle : w.AllIdle low high) :
      Step w (.barrier low high) ((w.updateClocks low high).log (.barrier low high))

/-- The worlds that steps which all meet a condition lead to. -/
inductive Reached (ok : World n v → Action n v → Prop) : World n v → Prop
  | init : Reached ok (World.init n v)
  | step {w w' : World n v} {a : Action n v} :
      Reached ok w → ok w a → Step cfg w a w' → Reached ok w'

end World

end JaxDas.Interpret
