import JaxDas.Interpret.Counted

/-!
# The execution of the DMAs

The lock of a DMA is held by the core that is at a step which needs it, and its state and that
step tell what the DMA has done (`Executed`): the cores that have popped its tasks take turns.

This rests on no signal raising: a signal that raises leaves its DMA in the state before it.
-/

namespace JaxDas.Interpret

variable {n v : ℕ}

/-- What a DMA does. -/
inductive Part (n : ℕ)
  | read
  | signalSource (sem : ℕ) (target : Fin n) (amount : ℕ)
  | write
  | signalDestination (sem : ℕ) (target : Fin n) (amount : ℕ)

namespace DMA

/-- What `execute_read` does. -/
def readScript (dma : DMA n v) : List (Part n) :=
  .read :: dma.srcSem.toList.map fun sem => .signalSource sem dma.src dma.size

/-- What `execute_read_and_write` does. -/
def script (dma : DMA n v) : List (Part n) :=
  dma.readScript ++ [.write, .signalDestination dma.dstSem dma.dst dma.size]

/-- What has been done in each state. -/
def done (dma : DMA n v) : List (Part n) :=
  match dma.state with
  | .started => []
  | .read => dma.readScript
  | .completed => dma.script

end DMA

namespace Event

/-- The part of the DMA that the event is. -/
def part? (d : ℕ) : Event n v → Option (Part n)
  | read d' _ => if d' = d then some .read else none
  | wrote d' _ => if d' = d then some .write else none
  | signaled (.source d') sem target amount _ =>
      if d' = d then some (.signalSource sem target amount) else none
  | signaled (.destination d') sem target amount _ =>
      if d' = d then some (.signalDestination sem target amount) else none
  | _ => none

end Event

/-- The parts of the DMA that a trace has, in order. -/
def parts (tr : List (Event n v)) (d : ℕ) : List (Part n) := tr.filterMap (Event.part? d)

theorem parts_append (tr tr' : List (Event n v)) (d : ℕ) :
    parts (tr ++ tr') d = parts tr d ++ parts tr' d :=
  List.filterMap_append

/-- An event that is a part of one DMA. -/
theorem parts_single {e : Event n v} {d : ℕ} {p : Part n}
    (he : ∀ d', e.part? d' = if d = d' then some p else none) (d' : ℕ) :
    parts [e] d' = if d = d' then [p] else [] := by
  unfold parts
  rw [List.filterMap_cons, he]
  by_cases h : d = d' <;> simp [h]

theorem parts_read (d d' : ℕ) (clock : Clock n v) :
    parts [Event.read d clock] d' = if d = d' then [.read] else [] :=
  parts_single (fun _ => rfl) d'

theorem parts_wrote (d d' : ℕ) (clock : Clock n v) :
    parts [Event.wrote d clock] d' = if d = d' then [.write] else [] :=
  parts_single (fun _ => rfl) d'

theorem parts_source (d d' sem amount : ℕ) (target : Fin n) (clock : Clock n v) :
    parts [Event.signaled (.source d) sem target amount clock] d' =
      if d = d' then [.signalSource sem target amount] else [] :=
  parts_single (fun _ => rfl) d'

theorem parts_destination (d d' sem amount : ℕ) (target : Fin n) (clock : Clock n v) :
    parts [Event.signaled (.destination d) sem target amount clock] d' =
      if d = d' then [.signalDestination sem target amount] else [] :=
  parts_single (fun _ => rfl) d'

/-- What a DMA has to have read or written for its signals. -/
theorem read_mem_of_signal {dma : DMA n v} {ps : List (Part n)} (h : ps <+: dma.script)
    {sem amount : ℕ} {target : Fin n} (hmem : .signalSource sem target amount ∈ ps) :
    .read ∈ ps := by
  cases ps with
  | nil => exact absurd hmem List.not_mem_nil
  | cons p ps =>
      have hp : p = .read := (List.cons_prefix_cons.mp h).1
      exact hp ▸ List.mem_cons_self

theorem write_mem_of_signal {dma : DMA n v} {ps : List (Part n)} (h : ps <+: dma.script)
    {sem amount : ℕ} {target : Fin n} (hmem : .signalDestination sem target amount ∈ ps) :
    .write ∈ ps := by
  have hscript : dma.script = (dma.readScript ++ [.write]) ++
      [.signalDestination dma.dstSem dma.dst dma.size] := by
    simp [DMA.script]
  rw [hscript] at h
  rcases List.prefix_concat_iff.mp h with heq | hlt
  · simp [heq]
  · have := hlt.subset hmem
    simp [DMA.readScript] at this

namespace World

/-! ### The locks -/
/-- The DMA whose lock the core holds. -/
def holds : Doing n v → Option ℕ
  | .running .get task _ => some task.dma
  | .running .signalSrc task _ => some task.dma
  | .running .store task _ => some task.dma
  | .running .signalDst task _ => some task.dma
  | _ => none

/-- What the DMA has done when the core that holds its lock is at some step. -/
def AtStep (dma : DMA n v) (ps : List (Part n)) : Doing n v → Prop
  | .running .get _ _ => dma.state = .started ∧ ps = []
  | .running .signalSrc _ _ => dma.state = .started ∧ ps = [.read]
  | .running .store _ _ => dma.state = .read ∧ ps = dma.readScript
  | .running .signalDst _ _ => dma.state = .read ∧ ps = dma.readScript ++ [.write]
  | _ => False

/-- What the DMA has done. -/
def Progress (w : World n v) (dma : DMA n v) (ps : List (Part n)) : Prop :=
  match dma.lock with
  | none => ps = dma.done
  | some c => AtStep dma ps (w.doing c)

/-- The locks are held by the cores that are at a step that needs them, and the DMAs have come
as far as their states and these steps say. -/
structure Executed (w : World n v) : Prop where
  locked : ∀ c d, holds (w.doing c) = some d ↔ ∃ dma, w.dmas[d]? = some dma ∧ dma.lock = some c
  progress : ∀ d dma, w.dmas[d]? = some dma → w.Progress dma (parts w.trace d)
  fresh : ∀ d, w.dmas.length ≤ d → parts w.trace d = []

variable {w w' : World n v}

theorem executed_init : Executed (init n v) := by
  constructor
  · intro c d
    simp [init, holds]
  · intro d dma h
    cases h
  · intro d h
    rfl

/-- What does not touch the DMAs, the cores and the parts. -/
theorem Executed.congr (h : Executed w) (hdmas : w'.dmas = w.dmas) (hdoing : w'.doing = w.doing)
    (hparts : ∀ d, parts w'.trace d = parts w.trace d) : Executed w' := by
  constructor
  · intro c d
    rw [hdmas, hdoing]
    exact h.locked c d
  · intro d dma hd
    rw [hdmas] at hd
    unfold Progress
    rw [hdoing, hparts]
    exact h.progress d dma hd
  · intro d hd
    rw [hdmas] at hd
    rw [hparts]
    exact h.fresh d hd

/-- A core without a lock goes on without one. -/
theorem Executed.goto (h : Executed w) {c : Fin n} {doing : Doing n v}
    (hc : holds (w.doing c) = none) (hdoing : holds doing = none) :
    Executed (w.goto c doing) := by
  have hfree : ∀ (d : ℕ) (dma : DMA n v), w.dmas[d]? = some dma → dma.lock ≠ some c := by
    intro d dma hd hlock
    have := (h.locked c d).mpr ⟨dma, hd, hlock⟩
    rw [hc] at this
    cases this
  constructor
  · intro c' d
    by_cases hcc : c' = c
    · subst hcc
      rw [goto_self, hdoing, ← hc]
      exact h.locked c' d
    · rw [goto_of_ne w _ hcc]
      exact h.locked c' d
  · intro d dma hd
    have hprog := h.progress d dma hd
    have hne := hfree d dma hd
    unfold Progress at hprog ⊢
    cases hlock : dma.lock with
    | none => rwa [hlock] at hprog
    | some c' =>
        rw [hlock] at hprog hne
        have hcc : c' ≠ c := fun heq => hne (congrArg some heq)
        show AtStep dma (parts w.trace d) ((w.goto c doing).doing c')
        rw [goto_of_ne w _ hcc]
        exact hprog
  · exact h.fresh

/-- A core changes a DMA whose lock no other core has. -/
theorem Executed.act (h : Executed w) {c : Fin n} {d : ℕ} {dma dma' : DMA n v}
    {doing : Doing n v} (hd : w.dmas[d]? = some dma)
    (hc : ∀ d', holds (w.doing c) = some d' → d' = d) (hlock : ∀ c', dma.lock = some c' → c' = c)
    (hdmas : w'.dmas = w.dmas.set d dma') (hdoing : w'.doing = Function.update w.doing c doing)
    (hheld : ∀ c', dma'.lock = some c' ↔ c' = c ∧ holds doing = some d)
    (hheld' : ∀ d', holds doing = some d' → d' = d)
    (hparts : ∀ d', d' ≠ d → parts w'.trace d' = parts w.trace d')
    (hprog : w'.Progress dma' (parts w'.trace d)) : Executed w' := by
  have hlen : d < w.dmas.length := (List.getElem?_eq_some_iff.mp hd).1
  have hself : w'.dmas[d]? = some dma' := by rw [hdmas, List.getElem?_set_self hlen]
  have hother : ∀ d', d' ≠ d → w'.dmas[d']? = w.dmas[d']? := by
    intro d' hne
    rw [hdmas, List.getElem?_set_ne (Ne.symm hne)]
  have hdoing' : ∀ c', c' ≠ c → w'.doing c' = w.doing c' := by
    intro c' hne
    rw [hdoing, Function.update_of_ne hne]
  constructor
  · intro c' d'
    by_cases hdd : d' = d
    · subst hdd
      rw [hself]
      by_cases hcc : c' = c
      · subst hcc
        rw [hdoing, Function.update_self]
        simp [hheld]
      · rw [hdoing' c' hcc, h.locked c' d', hd]
        have hno : dma.lock ≠ some c' := fun heq => hcc (hlock c' heq)
        have hno' : dma'.lock ≠ some c' := fun heq => hcc ((hheld c').mp heq).1
        simp [hno, hno']
    · rw [hother d' hdd]
      by_cases hcc : c' = c
      · subst hcc
        rw [hdoing, Function.update_self, ← h.locked c' d']
        exact ⟨fun heq => absurd (hheld' d' heq) hdd, fun heq => absurd (hc d' heq) hdd⟩
      · rw [hdoing' c' hcc]
        exact h.locked c' d'
  · intro d' x hx
    by_cases hdd : d' = d
    · subst hdd
      rw [hself] at hx
      cases hx
      exact hprog
    · rw [hother d' hdd] at hx
      rw [hparts d' hdd]
      have hold := h.progress d' x hx
      unfold Progress at hold ⊢
      cases hl : x.lock with
      | none => rwa [hl] at hold
      | some c' =>
          rw [hl] at hold
          have hcc : c' ≠ c := by
            rintro rfl
            exact hdd (hc d' ((h.locked c' d').mpr ⟨x, hx, hl⟩))
          show AtStep x _ (w'.doing c')
          rw [hdoing' c' hcc]
          exact hold
  · intro d' hd'
    rw [hdmas, List.length_set] at hd'
    rw [hparts d' (by omega)]
    exact h.fresh d' hd'

/-! ### The steps of a DMA -/

theorem holds_backTo (back : Option (ℕ × ℕ)) : holds (backTo (n := n) (v := v) back) = none := by
  cases back <;> rfl

theorem holds_afterRead (task : Task) (back : Option (ℕ × ℕ)) :
    holds (afterRead (n := n) (v := v) task back) = none := by
  unfold afterRead
  split
  · rfl
  · exact holds_backTo back

variable {cfg : Config} {c : Fin n} {task : Task} {back : Option (ℕ × ℕ)} {dma : DMA n v}

theorem Executed.progress_of_free (h : Executed w) {d : ℕ} (hd : w.dmas[d]? = some dma)
    (hlock : dma.lock = none) : parts w.trace d = dma.done := by
  have hprog := h.progress d dma hd
  unfold Progress at hprog
  rwa [hlock] at hprog

/-- The core is at a step that needs the lock: it has it. -/
theorem Executed.of_holds (h : Executed w) {d : ℕ} (hd : w.dmas[d]? = some dma)
    (hc : holds (w.doing c) = some d) :
    dma.lock = some c ∧ AtStep dma (parts w.trace d) (w.doing c) := by
  obtain ⟨dma', hd', hlock⟩ := (h.locked c d).mp hc
  rw [hd] at hd'
  injection hd' with heq
  subst heq
  have hprog := h.progress d dma hd
  unfold Progress at hprog
  rw [hlock] at hprog
  exact ⟨hlock, hprog⟩

/-- The core takes the lock of a DMA. -/
theorem Executed.acquire (h : Executed w) (hd : w.dmas[task.dma]? = some dma)
    (hc : holds (w.doing c) = none) (hlock : dma.lock = none) {doing : Doing n v}
    (hdoing : holds doing = some task.dma)
    (hstep : AtStep { dma with lock := some c } (parts w.trace task.dma) doing) :
    Executed ((w.setDma task.dma { dma with lock := some c }).goto c doing) := by
  refine h.act hd ?_ ?_ rfl rfl ?_ ?_ (fun _ _ => rfl) ?_
  · intro d' hd'
    rw [hc] at hd'
    cases hd'
  · intro c' hc'
    rw [hlock] at hc'
    cases hc'
  · intro c'
    simp [hdoing, eq_comm]
  · intro d' hd'
    rw [hdoing] at hd'
    exact (Option.some.inj hd').symm
  · show AtStep _ _ ((World.goto _ c doing).doing c)
    rw [goto_self]
    exact hstep

/-- The core that has the lock goes on to the next step that needs it. -/
theorem Executed.keep (h : Executed w) {d : ℕ} (hd : w.dmas[d]? = some dma)
    (hc : holds (w.doing c) = some d) (dma' : DMA n v) (doing : Doing n v)
    (hlock : dma'.lock = dma.lock) (hdoing : holds doing = some d)
    (hdmas : w'.dmas = w.dmas.set d dma') (hd' : w'.doing = Function.update w.doing c doing)
    (hparts : ∀ d', d' ≠ d → parts w'.trace d' = parts w.trace d')
    (hstep : AtStep dma' (parts w'.trace d) doing) : Executed w' := by
  obtain ⟨hmine, -⟩ := h.of_holds hd hc
  refine h.act hd ?_ ?_ hdmas hd' ?_ ?_ hparts ?_
  · intro d' heq
    exact Option.some.inj (heq.symm.trans hc)
  · intro c' heq
    exact Option.some.inj (heq.symm.trans hmine)
  · intro c'
    rw [hlock, hmine]
    simp [hdoing, eq_comm]
  · intro d' heq
    exact Option.some.inj (heq.symm.trans hdoing)
  · unfold Progress
    rw [hlock, hmine, hd']
    show AtStep _ _ (Function.update w.doing c doing c)
    rw [Function.update_self]
    exact hstep

/-- The core that has the lock gives it back. -/
theorem Executed.release (h : Executed w) {d : ℕ} (hd : w.dmas[d]? = some dma)
    (hc : holds (w.doing c) = some d) (dma' : DMA n v) (doing : Doing n v)
    (hlock : dma'.lock = none) (hdoing : holds doing = none)
    (hdmas : w'.dmas = w.dmas.set d dma') (hd' : w'.doing = Function.update w.doing c doing)
    (hparts : ∀ d', d' ≠ d → parts w'.trace d' = parts w.trace d')
    (hdone : parts w'.trace d = dma'.done) : Executed w' := by
  obtain ⟨hmine, -⟩ := h.of_holds hd hc
  refine h.act hd ?_ ?_ hdmas hd' ?_ ?_ hparts ?_
  · intro d' heq
    exact Option.some.inj (heq.symm.trans hc)
  · intro c' heq
    exact Option.some.inj (heq.symm.trans hmine)
  · intro c'
    simp [hlock, hdoing]
  · intro d' heq
    rw [hdoing] at heq
    cases heq
  · unfold Progress
    rw [hlock]
    exact hdone

theorem Executed.acquireRead (h : Executed w) (hd : w.dmas[task.dma]? = some dma)
    (hc : w.doing c = .running .acquireRead task back) :
    Executed (w.acquireRead c task back dma) := by
  have hnone : holds (w.doing c) = none := by rw [hc]; rfl
  unfold World.acquireRead
  split
  · exact h
  next hfree =>
  have hlock : dma.lock = none := by simpa using hfree
  split
  · exact h.goto hnone (holds_afterRead task back)
  next hstate =>
  have hstarted : dma.state = .started := not_not.mp hstate
  refine h.acquire hd hnone hlock rfl ⟨hstarted, ?_⟩
  rw [h.progress_of_free hd hlock, DMA.done, hstarted]

theorem Executed.acquireWrite (h : Executed w) (hd : w.dmas[task.dma]? = some dma)
    (hc : w.doing c = .running .acquireWrite task back) :
    Executed (w.acquireWrite c task back dma) := by
  have hnone : holds (w.doing c) = none := by rw [hc]; rfl
  unfold World.acquireWrite
  split
  · exact h
  next hfree =>
  have hlock : dma.lock = none := by simpa using hfree
  split
  · exact h.goto hnone rfl
  · exact h.goto hnone (holds_backTo back)
  next hread =>
  refine h.acquire hd hnone hlock rfl ⟨hread, ?_⟩
  rw [h.progress_of_free hd hlock, DMA.done, hread]
  rfl

theorem Executed.get (h : Executed w) (hd : w.dmas[task.dma]? = some dma)
    (hc : w.doing c = .running .get task back) : Executed (get cfg w c task back dma) := by
  have hheld : holds (w.doing c) = some task.dma := by rw [hc]; rfl
  have hat := (h.of_holds hd hheld).2
  rw [hc] at hat
  obtain ⟨hstate, hparts⟩ := hat
  obtain ⟨clock, hclock⟩ := exists_tick cfg dma
  simp only [World.get, hclock]
  split
  · refine h.keep hd hheld { dma with clock := clock } (.running .signalSrc task back) rfl rfl
      (by simp) (by simp) ?_ ⟨hstate, ?_⟩
    · intro d' hne
      simp [parts_append, parts_read, Ne.symm hne]
    · simp [parts_append, parts_read, hparts]
  · refine h.release hd hheld { dma with clock := clock, lock := none } .raised rfl rfl
      (by simp) (by simp) ?_ ?_
    · intro d' hne
      simp
    · simp [hparts, DMA.done, hstate]

theorem Executed.store (h : Executed w) (hd : w.dmas[task.dma]? = some dma)
    (hc : w.doing c = .running .store task back) : Executed (store cfg w c task back dma) := by
  have hheld : holds (w.doing c) = some task.dma := by rw [hc]; rfl
  have hat := (h.of_holds hd hheld).2
  rw [hc] at hat
  obtain ⟨hstate, hparts⟩ := hat
  obtain ⟨clock, hclock⟩ := exists_tick cfg dma
  simp only [World.store, hclock]
  split
  · refine h.keep hd hheld { dma with clock := clock } (.running .signalDst task back) rfl rfl
      (by simp) (by simp) ?_ ⟨hstate, ?_⟩
    · intro d' hne
      simp [parts_append, parts_wrote, Ne.symm hne]
    · simp [parts_append, parts_wrote, hparts, DMA.readScript]
  · refine h.release hd hheld { dma with clock := clock, lock := none } .raised rfl rfl
      (by simp) (by simp) ?_ ?_
    · intro d' hne
      simp
    · simp [hparts, DMA.done, hstate, DMA.readScript]

theorem Executed.signalSrc (h : Executed w) (hcount : Counted w)
    (hd : w.dmas[task.dma]? = some dma) (hc : w.doing c = .running .signalSrc task back)
    (hroom : ∀ sem ∈ dma.srcSem, w.countByCore sem dma.src + dma.size ≤ int32Max) :
    Executed (signalSrc cfg w c task back dma) := by
  have hheld : holds (w.doing c) = some task.dma := by rw [hc]; rfl
  have hat := (h.of_holds hd hheld).2
  rw [hc] at hat
  obtain ⟨hstate, hparts⟩ := hat
  obtain ⟨clock, hclock⟩ := exists_tick cfg dma
  simp only [World.signalSrc, hclock]
  cases hsem : dma.srcSem with
  | none =>
      refine h.release hd hheld { dma with clock := clock, state := .read, lock := none }
        (afterRead task back) rfl (holds_afterRead task back) (by simp [endRead])
        (by simp [endRead]) ?_ ?_
      · intro d' hne
        simp [endRead]
      · simp [endRead, hparts, DMA.done, DMA.readScript, hsem]
  | some sem =>
      obtain ⟨w₁, hw₁, hdmas, hdoing, htrace, -⟩ := exists_signal cfg.detectRaces w
        (.source task.dma) sem dma.src clock (hcount.amount_le (hroom sem hsem))
      simp only [hw₁]
      refine h.release hd hheld { dma with clock := clock, state := .read, lock := none }
        (afterRead task back) rfl (holds_afterRead task back) (by simp [endRead, hdmas])
        (by simp [endRead, hdoing]) ?_ ?_
      · intro d' hne
        simp [endRead, htrace, parts_append, parts_source, Ne.symm hne]
      · simp [endRead, htrace, parts_append, parts_source, hparts, DMA.done, DMA.readScript, hsem]

theorem Executed.signalDst (h : Executed w) (hcount : Counted w)
    (hd : w.dmas[task.dma]? = some dma) (hc : w.doing c = .running .signalDst task back)
    (hroom : w.countByCore dma.dstSem dma.dst + dma.size ≤ int32Max) :
    Executed (signalDst cfg w c task back dma) := by
  have hheld : holds (w.doing c) = some task.dma := by rw [hc]; rfl
  have hat := (h.of_holds hd hheld).2
  rw [hc] at hat
  obtain ⟨hstate, hparts⟩ := hat
  obtain ⟨clock, hclock⟩ := exists_tick cfg dma
  obtain ⟨w₁, hw₁, hdmas, hdoing, htrace, -⟩ := exists_signal cfg.detectRaces w
    (.destination task.dma) dma.dstSem dma.dst clock (hcount.amount_le hroom)
  simp only [World.signalDst, hclock, hw₁]
  refine h.release hd hheld { dma with clock := clock, state := .completed, lock := none }
    (backTo back) rfl (holds_backTo back) (by simp [hdmas]) (by simp [hdoing]) ?_ ?_
  · intro d' hne
    simp [htrace, parts_append, parts_destination, Ne.symm hne]
  · simp [htrace, parts_append, parts_destination, hparts, DMA.done, DMA.script, DMA.readScript]

theorem Executed.runDma (h : Executed w) (hcount : Counted w) {step : DmaStep}
    (hc : w.doing c = .running step task back) (hroom : w.NoOverflow (.advance c)) :
    Executed (runDma cfg w c step task back) := by
  simp only [NoOverflow, hc] at hroom
  unfold World.runDma
  cases hd : w.dmas[task.dma]? with
  | none => exact h
  | some dma =>
      cases step with
      | acquireRead => exact h.acquireRead hd hc
      | get => exact h.get hd hc
      | signalSrc => exact h.signalSrc hcount hd hc (hroom dma hd)
      | acquireWrite => exact h.acquireWrite hd hc
      | store => exact h.store hd hc
      | signalDst => exact h.signalDst hcount hd hc (hroom dma hd)

/-! ### The steps of a core -/

/-- An event that is no part of a DMA. -/
theorem Executed.log_other (h : Executed w) {e : Event n v} (he : ∀ d, e.part? d = none) :
    Executed (w.log e) := by
  refine h.congr rfl rfl fun d => ?_
  rw [log_trace, parts_append]
  simp [parts, he d]

theorem Executed.tick (h : Executed w) (detect : Bool) (c : Fin n) : Executed (w.tick detect c) :=
  h.congr (tick_dmas detect w c) (tick_doing detect w c) fun d => by rw [tick_trace]

/-- A new DMA has done nothing. -/
theorem Executed.addDma (h : Executed w) (dma : DMA n v) (hstate : dma.state = .started)
    (hlock : dma.lock = none) : Executed { w with dmas := w.dmas ++ [dma] } := by
  have hnew : ∀ d x, (w.dmas ++ [dma])[d]? = some x →
      w.dmas[d]? = some x ∨ d = w.dmas.length ∧ x = dma := by
    intro d x hx
    rcases Nat.lt_trichotomy d w.dmas.length with hlt | heq | hgt
    · rw [List.getElem?_append_left hlt] at hx
      exact .inl hx
    · rw [heq, List.getElem?_concat_length] at hx
      exact .inr ⟨heq, (Option.some.inj hx).symm⟩
    · rw [List.getElem?_eq_none (by simp; omega)] at hx
      cases hx
  constructor
  · intro c d
    refine (h.locked c d).trans ⟨?_, ?_⟩
    · rintro ⟨x, hx, hl⟩
      refine ⟨x, ?_, hl⟩
      show (w.dmas ++ [dma])[d]? = some x
      rw [List.getElem?_append_left (List.getElem?_eq_some_iff.mp hx).1]
      exact hx
    · rintro ⟨x, hx, hl⟩
      obtain hx | ⟨-, rfl⟩ := hnew d x hx
      · exact ⟨x, hx, hl⟩
      · rw [hlock] at hl
        cases hl
  · intro d x hx
    obtain hx | ⟨rfl, rfl⟩ := hnew d x hx
    · exact h.progress d x hx
    · unfold Progress
      rw [hlock]
      show parts w.trace w.dmas.length = x.done
      rw [h.fresh _ (Nat.le_refl _), DMA.done, hstate]
  · intro d hd
    have hlen : (w.dmas ++ [dma]).length ≤ d := hd
    rw [List.length_append] at hlen
    exact h.fresh d (by omega)

theorem Executed.startDma (h : Executed w) (hc : w.doing c = .idle) (t : Transfer n v) :
    Executed (startDma cfg w c t) := by
  have hadd := h.addDma
    { t with src := c, clock := w.clocks c, state := .started, lock := none } rfl rfl
  refine (hadd.goto (c := c) ?_ ?_).log_other fun d => rfl
  · show holds (w.doing c) = none
    rw [hc]
    rfl
  · split <;> rfl

theorem Executed.beginOp (h : Executed w) (hc : w.doing c = .idle) (op : Op n v) :
    Executed (beginOp cfg w c op) := by
  have htick := h.tick cfg.detectRaces c
  have hidle : (w.tick cfg.detectRaces c).doing c = .idle := by rw [tick_doing, hc]
  have hnone : holds ((w.tick cfg.detectRaces c).doing c) = none := by rw [hidle]; rfl
  cases op with
  | access => exact htick.log_other fun d => rfl
  | semaphoreSignal sem target inc => exact htick.goto hnone rfl
  | semaphoreWait sem value => exact htick.goto hnone rfl
  | dmaStart t => exact htick.startDma hidle t
  | dmaWait sem size => exact htick.goto hnone rfl

theorem Executed.tryWait (h : Executed w) {hasTasks : Bool} {sem value : ℕ}
    (hc : w.doing c = .waiting hasTasks sem value) :
    Executed (tryWait cfg w c hasTasks sem value) := by
  have hnone : holds (w.doing c) = none := by rw [hc]; rfl
  unfold World.tryWait
  split
  · have hset : Executed (w.setCount sem c (w.countByCore sem c - value)) :=
      h.congr rfl rfl fun d => rfl
    refine (hset.goto hnone ?_).log_other fun d => rfl
    · split
      · split <;> rfl
      · rfl
  split
  · exact h.goto hnone rfl
  · exact h

theorem Executed.advance (h : Executed w) (hcount : Counted w)
    (hroom : w.NoOverflow (.advance c)) : Executed (advance cfg w c) := by
  unfold World.advance
  split
  · exact h
  · next sem target inc clock hc =>
      simp only [NoOverflow, hc] at hroom
      obtain ⟨w₁, hw₁, hdmas, hdoing, htrace, -⟩ := exists_signal cfg.detectRaces w
        (.core c) sem target clock (hcount.amount_le hroom)
      rw [hw₁]
      have hsent : Executed w₁ := by
        refine h.congr hdmas hdoing fun d => ?_
        rw [htrace, parts_append]
        simp [parts, Event.part?]
      exact hsent.goto (by rw [hdoing, hc]; rfl) rfl
  · next hc => exact h.tryWait hc
  · next clock hc =>
      have hmerged : Executed (w.merge c clock) := h.congr rfl rfl fun d => rfl
      refine hmerged.goto ?_ rfl
      show holds (w.doing c) = none
      rw [hc]
      rfl
  · next sem value hc =>
      have hnone : holds (w.doing c) = none := by rw [hc]; rfl
      unfold popTask
      split
      · exact h.goto hnone rfl
      · next hpop =>
          have hset : Executed (w.setTasks (sem, c) (w.tasksBySem (sem, c)).dropLast) :=
            h.congr rfl rfl fun d => rfl
          split at hpop
          · cases hpop
          · cases hpop
            exact hset.goto hnone rfl
  · next hc => exact h.goto (by rw [hc]; rfl) rfl
  · next queue task tasks hc =>
      have hset : Executed (w.appendTask queue task) := h.congr rfl rfl fun d => rfl
      refine hset.goto ?_ rfl
      show holds (w.doing c) = none
      rw [hc]
      rfl
  · next step task back hc => exact h.runDma hcount hc hroom
  · exact h

end World

end JaxDas.Interpret
