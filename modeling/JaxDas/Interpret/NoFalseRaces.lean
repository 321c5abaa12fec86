import JaxDas.Interpret.HappensBefore

/-!
# No false races

Every step of a run keeps the clocks above what is known at their places, as long as no entry
that it increments has the largest value of its type: one lemma for each step.
-/

namespace JaxDas.Interpret

variable {n v : ℕ}

open Event

namespace World

/-- The entry of a DMA in its clock does not wrap. -/
def DmaRoom (dma : DMA n v) : Prop :=
  dma.clock (Fin.natAdd n dma.virtualDeviceId) ≠ int32Max

/-- The entry of a core in its clock does not wrap. -/
def CoreRoom (w : World n v) (c : Fin n) : Prop := w.clocks c (Fin.castAdd v c) ≠ int32Max

/-- No entry that the action increments has the largest value. -/
def NoWrap (w : World n v) : Action n v → Prop
  | .begin c _ => w.CoreRoom c
  | .advance c =>
      match w.doing c with
      | .running step task _ => ∀ dma, w.dmas[task.dma]? = some dma →
          match step with
          | .get => DmaRoom dma ∧ w.CoreRoom dma.src
          | .store => DmaRoom dma ∧ w.CoreRoom dma.dst
          | .signalSrc => DmaRoom dma
          | .signalDst => DmaRoom dma
          | _ => True
      | _ => True
  | .barrier _ _ => True

variable {w w' : World n v}

/-! ### What orders each event -/

section Orders

attribute [local simp] Orders OnCore Waits OfDma

theorem orders_access {a : Event n v} {c : Fin n} {clock : Clock n v} :
    Orders a (.access c clock) ↔ a.OnCore c := by
  simp

theorem orders_signaled_core {a : Event n v} {c target : Fin n} {sem amount : ℕ}
    {clock : Clock n v} :
    Orders a (.signaled (.core c) sem target amount clock) ↔ a.OnCore c := by
  simp

theorem orders_signaled_dma {a : Event n v} {who : Signaler n} {d : ℕ} {target : Fin n}
    {sem amount : ℕ} {clock : Clock n v} (hwho : who = .source d ∨ who = .destination d) :
    Orders a (.signaled who sem target amount clock) ↔ a.OfDma d := by
  obtain rfl | rfl := hwho
  · simp
  · simp

theorem orders_waited {a : Event n v} {c : Fin n} {sem value : ℕ} :
    Orders a (.waited c sem value) ↔ a.OnCore c ∨ a.Signals sem c := by
  simp

theorem orders_started {a : Event n v} {c : Fin n} {d : ℕ} {clock : Clock n v} :
    Orders a (.started c d clock) ↔ a.OnCore c ∨ a.OfDma d := by
  simp

theorem orders_read {a : Event n v} {d : ℕ} {clock : Clock n v} :
    Orders a (.read d clock) ↔ a.OfDma d := by
  simp

theorem orders_wrote {a : Event n v} {d : ℕ} {clock : Clock n v} :
    Orders a (.wrote d clock) ↔ a.OfDma d := by
  simp

theorem orders_barrier {a : Event n v} {low : Fin n} {high : ℕ} :
    Orders a (.barrier low high) ↔ ∃ c, a.OnCore c ∧ low ≤ c ∧ c < high := by
  simp

end Orders

/-! ### The operations of a core -/

theorem not_sends {c : Fin n} {d : Doing n v} (hdoing : w.doing c = d)
    (hd : ∀ sem target amount clock, d ≠ .signaling sem target amount clock)
    (clock : Clock n v) : ¬ w.Sends c clock := by
  rintro ⟨sem, target, amount, h⟩
  exact hd sem target amount clock (hdoing.symm.trans h)

theorem Ordered.beginOp (h : Ordered w) {c : Fin n} (hidle : w.doing c = .idle)
    (hroom : w.CoreRoom c) (eager : Bool) (op : Op n v) :
    Ordered (beginOp ⟨true, eager⟩ w c op) := by
  have htick := h.tick hroom
  have hidle' : (w.tick true c).doing c = .idle := hidle
  have hreach : (w.tick true c).reach c = (w.tick true c).clocks c :=
    reach_eq fun clock hc => by rw [hidle'] at hc; cases hc
  have hbelow : Below (w.tick true c).trace (·.OnCore c) ((w.tick true c).clocks c) := by
    rw [tick_self]
    have hcore := h.cores c
    rw [reach_eq fun clock hc => by rw [hidle] at hc; cases hc] at hcore
    exact hcore.below_inc hroom
  have hgoto : ∀ d : Doing n v, (∀ sem target amount clock, d ≠ .signaling sem target amount clock) →
      Ordered ((w.tick true c).goto c d) := by
    intro d hd
    exact htick.goto (le_of_eq hreach) fun sem target amount clock h =>
      absurd h (hd sem target amount clock)
  cases op with
  | access =>
      refine htick.log ?_ ?_ ?_ ?_
      · intro ce hce
        injection hce with hce
        exact hce ▸ hbelow.imp fun a ha => orders_access.mp ha
      · rintro c' rfl
        refine ⟨not_sends hidle' (by simp), ?_, ?_⟩
        · exact (hbelow.imp fun a ha => orders_access.mp ha).bounded (le_of_eq hreach.symm)
        · intro ce hce
          injection hce with hce
          rw [hreach, ← hce]
      · exact fun sem c' hs => hs.elim
      · exact fun d hd => hd.elim
  | semaphoreSignal sem target inc =>
      refine htick.goto (le_of_eq hreach) ?_
      intro sem' target' amount clock heq
      injection heq with _ _ _ heq
      rw [← heq]
      exact ⟨hbelow, le_rfl⟩
  | semaphoreWait sem value => exact hgoto _ (by simp)
  | dmaWait sem size => exact hgoto _ (by simp)
  | dmaStart t =>
      have hadd : Ordered ({ w.tick true c with
          dmas := (w.tick true c).dmas ++ [{ t with
            src := c, clock := (w.tick true c).clocks c, state := .started, lock := none }] }) := by
        refine htick.mono rfl (fun c => reach_le_reach rfl le_rfl) (fun _ _ => .refl _) ?_ ?_ ?_
        · intro d dma hd
          by_cases hlt : d < (w.tick true c).dmas.length
          · rw [List.getElem?_append_left hlt] at hd
            exact .inl ⟨dma, hd, le_rfl⟩
          · exact .inr (Nat.le_of_not_lt hlt)
        · rw [List.length_append]
          exact Nat.le_add_right _ _
        · exact fun c clock hc => htick.sends c clock hc
      have hstart := hadd.goto (c := c)
        (d := if eager then .running .acquireRead ⟨(w.tick true c).dmas.length, true⟩ none
          else .appending (tasksOf c (w.tick true c).dmas.length t)) (le_of_eq hreach)
        (by intro sem target amount clock h; cases eager <;> cases h)
      have horder : ∀ a ∈ (w.tick true c).trace,
          Orders a (.started c (w.tick true c).dmas.length ((w.tick true c).clocks c)) →
            a.OnCore c :=
        fun a ha horders => (orders_started.mp horders).resolve_right
          (htick.fresh _ (Nat.le_refl _) a ha)
      have hbelow' : Below (w.tick true c).trace
          (Orders · (.started c (w.tick true c).dmas.length ((w.tick true c).clocks c)))
          ((w.tick true c).clocks c) := by
        rintro i a ca ⟨k, b, hb, horders, hik⟩
        exact hbelow i a ca ⟨k, b, hb, horder b (List.mem_of_getElem? hb) horders, hik⟩
      refine hstart.log ?_ ?_ ?_ ?_
      · intro ce hce
        injection hce with hce
        exact hce ▸ hbelow'
      · rintro c' rfl
        refine ⟨not_sends (goto_self _ _ _) (by cases eager <;> simp), ?_, ?_⟩
        · exact hbelow'.bounded (clocks_le_reach _ _)
        · intro ce hce
          injection hce with hce
          exact hce ▸ clocks_le_reach _ _
      · exact fun sem c' hs => hs.elim
      · rintro d rfl
        refine ⟨_, List.getElem?_concat_length, hbelow'.bounded le_rfl, ?_⟩
        intro ce hce
        injection hce with hce
        exact le_of_eq hce.symm

/-- A semaphore is signaled with the clock of a core. -/
theorem Ordered.signalCore (h : Ordered w) {c target : Fin n} {sem amount : ℕ}
    {clock : Clock n v} (hc : w.doing c = .signaling sem target amount clock)
    (hsignal : w.signal true (.core c) sem target amount clock = some w') :
    Ordered (w'.goto c .idle) := by
  obtain ⟨hbelow, hle⟩ := h.sends c clock ⟨sem, target, amount, hc⟩
  unfold World.signal at hsignal
  split at hsignal
  · cases hsignal
  injection hsignal with hsignal
  have hreach : w.reach c = w.clocks c := reach_eq fun clock hd => by rw [hc] at hd; cases hd
  have hsem := ((h.setCount sem target
    (Int.bmod (w.countByCore sem target + amount) 4294967296)).mergeSem sem target clock)
  have hidle := hsem.goto (c := c) (d := .idle) (le_of_eq hreach)
    (by intro sem target amount clock h; cases h)
  have hlog := hidle.log (e := .signaled (.core c) sem target amount clock) ?_ ?_ ?_ ?_
  · rw [← hsignal]
    exact hlog
  · intro ce hce
    injection hce with hce
    exact hce ▸ hbelow.imp fun a ha => orders_signaled_core.mp ha
  · intro c' hc'
    injection hc' with hc'
    subst hc'
    refine ⟨not_sends (goto_self _ _ _) (by simp), ?_, ?_⟩
    · exact (hbelow.imp fun a ha => orders_signaled_core.mp ha).bounded
        (hle.trans (clocks_le_reach _ _))
    · intro ce hce
      injection hce with hce
      exact hce ▸ hle.trans (clocks_le_reach _ _)
  · rintro sem' c' ⟨rfl, rfl⟩
    obtain ⟨x, hx, hxle⟩ := mergeSem_self (w.setCount sem target
      (Int.bmod (w.countByCore sem target + amount) 4294967296)) sem target clock
    refine ⟨x, hx, (hbelow.imp fun a ha => orders_signaled_core.mp ha).bounded hxle, ?_⟩
    intro ce hce
    injection hce with hce
    exact hce ▸ hxle
  · rintro d (hd | hd)
    · cases hd
    · cases hd

/-- A wait takes the clock of the semaphore with the count. -/
theorem Ordered.tryWait (h : Ordered w) {c : Fin n} {hasTasks : Bool} {sem value : ℕ}
    (hc : w.doing c = .waiting hasTasks sem value) (eager : Bool) :
    Ordered (tryWait ⟨true, eager⟩ w c hasTasks sem value) := by
  have hreach : w.reach c = w.clocks c := reach_eq fun clock hd => by rw [hc] at hd; cases hd
  unfold World.tryWait
  split
  · have hcount := h.setCount sem c (w.countByCore sem c - value)
    have hlog : ∀ d : Doing n v,
        (∀ sem target amount clock, d ≠ .signaling sem target amount clock) →
        Bounded w.trace (·.Signals sem c) ((w.goto c d).reach c) →
        Ordered (((w.setCount sem c (w.countByCore sem c - value)).goto c d).log
          (.waited c sem value)) := by
      intro d hd hbound
      refine (hcount.goto (le_of_eq hreach) fun s t k clock heq => absurd heq (hd s t k clock)).log
        ?_ ?_ ?_ ?_
      · intro ce hce
        cases hce
      · rintro c' rfl
        refine ⟨not_sends (goto_self _ _ _) hd, ?_, fun ce hce => by cases hce⟩
        have hcore : Bounded w.trace (·.OnCore c) ((w.goto c d).reach c) :=
          (h.cores c).mono (hreach ▸ clocks_le_reach (w.goto c d) c)
        exact (hcore.or hbound).imp fun a ha => orders_waited.mp ha
      · exact fun sem c' hs => hs.elim
      · exact fun d hd => hd.elim
    simp only [if_true]
    cases hsem : (w.setCount sem c (w.countByCore sem c - value)).semClocks sem c with
    | none => exact hlog .raised (by simp) (.of_none (h.unsignaled sem c hsem))
    | some clock =>
        refine hlog (.merging clock) (by simp) ((h.sems sem c clock hsem).mono ?_)
        have : (w.goto c (.merging clock)).reach c = VectorClock.update (w.clocks c) clock := by
          rw [reach, goto_self]
          rfl
        rw [this]
        exact VectorClock.le_update_right _ _
  · split
    · exact h.goto (le_of_eq hreach) (by intro sem target amount clock h; cases h)
    · exact h

/-! ### The execution of a DMA -/

/-- An event of a DMA is logged with the clock that the DMA has. -/
theorem Ordered.logDma (h : Ordered w) {e : Event n v} {d : ℕ} {dma : DMA n v} {ce : Clock n v}
    (hd : w.dmas[d]? = some dma) (hce : e.clock? = some ce) (hle : ce ≤ dma.clock)
    (hbelow : Below w.trace (·.OfDma d) ce) (horders : ∀ a, Orders a e → a.OfDma d)
    (hcore : ∀ c, ¬ e.OnCore c) (hof : ∀ d', e.OfDma d' → d' = d)
    (hsem : ∀ sem c, e.Signals sem c → ∃ x, w.semClocks sem c = some x ∧ ce ≤ x) :
    Ordered (w.log e) := by
  have hbelow' := hbelow.imp horders
  have heq : ∀ ce', e.clock? = some ce' → ce' = ce := fun ce' h => Option.some.inj (h.symm.trans hce)
  refine h.log ?_ (fun c hc => absurd hc (hcore c)) ?_ ?_
  · intro ce' hce'
    exact heq ce' hce' ▸ hbelow'
  · intro sem c hs
    obtain ⟨x, hx, hlex⟩ := hsem sem c hs
    exact ⟨x, hx, hbelow'.bounded hlex, fun ce' hce' => heq ce' hce' ▸ hlex⟩
  · intro d' hd'
    rw [hof d' hd']
    exact ⟨dma, hd, hbelow'.bounded hle, fun ce' hce' => heq ce' hce' ▸ hle⟩

theorem Ordered.goto_quiet (h : Ordered w) {c : Fin n} (hreach : w.reach c ≤ w.clocks c)
    {d : Doing n v} (hd : ∀ sem target amount clock, d ≠ .signaling sem target amount clock) :
    Ordered (w.goto c d) :=
  h.goto hreach fun sem target amount clock heq => absurd heq (hd sem target amount clock)

theorem backTo_quiet (back : Option (ℕ × ℕ)) (sem : ℕ) (target : Fin n) (amount : ℕ)
    (clock : Clock n v) : backTo back ≠ .signaling sem target amount clock := by
  cases back <;> simp [backTo]

theorem afterRead_quiet (task : Task) (back : Option (ℕ × ℕ)) (sem : ℕ) (target : Fin n)
    (amount : ℕ) (clock : Clock n v) :
    afterRead task back ≠ .signaling sem target amount clock := by
  unfold afterRead
  split
  · simp
  · exact backTo_quiet back sem target amount clock

theorem getElem?_setDma {d : ℕ} {dma : DMA n v} (hd : w.dmas[d]? = some dma) (dma' : DMA n v) :
    (w.setDma d dma').dmas[d]? = some dma' :=
  List.getElem?_set_self (List.getElem?_eq_some_iff.mp hd).1

section

variable {c : Fin n} {id : ℕ} {dma : DMA n v}

theorem le_dmaTick (hdma : DmaRoom dma) (eager : Bool) :
    dma.clock ≤ (DMA.tick ⟨true, eager⟩ dma).clock :=
  VectorClock.le_inc hdma

/-- A DMA reads its source or writes its destination: its clock and that of a core go up. -/
theorem Ordered.touch (h : Ordered w) (hd : w.dmas[id]? = some dma)
    (hcalm : ∀ clock, w.doing c ≠ .merging clock) (hdma : DmaRoom dma) {c' : Fin n}
    (hcore : w.CoreRoom c') (eager : Bool) (lock : Option (Fin n)) {next : Doing n v}
    (hnext : ∀ sem target amount clock, next ≠ .signaling sem target amount clock) :
    Ordered (((w.tick true c').setDma id { DMA.tick ⟨true, eager⟩ dma with lock := lock }).goto c
      next) := by
  have hset := (h.tick hcore).setDma hd { DMA.tick ⟨true, eager⟩ dma with lock := lock }
    (le_dmaTick hdma eager)
  refine hset.goto_quiet (le_of_eq ?_) hnext
  exact reach_eq (w := w.tick true c') hcalm

/-- A DMA signals a semaphore, and then changes its state. -/
theorem Ordered.signalDma (h : Ordered w) (hd : w.dmas[id]? = some dma)
    (hcalm : ∀ clock, w.doing c ≠ .merging clock) (hdma : DmaRoom dma) (eager : Bool)
    {who : Signaler n} (hwho : who = .source id ∨ who = .destination id) {sem amount : ℕ}
    {target : Fin n}
    (hsignal : w.signal true who sem target amount (DMA.tick ⟨true, eager⟩ dma).clock = some w')
    (dma' : DMA n v) (hclock : dma'.clock = (DMA.tick ⟨true, eager⟩ dma).clock)
    {next : Doing n v}
    (hnext : ∀ sem target amount clock, next ≠ .signaling sem target amount clock) :
    Ordered ((w'.setDma id dma').goto c next) := by
  unfold World.signal at hsignal
  split at hsignal
  · cases hsignal
  injection hsignal with hsignal
  have hsem := ((h.setCount sem target
    (Int.bmod (w.countByCore sem target + amount) 4294967296)).mergeSem sem target
      (DMA.tick ⟨true, eager⟩ dma).clock)
  have hset := hsem.setDma hd dma' (hclock ▸ le_dmaTick hdma eager)
  have hgoto := hset.goto_quiet (c := c) (le_of_eq (reach_eq hcalm)) hnext
  rw [← hsignal]
  refine hgoto.logDma (e := .signaled who sem target amount (DMA.tick ⟨true, eager⟩ dma).clock)
    (getElem?_setDma hd dma') rfl (le_of_eq hclock.symm) ((h.dmas _ dma hd).below_inc hdma)
    (fun a ha => (orders_signaled_dma hwho).mp ha) ?_ ?_ ?_
  · intro c hc
    obtain rfl | rfl := hwho
    · cases hc
    · cases hc
  · intro d' hd'
    obtain rfl | rfl := hwho
    · obtain heq | heq := hd'
      · injection heq with heq
        exact heq.symm
      · cases heq
    · obtain heq | heq := hd'
      · cases heq
      · injection heq with heq
        exact heq.symm
  · rintro sem' c' ⟨rfl, rfl⟩
    exact mergeSem_self _ _ _ _

end

theorem Ordered.runDma (h : Ordered w) {c : Fin n} {step : DmaStep} {task : Task}
    {back : Option (ℕ × ℕ)} (hc : w.doing c = .running step task back)
    (hroom : w.NoWrap (.advance c)) (eager : Bool) :
    Ordered (runDma ⟨true, eager⟩ w c step task back) := by
  have hcalm : ∀ clock, w.doing c ≠ .merging clock := fun clock hd => by
    rw [hc] at hd
    cases hd
  have hreach : w.reach c ≤ w.clocks c := le_of_eq (reach_eq hcalm)
  simp only [NoWrap, hc] at hroom
  unfold World.runDma
  cases hd : w.dmas[task.dma]? with
  | none => exact h
  | some dma =>
      have hroom := hroom dma hd
      have hlocked := h.setDma hd { dma with lock := some c } le_rfl
      cases step with
      | acquireRead =>
          simp only [World.acquireRead]
          split
          · exact h
          split
          · exact h.goto_quiet hreach (afterRead_quiet task back)
          · exact hlocked.goto_quiet hreach (by simp)
      | get =>
          obtain ⟨hdma, hcore⟩ := hroom
          simp only [World.get]
          split
          · exact (h.touch hd hcalm hdma hcore eager dma.lock (by simp)).logDma
              (getElem?_setDma hd _) rfl le_rfl ((h.dmas _ dma hd).below_inc hdma)
              (fun a ha => orders_read.mp ha) (fun _ hf => hf) (fun _ hd => hd.symm)
              fun _ _ hf => hf.elim
          · exact h.touch hd hcalm hdma hcore eager none (by simp)
      | signalSrc =>
          have hset : ∀ lock state, Ordered (w.setDma task.dma
              { DMA.tick ⟨true, eager⟩ dma with lock := lock, state := state }) :=
            fun lock state => h.setDma hd _ (le_dmaTick hroom eager)
          simp only [World.signalSrc]
          split
          · exact (hset none .read).goto_quiet hreach (afterRead_quiet task back)
          split
          · exact (hset none dma.state).goto_quiet hreach (by simp)
          · next w' hsignal =>
              exact h.signalDma hd hcalm hroom eager (.inl rfl) hsignal
                { DMA.tick ⟨true, eager⟩ dma with state := .read, lock := none } rfl
                (afterRead_quiet task back)
      | acquireWrite =>
          simp only [World.acquireWrite]
          split
          · exact h
          split
          · exact h.goto_quiet hreach (by simp)
          · exact h.goto_quiet hreach (backTo_quiet back)
          · exact hlocked.goto_quiet hreach (by simp)
      | store =>
          obtain ⟨hdma, hcore⟩ := hroom
          simp only [World.store]
          split
          · exact (h.touch hd hcalm hdma hcore eager dma.lock (by simp)).logDma
              (getElem?_setDma hd _) rfl le_rfl ((h.dmas _ dma hd).below_inc hdma)
              (fun a ha => orders_wrote.mp ha) (fun _ hf => hf) (fun _ hd => hd.symm)
              fun _ _ hf => hf.elim
          · exact h.touch hd hcalm hdma hcore eager none (by simp)
      | signalDst =>
          simp only [World.signalDst]
          split
          · exact (h.setDma hd { DMA.tick ⟨true, eager⟩ dma with lock := none }
              (le_dmaTick hroom eager)).goto_quiet hreach (by simp)
          · next w' hsignal =>
              exact h.signalDma hd hcalm hroom eager (.inr rfl) hsignal
                { DMA.tick ⟨true, eager⟩ dma with state := .completed, lock := none } rfl
                (backTo_quiet back)

/-! ### Runs -/

theorem Ordered.advance (h : Ordered w) {c : Fin n} (hroom : w.NoWrap (.advance c))
    (eager : Bool) : Ordered (advance ⟨true, eager⟩ w c) := by
  unfold World.advance
  split
  · exact h
  · next sem target amount clock hc =>
      split
      · refine h.goto_quiet (le_of_eq (reach_eq fun clock hd => ?_)) (by simp)
        rw [hc] at hd
        cases hd
      · next w' hsignal => exact h.signalCore hc hsignal
  · next hasTasks sem value hc => exact h.tryWait hc eager
  · next clock hc =>
      refine (h.merge c clock).goto_quiet ?_ (by simp)
      have hself : (w.merge c clock).clocks c = VectorClock.update (w.clocks c) clock :=
        Function.update_self _ _ _
      have hreach : (w.merge c clock).reach c =
          VectorClock.update ((w.merge c clock).clocks c) clock := by
        have hdoing : (w.merge c clock).doing c = .merging clock := hc
        rw [reach, hdoing]
      rw [hreach, hself]
      exact VectorClock.update_le le_rfl (VectorClock.le_update_right _ _)
  · next sem value hc =>
      have hreach : w.reach c ≤ w.clocks c := le_of_eq (reach_eq fun clock hd => by
        rw [hc] at hd
        cases hd)
      unfold popTask
      split
      · next heq => exact h.goto_quiet hreach (by simp)
      · next task w' heq =>
          split at heq
          · cases heq
          · injection heq with heq
            injection heq with _ heq
            rw [← heq]
            exact (h.setTasks _ _).goto_quiet hreach (by simp)
  · next hc =>
      refine h.goto_quiet (le_of_eq (reach_eq fun clock hd => ?_)) (by simp)
      rw [hc] at hd
      cases hd
  · next queue task tasks hc =>
      refine (h.setTasks _ _).goto_quiet (le_of_eq (reach_eq (w := w) fun clock hd => ?_)) (by simp)
      rw [hc] at hd
      cases hd
  · next step task back hc => exact h.runDma hc hroom eager
  · exact h

theorem mem_cores {low c : Fin n} {high : ℕ} :
    c ∈ cores low high ↔ low < c ∧ (c : ℕ) < high := by
  simp [cores]

/-- The clock of `low` takes in those of the other cores. -/
theorem le_merged (w : World n v) (low : Fin n) (high : ℕ) :
    w.clocks low ≤ w.merged low high ∧
      ∀ c ∈ cores low high, w.clocks c ≤ w.merged low high := by
  have hfold : ∀ (l : List (Fin n)) (x : Clock n v),
      x ≤ l.foldl (fun x c => VectorClock.update x (w.clocks c)) x ∧
        ∀ c ∈ l, w.clocks c ≤ l.foldl (fun x c => VectorClock.update x (w.clocks c)) x := by
    intro l
    induction l with
    | nil => exact fun x => ⟨le_rfl, fun c hc => absurd hc List.not_mem_nil⟩
    | cons c l ih =>
        intro x
        obtain ⟨hx, hl⟩ := ih (VectorClock.update x (w.clocks c))
        rw [List.foldl_cons]
        refine ⟨(VectorClock.le_update_left _ _).trans hx, ?_⟩
        exact List.forall_mem_cons.mpr ⟨(VectorClock.le_update_right _ _).trans hx, hl⟩
  exact hfold (cores low high) (w.clocks low)

/-- After the barrier each of its cores has the clocks of all of them. -/
theorem le_updateClocks (w : World n v) (low : Fin n) (high : ℕ) :
    (∀ c, w.clocks c ≤ (w.updateClocks low high).clocks c) ∧
      ∀ c c' : Fin n, low ≤ c → c < high → low ≤ c' → c' < high →
        w.clocks c' ≤ (w.updateClocks low high).clocks c := by
  obtain ⟨hlow, hcores⟩ := le_merged w low high
  have hmem : ∀ c : Fin n, low ≤ c → c < high → c ≠ low → c ∈ cores low high :=
    fun c hle hlt hne => mem_cores.mpr ⟨Nat.lt_of_le_of_ne hle fun heq => hne (Fin.ext heq.symm), hlt⟩
  constructor
  · intro c
    simp only [updateClocks]
    split
    · next heq => exact heq ▸ hlow
    split
    · exact VectorClock.le_update_left _ _
    · exact le_rfl
  · intro c c' hc hc' hd hd'
    have hle : w.clocks c' ≤ w.merged low high := by
      by_cases heq : c' = low
      · exact heq ▸ hlow
      · exact hcores c' (hmem c' hd hd' heq)
    simp only [updateClocks]
    split
    · exact hle
    · next hne =>
        rw [if_pos (hmem c hc hc' hne)]
        exact hle.trans (VectorClock.le_update_right _ _)

theorem Ordered.barrier (h : Ordered w) {low : Fin n} {high : ℕ} (hidle : w.AllIdle low high) :
    Ordered ((w.updateClocks low high).log (.barrier low high)) := by
  obtain ⟨hup, hall⟩ := le_updateClocks w low high
  have hclocks : Ordered (w.updateClocks low high) := h.clocks_le rfl hup rfl rfl rfl
  refine hclocks.log (fun ce hce => by cases hce) ?_ (fun sem c hs => hs.elim) fun d hd => hd.elim
  rintro c ⟨hlow, hhigh⟩
  refine ⟨not_sends (w := w.updateClocks low high) (hidle c hlow hhigh) (by simp), ?_,
    fun ce hce => by cases hce⟩
  rintro i a ca ⟨k, b, hb, horders, hik⟩ ha hca
  obtain ⟨c', hon, hlow', hhigh'⟩ := orders_barrier.mp horders
  have hle := h.cores c' i a ca ⟨k, b, hb, hon, hik⟩ ha hca
  rw [reach_eq fun clock hd => by rw [hidle c' hlow' hhigh'] at hd; cases hd] at hle
  exact (hle.trans (hall c c' hlow hhigh hlow' hhigh')).trans (clocks_le_reach _ _)

theorem Ordered.step (h : Ordered w) {a : Action n v} (hroom : w.NoWrap a) {eager : Bool}
    (hstep : Step ⟨true, eager⟩ w a w') : Ordered w' := by
  cases hstep with
  | begin c op hidle => exact h.beginOp hidle hroom eager op
  | advance c => exact h.advance hroom eager
  | barrier low high hidle => exact h.barrier hidle

theorem ordered_reached {eager : Bool} (h : Reached ⟨true, eager⟩ NoWrap w) : Ordered w := by
  induction h with
  | init => exact ordered_init
  | step _ hroom hstep ih => exact ih.step hroom hstep

end World

open World

/-- In a run in which no entry of a clock wraps, an event that happens before another has a
clock below that of the other. -/
theorem before_lt {eager : Bool} {w : World n v} (h : Reached ⟨true, eager⟩ NoWrap w)
    {i j : ℕ} {a b : Event n v} (hbefore : Before Orders w.trace i j) (ha : w.trace[i]? = some a)
    (hb : w.trace[j]? = some b) {ca cb : Clock n v} (hca : a.clock? = some ca)
    (hcb : b.clock? = some cb) : VectorClock.lt ca cb = true :=
  (ordered_reached h).before i j a b ca cb hbefore ha hb hca hcb

/-- A core accesses a buffer and signals another one, which waits, and accesses it too. -/
theorem before_lt_signaled :
    VectorClock.lt (fun i : Fin (2 + 1) => if i = 0 then 1 else 0)
      (fun i : Fin (2 + 1) => if i = 2 then 0 else 2) = true := by
  have hroom : ∀ (w : World 2 1) (c : Fin 2) (op : Op 2 1),
      w.clocks c (Fin.castAdd 1 c) < 2 → NoWrap w (.begin c op) := by
    intro w c op hlt heq
    rw [heq] at hlt
    exact absurd hlt (by decide)
  have h₁ : Reached (n := 2) (v := 1) ⟨true, true⟩ NoWrap _ :=
    .step .init (hroom _ 0 .access (by decide)) (.begin 0 .access rfl)
  have h₂ := h₁.step (hroom _ 0 (.semaphoreSignal 7 1 1) (by decide)) (.begin 0 _ rfl)
  have h₃ := h₂.step (a := .advance 0) trivial (.advance 0)
  have h₄ := h₃.step (hroom _ 1 (.semaphoreWait 7 1) (by decide)) (.begin 1 _ rfl)
  have h₅ := h₄.step (a := .advance 1) trivial (.advance 1)
  have h₆ := h₅.step (a := .advance 1) trivial (.advance 1)
  have h₇ := h₆.step (hroom _ 1 .access (by decide)) (.begin 1 _ rfl)
  refine before_lt h₇ (i := 0) (j := 3) ?_ rfl rfl ?_ ?_
  · refine .tail (b := 2) (.tail (b := 1) (.single ?_) ?_) ?_
    · exact ⟨by decide, _, _, rfl, rfl, .inl ⟨0, rfl, rfl⟩⟩
    · exact ⟨by decide, _, _, rfl, rfl, .inr (.inl ⟨7, 1, ⟨rfl, rfl⟩, ⟨rfl, rfl⟩⟩)⟩
    · exact ⟨by decide, _, _, rfl, rfl, .inl ⟨1, rfl, rfl⟩⟩
  · exact congrArg some (funext (by decide))
  · exact congrArg some (funext (by decide))

/-- A core whose entry has the largest value, after as many accesses. -/
theorem reached_accesses (k : ℕ) (hk : (k : ℤ) ≤ int32Max) :
    ∃ w : World 1 1, Reached ⟨true, true⟩ (fun _ _ => True) w ∧ w.doing 0 = .idle ∧
      w.clocks 0 (Fin.castAdd 1 0) = k ∧ w.trace.length = k ∧
      (k ≠ 0 → ∃ clock, w.trace[k - 1]? = some (.access 0 clock) ∧
        clock (Fin.castAdd 1 0) = k) := by
  induction k with
  | zero => exact ⟨_, .init, rfl, rfl, rfl, fun h => absurd rfl h⟩
  | succ k ih =>
      obtain ⟨w, hw, hidle, hclock, hlen, -⟩ := ih (by omega)
      have hentry : (w.tick true 0).clocks 0 (Fin.castAdd 1 0) = (k + 1 : ℕ) := by
        rw [tick_self, VectorClock.inc, Function.update_self, hclock, if_neg (by omega)]
        rfl
      refine ⟨_, hw.step trivial (.begin 0 .access hidle), hidle, hentry, ?_, fun _ =>
        ⟨(w.tick true 0).clocks 0, ?_, hentry⟩⟩
      · simp only [beginOp, World.log, List.length_append, List.length_singleton]
        exact congrArg (· + 1) hlen
      · have hlen' : (w.tick true 0).trace.length = k := hlen
        rw [Nat.add_sub_cancel]
        simp only [beginOp, World.log]
        rw [List.getElem?_append_right (by omega), hlen', Nat.sub_self]
        rfl

/-- After the largest value the entry wraps, and the next access has a smaller clock. -/
theorem wrapped_clock_not_lt :
    ∃ (w : World 1 1) (i j : ℕ) (a b : Event 1 1) (ca cb : Clock 1 1),
      Reached ⟨true, true⟩ (fun _ _ => True) w ∧ Before Orders w.trace i j ∧
        w.trace[i]? = some a ∧ w.trace[j]? = some b ∧ a.clock? = some ca ∧ b.clock? = some cb ∧
          VectorClock.lt ca cb = false := by
  obtain ⟨w, hw, hidle, hclock, hlen, hlast⟩ := reached_accesses 2147483647 (by decide)
  obtain ⟨ca, ha, hca⟩ := hlast (by decide)
  have hentry : (w.tick true 0).clocks 0 (Fin.castAdd 1 0) = -2147483648 := by
    rw [tick_self, VectorClock.inc, Function.update_self, hclock, if_pos (by decide)]
    rfl
  have hprev : (w.trace ++ [.access 0 ((w.tick true 0).clocks 0)])[2147483646]? =
      some (.access 0 ca) := by
    rw [List.getElem?_append_left (by omega)]
    exact ha
  have hlast : (w.trace ++ [.access 0 ((w.tick true 0).clocks 0)])[2147483647]? =
      some (.access 0 ((w.tick true 0).clocks 0)) := by
    rw [List.getElem?_append_right (by omega), hlen]
    rfl
  refine ⟨_, 2147483646, 2147483647, .access 0 ca, .access 0 ((w.tick true 0).clocks 0), ca, _,
    hw.step trivial (.begin 0 .access hidle), .single ?_, hprev, hlast, rfl, rfl, ?_⟩
  · exact ⟨by decide, _, _, hprev, hlast, .inl ⟨0, rfl, rfl⟩⟩
  · refine Bool.eq_false_iff.mpr fun hlt => ?_
    have hle := VectorClock.le_of_lt hlt (Fin.castAdd 1 0)
    rw [hca, hentry] at hle
    exact absurd hle (by decide)

end JaxDas.Interpret
