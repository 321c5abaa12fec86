import JaxDas.Interpret.Dma

/-!
# The counts of the semaphores

The count of a semaphore for a core is what was signaled less what waits have taken
(`Counted`), as long as no signal takes it out of its type.
-/

namespace JaxDas.Interpret

variable {n v : ℕ}

/-- What the event adds to the count of the semaphore for the core. -/
def Event.change (sem : ℕ) (c : Fin n) : Event n v → ℤ
  | signaled _ sem' target amount _ => if sem' = sem ∧ target = c then amount else 0
  | waited c' sem' value => if sem' = sem ∧ c' = c then -value else 0
  | _ => 0

/-- What was signaled, less what waits have taken. -/
def balance (sem : ℕ) (c : Fin n) : List (Event n v) → ℤ
  | [] => 0
  | e :: tr => e.change sem c + balance sem c tr

theorem balance_append (sem : ℕ) (c : Fin n) (tr tr' : List (Event n v)) :
    balance sem c (tr ++ tr') = balance sem c tr + balance sem c tr' := by
  induction tr with
  | nil => simp [balance]
  | cons e tr ih =>
      simp only [List.cons_append, balance, ih]
      omega

namespace World

/-- Counts are what was signaled less what was taken, and no wait took more than there was. -/
structure Counted (w : World n v) : Prop where
  count : ∀ sem c, w.countByCore sem c = balance sem c w.trace
  nonneg : ∀ sem c, 0 ≤ w.countByCore sem c
  waits : ∀ i c sem (value : ℕ), w.trace[i]? = some (.waited c sem value) →
    (value : ℤ) ≤ balance sem c (w.trace.take i)

/-- No signal takes a count out of its type. -/
def NoOverflow (w : World n v) : Action n v → Prop
  | .advance c =>
      match w.doing c with
      | .signaling sem target amount _ => w.countByCore sem target + amount ≤ int32Max
      | .running .signalSrc task _ => ∀ dma, w.dmas[task.dma]? = some dma →
          ∀ sem ∈ dma.srcSem, w.countByCore sem dma.src + dma.size ≤ int32Max
      | .running .signalDst task _ => ∀ dma, w.dmas[task.dma]? = some dma →
          w.countByCore dma.dstSem dma.dst + dma.size ≤ int32Max
      | _ => True
  | _ => True

variable {w w' : World n v}

theorem counted_init : Counted (init n v) := by
  constructor
  · intro sem c
    rfl
  · intro sem c
    exact Int.le_refl 0
  · intro i c sem value h
    cases h

/-! ### The parts of a step -/

section

variable (cfg : Config) (detect : Bool)

@[simp] theorem tick_dmas (w : World n v) (c : Fin n) : (w.tick detect c).dmas = w.dmas := by
  unfold tick
  split <;> rfl

@[simp] theorem tick_doing (w : World n v) (c : Fin n) : (w.tick detect c).doing = w.doing := by
  unfold tick
  split <;> rfl

@[simp] theorem tick_trace (w : World n v) (c : Fin n) : (w.tick detect c).trace = w.trace := by
  unfold tick
  split <;> rfl

@[simp] theorem tick_count (w : World n v) (c : Fin n) :
    (w.tick detect c).countByCore = w.countByCore := by
  unfold tick
  split <;> rfl

theorem exists_tick (dma : DMA n v) : ∃ clock, DMA.tick cfg dma = { dma with clock := clock } := by
  unfold DMA.tick
  split
  · exact ⟨_, rfl⟩
  · exact ⟨dma.clock, rfl⟩

/-- A signal whose amount is in range logs it and adds it to the count. -/
theorem exists_signal (w : World n v) (who : Signaler n) (sem : ℕ) (target : Fin n) {amount : ℕ}
    (clock : Clock n v) (hamount : (amount : ℤ) ≤ int32Max) :
    ∃ w', w.signal detect who sem target amount clock = some w' ∧ w'.dmas = w.dmas ∧
      w'.doing = w.doing ∧ w'.trace = w.trace ++ [.signaled who sem target amount clock] ∧
      w'.countByCore = Function.update w.countByCore sem (Function.update (w.countByCore sem)
        target (Int.bmod (w.countByCore sem target + amount) 4294967296)) := by
  refine ⟨_, if_neg (Int.not_lt.mpr hamount), ?_⟩
  unfold World.log mergeSem
  split <;> exact ⟨rfl, rfl, rfl, rfl⟩

end

/-! ### The steps -/

variable {cfg : Config} {c : Fin n} {task : Task} {back : Option (ℕ × ℕ)} {dma : DMA n v}

/-- A signal that is not out of range does not raise. -/
theorem Counted.amount_le (h : Counted w) {sem amount : ℕ} {target : Fin n}
    (hroom : w.countByCore sem target + amount ≤ int32Max) : (amount : ℤ) ≤ int32Max := by
  have := h.nonneg sem target
  omega

theorem Counted.congr (h : Counted w) (htrace : w'.trace = w.trace)
    (hcount : w'.countByCore = w.countByCore) : Counted w' := by
  constructor
  · intro sem c
    rw [hcount, htrace]
    exact h.count sem c
  · intro sem c
    rw [hcount]
    exact h.nonneg sem c
  · intro i c sem value hi
    rw [htrace] at hi ⊢
    exact h.waits i c sem value hi

/-- One more event changes the counts by what it is. -/
theorem Counted.snoc (h : Counted w) {e : Event n v} (htrace : w'.trace = w.trace ++ [e])
    (hcount : ∀ sem c, w'.countByCore sem c = w.countByCore sem c + e.change sem c)
    (hnonneg : ∀ sem c, 0 ≤ w'.countByCore sem c)
    (hwait : ∀ c sem (value : ℕ), e = .waited c sem value → value ≤ w.countByCore sem c) :
    Counted w' := by
  constructor
  · intro sem c
    rw [hcount, htrace, balance_append, h.count]
    simp [balance]
  · exact hnonneg
  · intro i c sem value hi
    rw [htrace] at hi ⊢
    rcases Nat.lt_trichotomy i w.trace.length with hlt | rfl | hgt
    · rw [List.getElem?_append_left hlt] at hi
      rw [List.take_append_of_le_length (Nat.le_of_lt hlt)]
      exact h.waits i c sem value hi
    · rw [List.getElem?_concat_length] at hi
      rw [List.take_left' rfl, ← h.count]
      exact hwait c sem value (Option.some.inj hi)
    · rw [List.getElem?_eq_none (by simp; omega)] at hi
      cases hi

/-- An event that is about no semaphore. -/
theorem Counted.log (h : Counted w) {e : Event n v} (hchange : ∀ sem c, e.change sem c = 0)
    (hwait : ∀ c sem value, e ≠ .waited c sem value) : Counted (w.log e) := by
  refine h.snoc rfl (fun sem c => ?_) h.nonneg fun c sem value he => absurd he (hwait c sem value)
  rw [hchange, Int.add_zero]
  rfl

/-- One more event, which changes one count only. -/
theorem Counted.update (h : Counted w) {e : Event n v} {sem : ℕ} {c : Fin n} {x : ℤ}
    (htrace : w'.trace = w.trace ++ [e])
    (hcount : w'.countByCore = Function.update w.countByCore sem
      (Function.update (w.countByCore sem) c (w.countByCore sem c + x)))
    (hchange : ∀ sem' c', e.change sem' c' = if sem = sem' ∧ c = c' then x else 0)
    (hnonneg : 0 ≤ w.countByCore sem c + x)
    (hwait : ∀ c sem (value : ℕ), e = .waited c sem value → value ≤ w.countByCore sem c) :
    Counted w' := by
  have hnew : ∀ sem' c', w'.countByCore sem' c' = w.countByCore sem' c' + e.change sem' c' := by
    intro sem' c'
    rw [hcount, hchange]
    by_cases hs : sem = sem'
    · subst hs
      rw [Function.update_self]
      by_cases hc : c = c'
      · subst hc
        simp
      · rw [Function.update_of_ne (Ne.symm hc)]
        simp [hc]
    · rw [Function.update_of_ne (Ne.symm hs)]
      simp [hs]
  refine h.snoc htrace hnew (fun sem' c' => ?_) hwait
  rw [hnew, hchange]
  split
  · next heq =>
      obtain ⟨rfl, rfl⟩ := heq
      exact hnonneg
  · have := h.nonneg sem' c'
    omega

/-- A signal whose sum is in range. -/
theorem Counted.signaled (h : Counted w) {who : Signaler n} {sem amount : ℕ} {target : Fin n}
    {clock : Clock n v} (hroom : w.countByCore sem target + amount ≤ int32Max)
    (htrace : w'.trace = w.trace ++ [.signaled who sem target amount clock])
    (hcount : w'.countByCore = Function.update w.countByCore sem (Function.update
      (w.countByCore sem) target (Int.bmod (w.countByCore sem target + amount) 4294967296))) :
    Counted w' := by
  have hold := h.nonneg sem target
  have hmod : Int.bmod (w.countByCore sem target + amount) 4294967296 =
      w.countByCore sem target + amount := by
    have hmax : (int32Max : ℤ) = 2147483647 := rfl
    rw [Int.bmod_def]
    omega
  rw [hmod] at hcount
  exact h.update htrace hcount (fun _ _ => rfl) (by omega) nofun

/-- A wait takes no more than there is. -/
theorem Counted.waited (h : Counted w) {c : Fin n} {sem value : ℕ}
    (hle : (value : ℤ) ≤ w.countByCore sem c)
    (htrace : w'.trace = w.trace ++ [.waited c sem value])
    (hcount : w'.countByCore = Function.update w.countByCore sem (Function.update
      (w.countByCore sem) c (w.countByCore sem c - value))) : Counted w' := by
  refine h.update htrace hcount (fun _ _ => rfl) (by omega) ?_
  rintro c' sem' value' he
  cases he
  exact hle

theorem Counted.tick (h : Counted w) (detect : Bool) (c : Fin n) : Counted (w.tick detect c) :=
  h.congr (tick_trace detect w c) (tick_count detect w c)

theorem Counted.beginOp (h : Counted w) (op : Op n v) : Counted (beginOp cfg w c op) := by
  have htick := h.tick cfg.detectRaces c
  cases op with
  | access => exact htick.log (fun _ _ => rfl) nofun
  | semaphoreSignal sem target inc => exact htick.congr rfl rfl
  | semaphoreWait sem value => exact htick.congr rfl rfl
  | dmaStart t =>
      have hadd := htick.log (e := .started c (w.tick cfg.detectRaces c).dmas.length
        ((w.tick cfg.detectRaces c).clocks c)) (fun _ _ => rfl) nofun
      exact hadd.congr rfl rfl
  | dmaWait sem size => exact htick.congr rfl rfl

theorem Counted.get (h : Counted w) : Counted (get cfg w c task back dma) := by
  have htick := h.tick cfg.detectRaces (DMA.tick cfg dma).src
  unfold World.get
  dsimp only
  split
  · refine Counted.log (htick.congr ?_ ?_) (fun _ _ => rfl) nofun <;> rfl
  · exact htick.congr rfl rfl

theorem Counted.store (h : Counted w) : Counted (store cfg w c task back dma) := by
  have htick := h.tick cfg.detectRaces (DMA.tick cfg dma).dst
  unfold World.store
  dsimp only
  split
  · refine Counted.log (htick.congr ?_ ?_) (fun _ _ => rfl) nofun <;> rfl
  · exact htick.congr rfl rfl

theorem Counted.signalSrc (h : Counted w)
    (hroom : ∀ sem ∈ dma.srcSem, w.countByCore sem dma.src + dma.size ≤ int32Max) :
    Counted (signalSrc cfg w c task back dma) := by
  obtain ⟨clock, hclock⟩ := exists_tick cfg dma
  simp only [World.signalSrc, hclock]
  cases hsem : dma.srcSem with
  | none => exact h.congr rfl rfl
  | some sem =>
      have hsum := hroom sem hsem
      obtain ⟨w₁, hw₁, -, -, htrace, hcount⟩ := exists_signal cfg.detectRaces w
        (.source task.dma) sem dma.src clock (h.amount_le hsum)
      simp only [hw₁]
      exact (h.signaled hsum htrace hcount).congr rfl rfl

theorem Counted.signalDst (h : Counted w)
    (hroom : w.countByCore dma.dstSem dma.dst + dma.size ≤ int32Max) :
    Counted (signalDst cfg w c task back dma) := by
  obtain ⟨clock, hclock⟩ := exists_tick cfg dma
  obtain ⟨w₁, hw₁, -, -, htrace, hcount⟩ := exists_signal cfg.detectRaces w
    (.destination task.dma) dma.dstSem dma.dst clock (h.amount_le hroom)
  simp only [World.signalDst, hclock, hw₁]
  exact (h.signaled hroom htrace hcount).congr rfl rfl

theorem Counted.acquireRead (h : Counted w) : Counted (w.acquireRead c task back dma) := by
  unfold World.acquireRead
  split
  · exact h
  split
  · exact h.congr rfl rfl
  · exact h.congr rfl rfl

theorem Counted.acquireWrite (h : Counted w) : Counted (w.acquireWrite c task back dma) := by
  unfold World.acquireWrite
  split
  · exact h
  split <;> exact h.congr rfl rfl

theorem Counted.runDma (h : Counted w) {step : DmaStep}
    (hc : w.doing c = .running step task back) (hroom : w.NoOverflow (.advance c)) :
    Counted (runDma cfg w c step task back) := by
  simp only [NoOverflow, hc] at hroom
  unfold World.runDma
  cases hd : w.dmas[task.dma]? with
  | none => exact h
  | some dma =>
      cases step with
      | acquireRead => exact h.acquireRead
      | get => exact h.get
      | signalSrc => exact h.signalSrc (hroom dma hd)
      | acquireWrite => exact h.acquireWrite
      | store => exact h.store
      | signalDst => exact h.signalDst (hroom dma hd)

theorem Counted.tryWait (h : Counted w) {hasTasks : Bool} {sem value : ℕ} :
    Counted (tryWait cfg w c hasTasks sem value) := by
  unfold World.tryWait
  split
  · next hle => exact h.waited hle rfl rfl
  split
  · exact h.congr rfl rfl
  · exact h

theorem Counted.advance (h : Counted w) (hroom : w.NoOverflow (.advance c)) :
    Counted (advance cfg w c) := by
  unfold World.advance
  split
  · exact h
  · next sem target inc clock hc =>
      simp only [NoOverflow, hc] at hroom
      obtain ⟨w₁, hw₁, -, -, htrace, hcount⟩ := exists_signal cfg.detectRaces w
        (.core c) sem target clock (h.amount_le hroom)
      rw [hw₁]
      exact (h.signaled hroom htrace hcount).congr rfl rfl
  · exact h.tryWait
  · exact h.congr rfl rfl
  · next sem value hc =>
      unfold popTask
      split
      · exact h.congr rfl rfl
      · next hpop =>
          split at hpop
          · cases hpop
          · cases hpop
            exact h.congr rfl rfl
  · exact h.congr rfl rfl
  · exact h.congr rfl rfl
  · next step task back hc => exact h.runDma hc hroom
  · exact h

end World

end JaxDas.Interpret
