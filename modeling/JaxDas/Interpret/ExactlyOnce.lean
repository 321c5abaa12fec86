import JaxDas.Interpret.Executed

/-!
# DMAs execute once

The parts of a DMA are those of its script, in order, none of them twice, and counts are
conserved, in every run in which no signal takes a count out of its type.
-/

namespace JaxDas.Interpret

variable {n v : ℕ}

/-- The event is no signal by `who`. -/
def Event.notBy (who : Signaler n) : Event n v → Bool
  | signaled who' _ _ _ _ => who' ≠ who
  | _ => true

namespace World

variable {w w' : World n v}

variable {cfg : Config} {c : Fin n} {task : Task} {back : Option (ℕ × ℕ)} {dma : DMA n v}

theorem executed_step (h : Executed w) (hcount : Counted w) {a : Action n v}
    (hroom : w.NoOverflow a) (hstep : Step cfg w a w') : Executed w' ∧ Counted w' := by
  cases hstep with
  | begin c op hidle => exact ⟨h.beginOp hidle op, hcount.beginOp op⟩
  | advance c => exact ⟨h.advance hcount hroom, hcount.advance hroom⟩
  | barrier low high hidle =>
      have hclocks : Executed (w.updateClocks low high) := h.congr rfl rfl fun d => rfl
      have hclocks' : Counted (w.updateClocks low high) := hcount.congr rfl rfl
      exact ⟨hclocks.log_other fun d => rfl, hclocks'.log (fun _ _ => rfl) nofun⟩

theorem executed_reached (h : Reached cfg NoOverflow w) : Executed w ∧ Counted w := by
  induction h with
  | init => exact ⟨executed_init, counted_init⟩
  | step _ hroom hstep ih => exact executed_step ih.1 ih.2 hroom hstep

/-- What a DMA has done is the beginning of its script. -/
theorem Executed.prefix_script (h : Executed w) {d : ℕ} (hd : w.dmas[d]? = some dma) :
    parts w.trace d <+: dma.script := by
  have hprog := h.progress d dma hd
  have hread : [Part.read] <+: dma.readScript := ⟨_, rfl⟩
  unfold Progress at hprog
  split at hprog
  · rw [hprog]
    unfold DMA.done
    split
    · exact List.nil_prefix
    · exact List.prefix_append _ _
    · exact List.prefix_rfl
  · unfold AtStep at hprog
    split at hprog
    · rw [hprog.2]
      exact List.nil_prefix
    · rw [hprog.2]
      exact hread.trans (List.prefix_append _ _)
    · rw [hprog.2]
      exact List.prefix_append _ _
    · rw [hprog.2]
      exact ⟨[.signalDestination dma.dstSem dma.dst dma.size], by simp [DMA.script]⟩
    · exact hprog.elim

/-- A started DMA has parts only. -/
theorem Executed.exists_dma (h : Executed w) {d : ℕ} {p : Part n} (hp : p ∈ parts w.trace d) :
    ∃ dma, w.dmas[d]? = some dma := by
  rcases Nat.lt_or_ge d w.dmas.length with hlt | hge
  · exact ⟨_, List.getElem?_eq_getElem hlt⟩
  · rw [h.fresh d hge] at hp
    exact absurd hp List.not_mem_nil

/-- What was needed for the count includes a signal by `who`. -/
theorem exists_signaled {tr : List (Event n v)} {sem value : ℕ} {who : Signaler n}
    (hle : value ≤ balance sem c tr)
    (hlt : balance sem c (tr.filter (Event.notBy who)) < value) :
    ∃ sem' target amount clock, .signaled who sem' target amount clock ∈ tr := by
  by_contra hnone
  have hall : ∀ e ∈ tr, Event.notBy who e = true := by
    intro e he
    unfold Event.notBy
    split
    · next who' sem' target amount clock =>
        refine decide_eq_true fun heq => hnone ⟨sem', target, amount, clock, ?_⟩
        rwa [← heq]
    · rfl
  rw [List.filter_eq_self.mpr hall] at hlt
  omega

theorem exists_lt_of_mem_take {tr : List (Event n v)} {i : ℕ} {e : Event n v}
    (he : e ∈ tr.take i) : ∃ k, k < i ∧ tr[k]? = some e := by
  obtain ⟨k, hk⟩ := List.getElem?_of_mem he
  have hlt : k < i := by
    have := (List.getElem?_eq_some_iff.mp hk).1
    rw [List.length_take] at this
    omega
  rw [List.getElem?_take_of_lt hlt] at hk
  exact ⟨k, hlt, hk⟩

theorem exists_read_of_mem {tr : List (Event n v)} {d : ℕ} (h : .read ∈ parts tr d) :
    ∃ clock, .read d clock ∈ tr := by
  obtain ⟨e, he, hpart⟩ := List.mem_filterMap.mp h
  unfold Event.part? at hpart
  split at hpart
  all_goals try split at hpart
  all_goals cases hpart
  next clock heq => exact ⟨clock, heq ▸ he⟩

theorem exists_wrote_of_mem {tr : List (Event n v)} {d : ℕ} (h : .write ∈ parts tr d) :
    ∃ clock, .wrote d clock ∈ tr := by
  obtain ⟨e, he, hpart⟩ := List.mem_filterMap.mp h
  unfold Event.part? at hpart
  split at hpart
  all_goals try split at hpart
  all_goals cases hpart
  next clock heq => exact ⟨clock, heq ▸ he⟩

end World

/-- DMAs execute once and semaphores conserve counts. -/
structure ExactlyOnce (w : World n v) : Prop where
  /-- A DMA reads, signals its source semaphore, writes and signals its destination semaphore,
  each at most once and in this order. -/
  executed : ∀ d dma, w.dmas[d]? = some dma → parts w.trace d <+: dma.script
  unstarted : ∀ d, w.dmas.length ≤ d → parts w.trace d = []
  nonneg : ∀ sem c, 0 ≤ w.countByCore sem c
  conserved : ∀ sem c, w.countByCore sem c = balance sem c w.trace
  /-- A wait that needs what a DMA has signaled comes after the read of the DMA, or after its
  write. -/
  afterRead : ∀ i c sem (value : ℕ) d, w.trace[i]? = some (.waited c sem value) →
    balance sem c ((w.trace.take i).filter (Event.notBy (.source d))) < value →
      ∃ k clock, k < i ∧ w.trace[k]? = some (.read d clock)
  afterWrite : ∀ i c sem (value : ℕ) d, w.trace[i]? = some (.waited c sem value) →
    balance sem c ((w.trace.take i).filter (Event.notBy (.destination d))) < value →
      ∃ k clock, k < i ∧ w.trace[k]? = some (.wrote d clock)

open World

/-- In a run in which no signal takes a count out of its type. -/
theorem exactlyOnce_reached {cfg : Config} {w : World n v} (h : Reached cfg NoOverflow w) :
    ExactlyOnce w := by
  obtain ⟨hexec, hcount⟩ := executed_reached h
  have hprefix : ∀ (i d : ℕ) (p : Part n), p ∈ parts (w.trace.take i) d →
      ∃ dma : DMA n v, parts (w.trace.take i) d <+: dma.script := by
    intro i d p hp
    have htake : parts (w.trace.take i) d <+: parts w.trace d :=
      (List.take_prefix i w.trace).filterMap _
    obtain ⟨dma, hd⟩ := hexec.exists_dma (htake.subset hp)
    exact ⟨dma, htake.trans (hexec.prefix_script hd)⟩
  refine ⟨fun d dma hd => hexec.prefix_script hd, hexec.fresh, hcount.nonneg, hcount.count,
    ?_, ?_⟩
  · intro i c sem value d hi hlt
    obtain ⟨sem', target, amount, clock, hmem⟩ := exists_signaled (hcount.waits i c sem value hi) hlt
    have hpart : .signalSource sem' target amount ∈ parts (w.trace.take i) d :=
      List.mem_filterMap.mpr ⟨_, hmem, if_pos rfl⟩
    obtain ⟨dma, hscript⟩ := hprefix i d _ hpart
    obtain ⟨clock', hread⟩ := exists_read_of_mem (read_mem_of_signal hscript hpart)
    obtain ⟨k, hk, hkread⟩ := exists_lt_of_mem_take hread
    exact ⟨k, clock', hk, hkread⟩
  · intro i c sem value d hi hlt
    obtain ⟨sem', target, amount, clock, hmem⟩ := exists_signaled (hcount.waits i c sem value hi) hlt
    have hpart : .signalDestination sem' target amount ∈ parts (w.trace.take i) d :=
      List.mem_filterMap.mpr ⟨_, hmem, if_pos rfl⟩
    obtain ⟨dma, hscript⟩ := hprefix i d _ hpart
    obtain ⟨clock', hwrote⟩ := exists_wrote_of_mem (write_mem_of_signal hscript hpart)
    obtain ⟨k, hk, hkwrote⟩ := exists_lt_of_mem_take hwrote
    exact ⟨k, clock', hk, hkwrote⟩

/-- A DMA to another core, and a wait of that core. -/
theorem exactlyOnce_remote : ∃ w : World 2 1, w.trace.length = 6 ∧ ExactlyOnce w := by
  have h₁ : Reached (n := 2) (v := 1) ⟨true, true⟩ NoOverflow _ :=
    .step (a := .begin 0 (.dmaStart ⟨1, some 3, 4, 8, true, true, 0⟩)) .init trivial
      (.begin 0 _ rfl)
  have h₂ := h₁.step (a := .advance 0) trivial (.advance 0)
  have h₃ := h₂.step (a := .advance 0) trivial (.advance 0)
  have h₄ := h₃.step (a := .advance 0) (fun dma hd sem hsem => by
    cases hd
    cases hsem
    decide) (.advance 0)
  have h₅ := h₄.step (a := .advance 0) trivial (.advance 0)
  have h₆ := h₅.step (a := .advance 0) trivial (.advance 0)
  have h₇ := h₆.step (a := .advance 0) (fun dma hd => by
    cases hd
    decide) (.advance 0)
  have h₈ := h₇.step (a := .begin 1 (.dmaWait 4 8)) trivial (.begin 1 _ rfl)
  have h₉ := h₈.step (a := .advance 1) trivial (.advance 1)
  exact ⟨_, rfl, exactlyOnce_reached h₉⟩

/-- Two signals take a count out of its type: it wraps. -/
theorem wrapped_count_negative :
    ∃ w : World 1 1, Reached ⟨true, true⟩ (fun _ _ => True) w ∧ ¬ ExactlyOnce w := by
  have h₁ : Reached (n := 1) (v := 1) ⟨true, true⟩ (fun _ _ => True) _ :=
    .step .init trivial (.begin 0 (.semaphoreSignal 0 0 2147483647) rfl)
  have h₂ := h₁.step trivial (.advance 0)
  have h₃ := h₂.step trivial (.begin 0 (.semaphoreSignal 0 0 1) rfl)
  have h₄ := h₃.step trivial (.advance 0)
  exact ⟨_, h₄, fun h => absurd (h.nonneg 0 0) (by decide)⟩

end JaxDas.Interpret
