import JaxDas.Interpret.Dma
import JaxDas.Lib.HappensBefore

/-!
# The clocks respect happens-before

The events of a core are ordered, and so are those of a DMA; a signal is before a wait for its
semaphore and core that completes later; a barrier is an event of all its cores.

The clock of each place is above the clocks of all that is known there (`Ordered`): at a core,
at a semaphore, at a DMA. A recorded event first increments an entry of the clock of its place,
so its clock is strictly above all that happened before it.
-/

namespace JaxDas.Interpret

variable {n v : ℕ}

namespace Event

/-- The clock that was recorded for the event. -/
def clock? : Event n v → Option (Clock n v)
  | access _ clock => some clock
  | signaled _ _ _ _ clock => some clock
  | waited _ _ _ => none
  | started _ _ clock => some clock
  | read _ clock => some clock
  | wrote _ clock => some clock
  | barrier _ _ => none

def OnCore (e : Event n v) (c : Fin n) : Prop :=
  match e with
  | access c' _ => c' = c
  | signaled who _ _ _ _ => who = .core c
  | waited c' _ _ => c' = c
  | started c' _ _ => c' = c
  | barrier low high => low ≤ c ∧ c < high
  | _ => False

def OfDma (e : Event n v) (d : ℕ) : Prop :=
  match e with
  | signaled who _ _ _ _ => who = .source d ∨ who = .destination d
  | started _ d' _ => d' = d
  | read d' _ => d' = d
  | wrote d' _ => d' = d
  | _ => False

def Signals (e : Event n v) (sem : ℕ) (c : Fin n) : Prop :=
  match e with
  | signaled _ sem' target _ _ => sem' = sem ∧ target = c
  | _ => False

def Waits (e : Event n v) (sem : ℕ) (c : Fin n) : Prop :=
  match e with
  | waited c' sem' _ => sem' = sem ∧ c' = c
  | _ => False

/-- The earlier event `a` is ordered before the later event `b`. -/
def Orders (a b : Event n v) : Prop :=
  (∃ c, a.OnCore c ∧ b.OnCore c) ∨ (∃ sem c, a.Signals sem c ∧ b.Waits sem c) ∨
    ∃ d, a.OfDma d ∧ b.OfDma d

end Event

open Event

/-- What is known at the events of the kind `P` has clocks of at most `clock`. -/
def Bounded (tr : List (Event n v)) (P : Event n v → Prop) (clock : Clock n v) : Prop :=
  ∀ i a ca, Knows Orders tr P i → tr[i]? = some a → a.clock? = some ca → ca ≤ clock

/-- What is known at the events of the kind `P` has clocks below `clock`. -/
def Below (tr : List (Event n v)) (P : Event n v → Prop) (clock : Clock n v) : Prop :=
  ∀ i a ca, Knows Orders tr P i → tr[i]? = some a → a.clock? = some ca →
    VectorClock.lt ca clock = true

section

variable {tr : List (Event n v)} {P Q : Event n v → Prop} {x y : Clock n v} {e : Event n v}

theorem Bounded.mono (h : Bounded tr P x) (hxy : x ≤ y) : Bounded tr P y :=
  fun i a ca hi ha hca => (h i a ca hi ha hca).trans hxy

theorem Bounded.imp (h : Bounded tr P x) (hQ : ∀ a, Q a → P a) : Bounded tr Q x :=
  fun i a ca hi ha hca => h i a ca (hi.imp hQ) ha hca

theorem Bounded.or (hP : Bounded tr P x) (hQ : Bounded tr Q x) :
    Bounded tr (fun a => P a ∨ Q a) x :=
  fun i a ca hi ha hca => hi.or.elim (fun hi => hP i a ca hi ha hca) fun hi => hQ i a ca hi ha hca

/-- Nothing is known where there is no event. -/
theorem Bounded.of_none (h : ∀ a ∈ tr, ¬ P a) : Bounded tr P x := by
  intro i a ca hi
  obtain ⟨k, b, hb, hP, -⟩ := hi
  exact absurd hP (h b (List.mem_of_getElem? hb))

theorem Bounded.below_inc (h : Bounded tr P x) {i : Fin (n + v)} (hi : x i ≠ int32Max) :
    Below tr P (VectorClock.inc x i) :=
  fun k a ca hk ha hca => VectorClock.lt_inc hi (h k a ca hk ha hca)

theorem Below.imp (h : Below tr P x) (hQ : ∀ a, Q a → P a) : Below tr Q x :=
  fun i a ca hi ha hca => h i a ca (hi.imp hQ) ha hca

theorem Below.bounded (h : Below tr P x) (hxy : x ≤ y) : Bounded tr P y :=
  fun i a ca hi ha hca => (VectorClock.le_of_lt (h i a ca hi ha hca)).trans hxy

/-- One more event: if it is of the kind, it and what is before it are bounded too. -/
theorem Bounded.snoc (h : Bounded tr P x)
    (he : P e → Bounded tr (Orders · e) x ∧ ∀ ce, e.clock? = some ce → ce ≤ x) :
    Bounded (tr ++ [e]) P x := by
  intro i a ca hi ha hca
  have hold : i < tr.length → tr[i]? = some a := by
    intro hlt
    rwa [List.getElem?_append_left hlt] at ha
  rcases knows_snoc.mp hi with hi | ⟨hP, rfl | hi⟩
  · exact h i a ca hi (hold hi.lt_length) hca
  · rw [List.getElem?_append_right (Nat.le_refl _), Nat.sub_self] at ha
    injection ha with ha
    exact (he hP).2 ca (ha ▸ hca)
  · exact (he hP).1 i a ca hi (hold hi.lt_length) hca

end

namespace World

/-- What the clock of a core is, or will be before it goes on. -/
def reach (w : World n v) (c : Fin n) : Clock n v :=
  match w.doing c with
  | .merging clock => VectorClock.update (w.clocks c) clock
  | _ => w.clocks c

/-- The semaphore's clock goes up only. -/
def SemLe : Option (Clock n v) → Option (Clock n v) → Prop
  | none, _ => True
  | some x, some y => x ≤ y
  | some _, none => False

/-- The core has taken a clock for a signal that it has not sent yet. -/
def Sends (w : World n v) (c : Fin n) (clock : Clock n v) : Prop :=
  ∃ sem target amount, w.doing c = .signaling sem target amount clock

/-- The clock of each place is above the clocks of what is known there. -/
structure Ordered (w : World n v) : Prop where
  cores : ∀ c, Bounded w.trace (·.OnCore c) (w.reach c)
  sems : ∀ sem c clock, w.semClocks sem c = some clock →
    Bounded w.trace (·.Signals sem c) clock
  unsignaled : ∀ sem c, w.semClocks sem c = none → ∀ a ∈ w.trace, ¬ a.Signals sem c
  dmas : ∀ d dma, w.dmas[d]? = some dma → Bounded w.trace (·.OfDma d) dma.clock
  fresh : ∀ d, w.dmas.length ≤ d → ∀ a ∈ w.trace, ¬ a.OfDma d
  sends : ∀ c clock, w.Sends c clock → Below w.trace (·.OnCore c) clock ∧ clock ≤ w.clocks c
  before : ∀ i j a b ca cb, Before Orders w.trace i j → w.trace[i]? = some a →
    w.trace[j]? = some b → a.clock? = some ca → b.clock? = some cb →
      VectorClock.lt ca cb = true

theorem clocks_le_reach (w : World n v) (c : Fin n) : w.clocks c ≤ w.reach c := by
  unfold reach
  split
  · exact VectorClock.le_update_left _ _
  · exact le_rfl

theorem ordered_init : Ordered (World.init n v) := by
  have hnone : ∀ P : Event n v → Prop, ∀ a ∈ (World.init n v).trace, ¬ P a :=
    fun _ a ha => absurd ha List.not_mem_nil
  refine ⟨fun c => .of_none (hnone _), ?_, fun sem c _ => hnone _, ?_, fun d _ => hnone _, ?_, ?_⟩
  · intro sem c clock h
    cases h
  · intro d dma h
    cases h
  · intro c clock h
    obtain ⟨_, _, _, h⟩ := h
    cases h
  · intro i j a b ca cb h
    exact absurd h.lt_length (Nat.not_lt_zero _)

/-- Clocks that go up keep what they are above. -/
theorem Ordered.mono {w w' : World n v} (h : Ordered w) (htrace : w'.trace = w.trace)
    (hreach : ∀ c, w.reach c ≤ w'.reach c)
    (hsem : ∀ sem c, SemLe (w.semClocks sem c) (w'.semClocks sem c))
    (hdma : ∀ d dma', w'.dmas[d]? = some dma' →
      (∃ dma, w.dmas[d]? = some dma ∧ dma.clock ≤ dma'.clock) ∨ w.dmas.length ≤ d)
    (hlen : w.dmas.length ≤ w'.dmas.length)
    (hsends : ∀ c clock, w'.Sends c clock →
      Below w.trace (·.OnCore c) clock ∧ clock ≤ w'.clocks c) : Ordered w' := by
  constructor
  · intro c
    rw [htrace]
    exact (h.cores c).mono (hreach c)
  · intro sem c clock hclock
    rw [htrace]
    have hle := hsem sem c
    rw [hclock] at hle
    cases hold : w.semClocks sem c with
    | none => exact .of_none (h.unsignaled sem c hold)
    | some clock' =>
        rw [hold] at hle
        exact (h.sems sem c clock' hold).mono hle
  · intro sem c hnone
    rw [htrace]
    have hle := hsem sem c
    rw [hnone] at hle
    cases hold : w.semClocks sem c with
    | none => exact h.unsignaled sem c hold
    | some clock' => rw [hold] at hle; exact hle.elim
  · intro d dma' hd
    rw [htrace]
    obtain ⟨dma, hold, hle⟩ | hlen := hdma d dma' hd
    · exact (h.dmas d dma hold).mono hle
    · exact .of_none (h.fresh d hlen)
  · intro d hd
    rw [htrace]
    exact h.fresh d (hlen.trans hd)
  · intro c clock hc
    rw [htrace]
    exact hsends c clock hc
  · rw [htrace]
    exact h.before

/-- An event is logged whose places know of all that orders it. -/
theorem Ordered.log {w : World n v} (h : Ordered w) {e : Event n v}
    (hbelow : ∀ ce, e.clock? = some ce → Below w.trace (Orders · e) ce)
    (hcore : ∀ c, e.OnCore c → (∀ clock, ¬ w.Sends c clock) ∧
      Bounded w.trace (Orders · e) (w.reach c) ∧ ∀ ce, e.clock? = some ce → ce ≤ w.reach c)
    (hsem : ∀ sem c, e.Signals sem c → ∃ clock, w.semClocks sem c = some clock ∧
      Bounded w.trace (Orders · e) clock ∧ ∀ ce, e.clock? = some ce → ce ≤ clock)
    (hdma : ∀ d, e.OfDma d → ∃ dma, w.dmas[d]? = some dma ∧
      Bounded w.trace (Orders · e) dma.clock ∧ ∀ ce, e.clock? = some ce → ce ≤ dma.clock) :
    Ordered (w.log e) := by
  have hmem : ∀ a ∈ (w.log e).trace, a ∈ w.trace ∨ a = e := by
    intro a ha
    rw [World.log, List.mem_append, List.mem_singleton] at ha
    exact ha
  constructor
  · intro c
    exact (h.cores c).snoc fun hc => (hcore c hc).2
  · intro sem c clock hclock
    refine (h.sems sem c clock hclock).snoc fun he => ?_
    obtain ⟨clock', heq, hb⟩ := hsem sem c he
    rw [hclock.symm.trans heq |> Option.some.inj]
    exact hb
  · intro sem c hnone a ha
    obtain ha | rfl := hmem a ha
    · exact h.unsignaled sem c hnone a ha
    · intro he
      obtain ⟨clock, heq, -⟩ := hsem sem c he
      exact absurd (hnone.symm.trans heq) (by simp)
  · intro d dma hd
    refine (h.dmas d dma hd).snoc fun he => ?_
    obtain ⟨dma', heq, hb⟩ := hdma d he
    rw [hd.symm.trans heq |> Option.some.inj]
    exact hb
  · intro d hd a ha
    obtain ha | rfl := hmem a ha
    · exact h.fresh d hd a ha
    · intro he
      obtain ⟨dma, heq, -⟩ := hdma d he
      have := (List.getElem?_eq_some_iff.mp heq).1
      exact absurd hd (by simpa [World.log] using this)
  · intro c clock hc
    obtain ⟨hbel, hle⟩ := h.sends c clock hc
    refine ⟨?_, hle⟩
    intro i a ca hi ha hca
    rcases knows_snoc.mp hi with hi | ⟨hon, -⟩
    · have ha' : w.trace[i]? = some a := by
        rw [World.log, List.getElem?_append_left hi.lt_length] at ha
        exact ha
      exact hbel i a ca hi ha' hca
    · exact absurd hc ((hcore c hon).1 clock)
  · intro i j a b ca cb hij ha hb hca hcb
    have hj := hij.lt_length
    rw [World.log, List.length_append, List.length_singleton] at hj
    have hi := hij.lt
    have ha' : w.trace[i]? = some a := by
      rw [World.log, List.getElem?_append_left (by omega)] at ha
      exact ha
    by_cases hlt : j < w.trace.length
    · have hb' : w.trace[j]? = some b := by
        rw [World.log, List.getElem?_append_left hlt] at hb
        exact hb
      exact h.before i j a b ca cb ((before_snoc_of_lt hlt).mp hij) ha' hb' hca hcb
    · obtain rfl : j = w.trace.length := by omega
      rw [World.log, List.getElem?_append_right (Nat.le_refl _), Nat.sub_self] at hb
      injection hb with hb
      exact hbelow cb (hb ▸ hcb) i a ca (before_snoc.mp hij) ha' hca

/-! ### The parts of a step -/

variable {w w' : World n v}

theorem reach_le_reach {c : Fin n} (hdoing : w'.doing c = w.doing c)
    (hclocks : w.clocks c ≤ w'.clocks c) : w.reach c ≤ w'.reach c := by
  unfold reach
  rw [hdoing]
  split
  · exact VectorClock.update_le (hclocks.trans (VectorClock.le_update_left _ _))
      (VectorClock.le_update_right _ _)
  · exact hclocks

theorem SemLe.refl (x : Option (Clock n v)) : SemLe x x := by
  cases x with
  | none => trivial
  | some x => exact le_rfl (a := x)

/-- The clocks of cores go up; nothing else is of importance for the order. -/
theorem Ordered.clocks_le (h : Ordered w) (htrace : w'.trace = w.trace)
    (hclocks : ∀ c, w.clocks c ≤ w'.clocks c) (hsem : w'.semClocks = w.semClocks)
    (hdmas : w'.dmas = w.dmas) (hdoing : w'.doing = w.doing) : Ordered w' := by
  refine h.mono htrace (fun c => reach_le_reach (congrFun hdoing c) (hclocks c)) ?_ ?_ ?_ ?_
  · intro sem c
    rw [hsem]
    exact .refl _
  · intro d dma hd
    rw [hdmas] at hd
    exact .inl ⟨dma, hd, le_rfl⟩
  · rw [hdmas]
  · intro c clock hc
    unfold Sends at hc
    rw [hdoing] at hc
    obtain ⟨hbelow, hle⟩ := h.sends c clock hc
    exact ⟨hbelow, hle.trans (hclocks c)⟩

theorem tick_self (w : World n v) (c : Fin n) :
    (w.tick true c).clocks c = VectorClock.inc (w.clocks c) (Fin.castAdd v c) :=
  Function.update_self _ _ _

theorem le_tick (w : World n v) {c : Fin n} (hroom : w.clocks c (Fin.castAdd v c) ≠ int32Max)
    (c' : Fin n) : w.clocks c' ≤ (w.tick true c).clocks c' := by
  by_cases hc : c' = c
  · subst hc
    rw [tick_self]
    exact VectorClock.le_inc hroom
  · have hsame : (w.tick true c).clocks c' = w.clocks c' := Function.update_of_ne hc _ _
    rw [hsame]

theorem Ordered.tick (h : Ordered w) {c : Fin n}
    (hroom : w.clocks c (Fin.castAdd v c) ≠ int32Max) : Ordered (w.tick true c) :=
  h.clocks_le rfl (le_tick w hroom) rfl rfl rfl

theorem Ordered.merge (h : Ordered w) (c : Fin n) (clock : Clock n v) :
    Ordered (w.merge c clock) := by
  refine h.clocks_le rfl (fun c' => ?_) rfl rfl rfl
  by_cases hc : c' = c
  · subst hc
    have hself : (w.merge c' clock).clocks c' = VectorClock.update (w.clocks c') clock :=
      Function.update_self _ _ _
    rw [hself]
    exact VectorClock.le_update_left _ _
  · have hsame : (w.merge c clock).clocks c' = w.clocks c' := Function.update_of_ne hc _ _
    rw [hsame]

/-- A core goes on once its clock has what was to be merged. -/
theorem Ordered.goto (h : Ordered w) {c : Fin n} {d : Doing n v}
    (hmerged : w.reach c ≤ w.clocks c)
    (hsends : ∀ sem target amount clock, d = .signaling sem target amount clock →
      Below w.trace (·.OnCore c) clock ∧ clock ≤ w.clocks c) : Ordered (w.goto c d) := by
  refine h.mono rfl (fun c' => ?_) (fun _ _ => .refl _) (fun d dma hd => .inl ⟨dma, hd, le_rfl⟩)
    (Nat.le_refl _) ?_
  · by_cases hc : c' = c
    · subst hc
      exact hmerged.trans (clocks_le_reach (w.goto c' d) c')
    · exact reach_le_reach (goto_of_ne w d hc) le_rfl
  · rintro c' clock ⟨sem, target, amount, hc'⟩
    by_cases hc : c' = c
    · subst hc
      rw [goto_self] at hc'
      exact hsends sem target amount clock hc'
    · rw [goto_of_ne w d hc] at hc'
      exact h.sends c' clock ⟨sem, target, amount, hc'⟩

/-- Where nothing is to be merged. -/
theorem reach_eq {c : Fin n} (h : ∀ clock, w.doing c ≠ .merging clock) :
    w.reach c = w.clocks c := by
  unfold reach
  split
  · next clock hc => exact absurd hc (h clock)
  · rfl

theorem Ordered.setDma (h : Ordered w) {d : ℕ} {dma : DMA n v} (hd : w.dmas[d]? = some dma)
    (dma' : DMA n v) (hle : dma.clock ≤ dma'.clock) : Ordered (w.setDma d dma') := by
  refine h.mono rfl (fun c => reach_le_reach rfl le_rfl) (fun _ _ => .refl _) ?_
    (Nat.le_of_eq List.length_set.symm) fun c clock hc => h.sends c clock hc
  intro d' x hx
  by_cases hdd : d' = d
  · subst hdd
    have hlt := (List.getElem?_eq_some_iff.mp hd).1
    rw [World.setDma, List.getElem?_set_self hlt] at hx
    injection hx with hx
    exact .inl ⟨dma, hd, hx ▸ hle⟩
  · rw [World.setDma, List.getElem?_set_ne (Ne.symm hdd)] at hx
    exact .inl ⟨x, hx, le_rfl⟩

theorem mergeSem_self (w : World n v) (sem : ℕ) (c : Fin n) (clock : Clock n v) :
    ∃ x, (w.mergeSem true sem c clock).semClocks sem c = some x ∧ clock ≤ x := by
  cases hold : w.semClocks sem c with
  | none => exact ⟨clock, by simp [World.mergeSem, hold], le_rfl⟩
  | some x =>
      exact ⟨VectorClock.update x clock, by simp [World.mergeSem, hold],
        VectorClock.le_update_right _ _⟩

theorem Ordered.mergeSem (h : Ordered w) (sem : ℕ) (c : Fin n) (clock : Clock n v) :
    Ordered (w.mergeSem true sem c clock) := by
  refine h.mono rfl (fun c => reach_le_reach rfl le_rfl) ?_
    (fun d dma hd => .inl ⟨dma, hd, le_rfl⟩) (Nat.le_refl _) fun c clock hc => h.sends c clock hc
  intro sem' c'
  by_cases hs : sem' = sem ∧ c' = c
  · obtain ⟨rfl, rfl⟩ := hs
    cases hold : w.semClocks sem' c' with
    | none => trivial
    | some x =>
        have hnew : (w.mergeSem true sem' c' clock).semClocks sem' c' =
            some (VectorClock.update x clock) := by
          simp [World.mergeSem, hold]
        rw [hnew]
        exact VectorClock.le_update_left x clock
  · have hsame : (w.mergeSem true sem c clock).semClocks sem' c' = w.semClocks sem' c' := by
      simp only [World.mergeSem, if_true]
      by_cases hs' : sem' = sem
      · subst hs'
        rw [Function.update_self, Function.update_of_ne fun hc => hs ⟨rfl, hc⟩]
      · rw [Function.update_of_ne hs']
    rw [hsame]
    exact .refl _

theorem Ordered.setCount (h : Ordered w) (sem : ℕ) (c : Fin n) (count : ℤ) :
    Ordered (w.setCount sem c count) :=
  h.clocks_le rfl (fun _ => le_rfl) rfl rfl rfl

theorem Ordered.setTasks (h : Ordered w) (queue : ℕ × Fin n) (tasks : List Task) :
    Ordered (w.setTasks queue tasks) :=
  h.clocks_le rfl (fun _ => le_rfl) rfl rfl rfl

end World

end JaxDas.Interpret
