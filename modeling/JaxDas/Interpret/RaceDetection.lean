import JaxDas.Interpret.Ranges
import JaxDas.Interpret.VectorClock
import Mathlib.Data.List.Induction

/-!
# The race detector

Every access registers itself, under the lock, in the list of the reads or of the writes of
its buffer, and remembers how long the lists are that it has to look through. It looks
through them without the lock, while other accesses register themselves: the lists only
grow.

Of two accesses one registers first, and the other one has it in the part that it looks
through (`Covered`). So a race is found whatever the order of the steps is, wherever the
comparison of the two ranges is right (`racesFound_iff`).
-/

namespace JaxDas.Interpret

/-- `check_read` or `check_write` -/
inductive Kind
  | read
  | write
  deriving DecidableEq

/-- The arguments of a call, without the names that are only printed. -/
structure Access (κ : Type) (n : ℕ) where
  kind : Kind
  clock : VectorClock n
  bufferKey : κ
  rnge : List Index

/-- What a call does next. Each of these is one step: a section under the lock, or the
comparison with one entry of a list. -/
inductive Phase
  | notCalled
  | scanWrites (i numWrites numReads : ℕ)
  | raceWithWrite (numReads : ℕ)
  | scanReads (i numReads : ℕ)
  | raceWithRead
  | returned
  | raised
  deriving DecidableEq

/-- The calls have names of the type `C`; an entry of a list is the call that appended it. -/
structure RaceDetectionState (κ C : Type) where
  reads : κ → List C
  writes : κ → List C
  racesFound : Bool
  phase : C → Phase

namespace RaceDetectionState

/-- No call is made yet. -/
def init {κ C : Type} : RaceDetectionState κ C :=
  ⟨fun _ => [], fun _ => [], false, fun _ => .notCalled⟩

end RaceDetectionState

variable {κ C : Type} {n : ℕ}

/-- The body of a loop over the entries: is there a race with this one? -/
def examine (a entry : Access κ n) : Option Bool :=
  if VectorClock.ordered entry.clock a.clock then some false
  else rangesOverlap a.rnge entry.rnge

/-- The entry `list[i]`, and where the call goes on: in the loop, with the race, or nowhere. -/
def examineAt (access : C → Access κ n) (c : C) (list : List C) (i : ℕ) (next race : Phase) :
    Phase :=
  match list[i]? with
  | none => .raised
  | some entry =>
      match examine (access c) (access entry) with
      | none => .raised
      | some true => race
      | some false => next

namespace RaceDetectionState

section

variable [DecidableEq C]

/-- The call `c` goes on at `p`. -/
def goto (s : RaceDetectionState κ C) (c : C) (p : Phase) : RaceDetectionState κ C :=
  { s with phase := Function.update s.phase c p }

@[simp] theorem goto_writes (s : RaceDetectionState κ C) (c : C) (p : Phase) :
    (s.goto c p).writes = s.writes := rfl

@[simp] theorem goto_reads (s : RaceDetectionState κ C) (c : C) (p : Phase) :
    (s.goto c p).reads = s.reads := rfl

@[simp] theorem goto_racesFound (s : RaceDetectionState κ C) (c : C) (p : Phase) :
    (s.goto c p).racesFound = s.racesFound := rfl

@[simp] theorem goto_phase_self (s : RaceDetectionState κ C) (c : C) (p : Phase) :
    (s.goto c p).phase c = p :=
  Function.update_self _ _ _

theorem goto_phase_of_ne (s : RaceDetectionState κ C) {c d : C} (p : Phase) (h : d ≠ c) :
    (s.goto c p).phase d = s.phase d :=
  Function.update_of_ne h _ _

theorem goto_phase_eq (s : RaceDetectionState κ C) (c : C) :
    s.goto c (s.phase c) = s := by
  unfold goto
  rw [Function.update_eq_self]

end

variable [DecidableEq κ] [DecidableEq C]

/-- The section of `check_read` that registers the access. -/
def checkRead (s : RaceDetectionState κ C) (c : C) (key : κ) : RaceDetectionState κ C :=
  { s with reads := Function.update s.reads key (s.reads key ++ [c]) }.goto c
    (.scanWrites 0 (s.writes key).length 0)

/-- The section of `check_write` that registers the access. -/
def checkWrite (s : RaceDetectionState κ C) (c : C) (key : κ) : RaceDetectionState κ C :=
  { s with writes := Function.update s.writes key (s.writes key ++ [c]) }.goto c
    (.scanWrites 0 (s.writes key).length (s.reads key).length)

/-- The next step of the call `c`. A read has no reads to look through. -/
def advance (access : C → Access κ n) (s : RaceDetectionState κ C) (c : C) :
    RaceDetectionState κ C :=
  let a := access c
  match s.phase c with
  | .notCalled =>
      match a.kind with
      | .read => s.checkRead c a.bufferKey
      | .write => s.checkWrite c a.bufferKey
  | .scanWrites i numWrites numReads =>
      if i < numWrites then
        s.goto c (examineAt access c (s.writes a.bufferKey) i
          (.scanWrites (i + 1) numWrites numReads) (.raceWithWrite numReads))
      else s.goto c (.scanReads 0 numReads)
  | .raceWithWrite numReads => { s with racesFound := true }.goto c (.scanReads 0 numReads)
  | .scanReads i numReads =>
      if i < numReads then
        s.goto c (examineAt access c (s.reads a.bufferKey) i
          (.scanReads (i + 1) numReads) .raceWithRead)
      else s.goto c .returned
  | .raceWithRead => { s with racesFound := true }.goto c .returned
  | .returned => s
  | .raised => s

/-- The calls take their steps in the order of the schedule. -/
def run (access : C → Access κ n) (schedule : List C) : RaceDetectionState κ C :=
  schedule.foldl (advance access) init

end RaceDetectionState

/-- Two accesses of one buffer, at least one of which writes. -/
def Conflict (a b : Access κ n) : Prop :=
  a.bufferKey = b.bufferKey ∧ (a.kind = .write ∨ b.kind = .write)

/-- The clocks are in no order, and the ranges have a common element. -/
structure Race (a b : Access κ n) : Prop where
  conflict : Conflict a b
  unordered : VectorClock.ordered a.clock b.clock = false
  common : CommonElement a.rnge b.rnge

theorem Conflict.symm {a b : Access κ n} (h : Conflict a b) : Conflict b a :=
  ⟨h.1.symm, h.2.symm⟩

theorem Race.symm {a b : Access κ n} (h : Race a b) : Race b a :=
  ⟨h.conflict.symm, by rw [VectorClock.ordered_comm]; exact h.unordered, h.common.symm⟩

/-- The comparison is right for every two accesses that it may be made for. -/
def AllComparable (access : C → Access κ n) : Prop :=
  ∀ a b, a ≠ b → Conflict (access a) (access b) →
    VectorClock.ordered (access a).clock (access b).clock = false →
    Comparable (access a).rnge (access b).rnge

/-- One comparison. -/
theorem examine_spec {access : C → Access κ n} (hcmp : AllComparable access) {a b : C}
    (hne : a ≠ b) (hconf : Conflict (access a) (access b)) :
    ∃ found, examine (access a) (access b) = some found ∧
      (found = true ↔ Race (access a) (access b)) := by
  unfold examine
  rw [VectorClock.ordered_comm]
  rcases hord : VectorClock.ordered (access a).clock (access b).clock with _ | _
  · obtain ⟨found, hfound, hiff⟩ := (rangesOverlap_iff _ _).mpr (hcmp a b hne hconf hord)
    exact ⟨found, hfound, hiff.trans ⟨fun h => ⟨hconf, hord, h⟩, fun h => h.common⟩⟩
  · refine ⟨false, rfl, fun h => (by cases h), fun h => ?_⟩
    have := h.unordered
    rw [hord] at this
    cases this

namespace RaceDetectionState

/-! ### What a call has still to examine -/

/-- The entries that a call in this phase has still to examine, of the given lists. -/
def pendingIn (writes reads : List C) : Phase → List C
  | .scanWrites i numWrites numReads => (writes.take numWrites).drop i ++ reads.take numReads
  | .raceWithWrite numReads => reads.take numReads
  | .scanReads i numReads => (reads.take numReads).drop i
  | _ => []

/-- The entries that `c` has still to examine. -/
def pending (access : C → Access κ n) (s : RaceDetectionState κ C) (c : C) : List C :=
  pendingIn (s.writes (access c).bufferKey) (s.reads (access c).bufferKey) (s.phase c)

/-- The lists are as long as the call takes them to be. -/
def InBounds (writes reads : List C) : Phase → Prop
  | .scanWrites _ numWrites numReads => numWrites ≤ writes.length ∧ numReads ≤ reads.length
  | .raceWithWrite numReads => numReads ≤ reads.length
  | .scanReads _ numReads => numReads ≤ reads.length
  | _ => True

/-- The call has seen a race that it has not recorded yet. -/
def Racing : Phase → Prop
  | .raceWithWrite _ => True
  | .raceWithRead => True
  | _ => False

/-- A race of `c` with `entry` is, or will be, found by `c`, unless another one is. -/
def Covered (access : C → Access κ n) (s : RaceDetectionState κ C) (c entry : C) : Prop :=
  s.racesFound = true ∨ Racing (s.phase c) ∨ ¬ Race (access c) (access entry) ∨
    entry ∈ pending access s c

/-- What holds in every state. -/
structure Exact (access : C → Access κ n) (s : RaceDetectionState κ C) : Prop where
  writes : ∀ k c, c ∈ s.writes k ↔
    s.phase c ≠ .notCalled ∧ (access c).kind = .write ∧ (access c).bufferKey = k
  reads : ∀ k c, c ∈ s.reads k ↔
    s.phase c ≠ .notCalled ∧ (access c).kind = .read ∧ (access c).bufferKey = k
  bounds : ∀ c,
    InBounds (s.writes (access c).bufferKey) (s.reads (access c).bufferKey) (s.phase c)
  conflict : ∀ c, ∀ e ∈ pending access s c, c ≠ e ∧ Conflict (access c) (access e)
  covered : ∀ a b, a ≠ b → s.phase a ≠ .notCalled → s.phase b ≠ .notCalled →
    Conflict (access a) (access b) → Covered access s a b ∨ Covered access s b a
  sound : (s.racesFound = true ∨ ∃ c, Racing (s.phase c)) →
    ∃ a b, a ≠ b ∧ Race (access a) (access b)
  raised : ∀ c, s.phase c ≠ .raised

/-- What a step of a call that has registered itself does: it goes on without looking at an
entry, it has examined one, it sees a race, or it records one. -/
inductive Moved (access : C → Access κ n) (s s' : RaceDetectionState κ C) (c : C) : Prop
  | on (hfound : s'.racesFound = s.racesFound) (hracing : ¬ Racing (s.phase c)) (hracing' : ¬ Racing (s'.phase c))
      (hpending : pending access s' c = pending access s c)
  | passed (e : C) (hfound : s'.racesFound = s.racesFound) (hracing : ¬ Racing (s.phase c))
      (hracing' : ¬ Racing (s'.phase c))
      (hpending : pending access s c = e :: pending access s' c)
      (hexamine : examine (access c) (access e) ≠ some true)
  | race (e : C) (rest : List C) (hfound : s'.racesFound = s.racesFound)
      (hpending : pending access s c = e :: rest)
      (hexamine : examine (access c) (access e) = some true) (hracing : Racing (s'.phase c))
      (hsub : pending access s' c ⊆ rest)
  | found (hracing : Racing (s.phase c)) (hfound : s'.racesFound = true) (hracing' : ¬ Racing (s'.phase c))
      (hpending : pending access s' c = pending access s c)

/-! ### One step -/

/-- The loop looks at the first of the entries that are left. -/
theorem examineAt_spec {access : C → Access κ n} (hcmp : AllComparable access) {c : C}
    {list : List C} {i num : ℕ} (hi : i < num) (hnum : num ≤ list.length)
    (hconf : ∀ e ∈ (list.take num).drop i, c ≠ e ∧ Conflict (access c) (access e))
    (next race : Phase) :
    ∃ e found, (list.take num).drop i = e :: (list.take num).drop (i + 1) ∧
      examine (access c) (access e) = some found ∧
      examineAt access c list i next race = if found then race else next := by
  have hlt : i < (list.take num).length := by rw [List.length_take]; omega
  have hcons := List.drop_eq_getElem_cons hlt
  have hget : list[i]? = some (list.take num)[i] := by
    rw [List.getElem_take, List.getElem?_eq_getElem]
  obtain ⟨hne, hc⟩ := hconf (list.take num)[i] (by rw [hcons]; exact List.mem_cons_self)
  obtain ⟨found, hfound, -⟩ := examine_spec hcmp hne hc
  refine ⟨_, found, hcons, hfound, ?_⟩
  rw [examineAt, hget]
  simp only [hfound]
  cases found <;> rfl

theorem Moved.pending_subset {access : C → Access κ n} {s s' : RaceDetectionState κ C} {c : C}
    (h : Moved access s s' c) : pending access s' c ⊆ pending access s c := by
  cases h with
  | on _ _ _ hp => rw [hp]; exact List.Subset.refl _
  | passed e _ _ _ hp _ => rw [hp]; exact List.subset_cons_self _ _
  | race e rest _ hp _ _ hsub => rw [hp]; exact List.subset_cons_of_subset _ hsub
  | found _ _ _ hp => rw [hp]; exact List.Subset.refl _

/-- What is covered stays covered. -/
theorem Moved.covered {access : C → Access κ n} (hcmp : AllComparable access)
    {s s' : RaceDetectionState κ C} {c e : C} (h : Moved access s s' c) (hne : c ≠ e)
    (hconf : Conflict (access c) (access e)) (hcov : Covered access s c e) :
    Covered access s' c e := by
  cases h with
  | on hfound hracing _ hp =>
      unfold Covered
      rw [hfound, hp]
      exact hcov.imp_right fun h => .inr (h.resolve_left hracing)
  | passed e' hfound hracing _ hp hex =>
      obtain hf | hr | hrace | hmem := hcov
      · exact .inl (hfound.trans hf)
      · exact absurd hr hracing
      · exact .inr (.inr (.inl hrace))
      · rw [hp] at hmem
        cases hmem with
        | head =>
            obtain ⟨found, hval, hiff⟩ := examine_spec hcmp hne hconf
            refine .inr (.inr (.inl fun hrace => hex ?_))
            rw [hval, hiff.mpr hrace]
        | tail _ hmem => exact .inr (.inr (.inr hmem))
  | race e' rest _ _ _ hracing _ => exact .inr (.inl hracing)
  | found _ hfound _ _ => exact .inl hfound

variable [DecidableEq κ] [DecidableEq C]

/-- A step of a call that has registered itself changes no list. -/
theorem advance_called {access : C → Access κ n} (hcmp : AllComparable access)
    {s : RaceDetectionState κ C} (h : Exact access s) {c : C} (hc : s.phase c ≠ .notCalled) :
    ∃ x p, advance access s c = { s with racesFound := x }.goto c p ∧ p ≠ .notCalled ∧
      p ≠ .raised ∧ InBounds (s.writes (access c).bufferKey) (s.reads (access c).bufferKey) p ∧
      Moved access s ({ s with racesFound := x }.goto c p) c := by
  have hbounds := h.bounds c
  have hconf := h.conflict c
  unfold advance
  rcases hphase : s.phase c with _ | ⟨i, nw, nr⟩ | nr | ⟨i, nr⟩ | _ | _ | _
  · exact absurd hphase hc
  · rw [hphase] at hbounds
    simp only [pending, hphase, pendingIn] at hconf
    by_cases hi : i < nw
    · obtain ⟨e, found, hcons, hex, hat⟩ := examineAt_spec hcmp hi hbounds.1
        (fun e he => hconf e (List.mem_append_left _ he))
        (.scanWrites (i + 1) nw nr) (.raceWithWrite nr)
      simp only [if_pos hi, hat]
      refine ⟨s.racesFound, _, rfl, ?_⟩
      cases found with
      | false =>
          refine ⟨by simp, by simp, hbounds, .passed e rfl ?_ ?_ ?_ (by simp [hex])⟩
          · simp [hphase, Racing]
          · simp [Racing]
          · simp [pending, hphase, pendingIn, hcons]
      | true =>
          refine ⟨by simp, by simp, hbounds.2,
            .race e ((s.writes (access c).bufferKey |>.take nw).drop (i + 1) ++
              (s.reads (access c).bufferKey).take nr) rfl ?_ hex (by simp [Racing]) ?_⟩
          · simp [pending, hphase, pendingIn, hcons]
          · simp [pending, pendingIn]
    · simp only [if_neg hi]
      refine ⟨s.racesFound, _, rfl, by simp, by simp, hbounds.2, .on rfl ?_ ?_ ?_⟩
      · simp [hphase, Racing]
      · simp [Racing]
      · have hnil : (s.writes (access c).bufferKey |>.take nw).drop i = [] :=
          List.drop_eq_nil_of_le (by rw [List.length_take]; omega)
        simp [pending, hphase, pendingIn, hnil]
  · rw [hphase] at hbounds
    refine ⟨true, _, rfl, by simp, by simp, hbounds, .found ?_ rfl ?_ ?_⟩
    · simp [hphase, Racing]
    · simp [Racing]
    · simp [pending, hphase, pendingIn]
  · rw [hphase] at hbounds
    simp only [pending, hphase, pendingIn] at hconf
    by_cases hi : i < nr
    · obtain ⟨e, found, hcons, hex, hat⟩ := examineAt_spec hcmp hi hbounds hconf
        (.scanReads (i + 1) nr) .raceWithRead
      simp only [if_pos hi, hat]
      refine ⟨s.racesFound, _, rfl, ?_⟩
      cases found with
      | false =>
          refine ⟨by simp, by simp, hbounds, .passed e rfl ?_ ?_ ?_ (by simp [hex])⟩
          · simp [hphase, Racing]
          · simp [Racing]
          · simp [pending, hphase, pendingIn, hcons]
      | true =>
          refine ⟨by simp, by simp, trivial,
            .race e ((s.reads (access c).bufferKey |>.take nr).drop (i + 1)) rfl ?_ hex
              (by simp [Racing]) ?_⟩
          · simp [pending, hphase, pendingIn, hcons]
          · simp [pending, pendingIn]
    · simp only [if_neg hi]
      refine ⟨s.racesFound, _, rfl, by simp, by simp, trivial, .on rfl ?_ ?_ ?_⟩
      · simp [hphase, Racing]
      · simp [Racing]
      · have hnil : (s.reads (access c).bufferKey |>.take nr).drop i = [] :=
          List.drop_eq_nil_of_le (by rw [List.length_take]; omega)
        simp [pending, hphase, pendingIn, hnil]
  · refine ⟨true, _, rfl, by simp, by simp, trivial, .found ?_ rfl ?_ ?_⟩
    · simp [hphase, Racing]
    · simp [Racing]
    · simp [pending, hphase, pendingIn]
  · have hsame : s = s.goto c .returned := by
      rw [← hphase, goto_phase_eq]
    refine ⟨s.racesFound, .returned, hsame, by simp, by simp, trivial, .on rfl ?_ ?_ ?_⟩
    · simp [hphase, Racing]
    · simp [Racing]
    · simp [pending, hphase, pendingIn]
  · exact absurd hphase (h.raised c)

omit [DecidableEq κ] in
theorem exact_of_moved {access : C → Access κ n} (hcmp : AllComparable access)
    {s : RaceDetectionState κ C} (h : Exact access s) {c : C} (hc : s.phase c ≠ .notCalled)
    {x : Bool} {p : Phase} (hp : p ≠ .notCalled) (hraised : p ≠ .raised)
    (hbounds : InBounds (s.writes (access c).bufferKey) (s.reads (access c).bufferKey) p)
    (hmoved : Moved access s ({ s with racesFound := x }.goto c p) c) :
    Exact access ({ s with racesFound := x }.goto c p) := by
  have hphase : ∀ d, d ≠ c → ({ s with racesFound := x }.goto c p).phase d = s.phase d :=
    fun d hd => goto_phase_of_ne _ p hd
  have hpending : ∀ d, d ≠ c →
      pending access ({ s with racesFound := x }.goto c p) d = pending access s d := by
    intro d hd
    unfold pending
    rw [hphase d hd]
    rfl
  have hcalled : ∀ d, ({ s with racesFound := x }.goto c p).phase d ≠ .notCalled ↔
      s.phase d ≠ .notCalled := by
    intro d
    by_cases hd : d = c
    · subst hd
      simp [hp, hc]
    · rw [hphase d hd]
  have hmono : s.racesFound = true → x = true := by
    intro hs
    cases hmoved with
    | on hfound _ _ _ => exact hfound.trans hs
    | passed _ hfound _ _ _ _ => exact hfound.trans hs
    | race _ _ hfound _ _ _ _ => exact hfound.trans hs
    | found _ hfound _ _ => exact hfound
  have hcovered : ∀ a b, a ≠ b → Conflict (access a) (access b) → Covered access s a b →
      Covered access ({ s with racesFound := x }.goto c p) a b := by
    intro a b hab hconf hcov
    by_cases ha : a = c
    · subst ha
      exact hmoved.covered hcmp hab hconf hcov
    · unfold Covered
      rw [hpending a ha, hphase a ha]
      exact hcov.imp_left hmono
  refine ⟨?_, ?_, ?_, ?_, ?_, ?_, ?_⟩
  · intro k d
    rw [hcalled]
    exact h.writes k d
  · intro k d
    rw [hcalled]
    exact h.reads k d
  · intro d
    by_cases hd : d = c
    · subst hd
      rw [goto_phase_self]
      exact hbounds
    · rw [hphase d hd]
      exact h.bounds d
  · intro d e he
    by_cases hd : d = c
    · subst hd
      exact h.conflict d e (hmoved.pending_subset he)
    · rw [hpending d hd] at he
      exact h.conflict d e he
  · intro a b hab ha hb hconf
    rw [hcalled] at ha hb
    exact (h.covered a b hab ha hb hconf).imp (hcovered a b hab hconf)
      (hcovered b a (Ne.symm hab) hconf.symm)
  · intro hsound
    by_cases hold : s.racesFound = true ∨ ∃ d, Racing (s.phase d)
    · exact h.sound hold
    · have hnone : x = s.racesFound →
          ¬ Racing (({ s with racesFound := x }.goto c p).phase c) → False := by
        intro hx hracing
        obtain hs | ⟨d, hd⟩ := hsound
        · exact hold (.inl (hx.symm.trans hs))
        · by_cases hdc : d = c
          · subst hdc
            exact hracing hd
          · rw [hphase d hdc] at hd
            exact hold (.inr ⟨d, hd⟩)
      cases hmoved with
      | on hfound _ hracing' _ => exact (hnone hfound hracing').elim
      | passed _ hfound _ hracing' _ _ => exact (hnone hfound hracing').elim
      | race e rest _ hpend hex _ _ =>
          obtain ⟨hne, hconf⟩ := h.conflict c e (by rw [hpend]; exact List.mem_cons_self)
          obtain ⟨found, hval, hiff⟩ := examine_spec hcmp hne hconf
          rw [hex] at hval
          injection hval with hval
          exact ⟨c, e, hne, hiff.mp hval.symm⟩
      | found hracing _ _ _ => exact absurd (.inr ⟨c, hracing⟩) hold
  · intro d
    by_cases hd : d = c
    · subst hd
      rw [goto_phase_self]
      exact hraised
    · rw [hphase d hd]
      exact h.raised d

/-- What the registration of the call `c` does to the lists. -/
structure Registers (access : C → Access κ n) (s s' : RaceDetectionState κ C) (c : C) : Prop where
  writes : ∀ k, s'.writes k =
    s.writes k ++ if (access c).kind = .write ∧ (access c).bufferKey = k then [c] else []
  reads : ∀ k, s'.reads k =
    s.reads k ++ if (access c).kind = .read ∧ (access c).bufferKey = k then [c] else []
  phase : s'.phase = Function.update s.phase c (.scanWrites 0
    (s.writes (access c).bufferKey).length
    (if (access c).kind = .write then (s.reads (access c).bufferKey).length else 0))
  racesFound : s'.racesFound = s.racesFound

theorem advance_notCalled {access : C → Access κ n} {s : RaceDetectionState κ C} {c : C}
    (hc : s.phase c = .notCalled) : Registers access s (advance access s c) c := by
  have hpush : ∀ (f : κ → List C) (key k : κ), Function.update f key (f key ++ [c]) k =
      f k ++ if key = k then [c] else [] := by
    intro f key k
    by_cases hk : key = k
    · subst hk
      rw [Function.update_self, if_pos rfl]
    · rw [Function.update_of_ne (Ne.symm hk), if_neg hk, List.append_nil]
  unfold advance
  simp only [hc]
  rcases hkind : (access c).kind with _ | _
  · refine ⟨fun k => ?_, fun k => ?_, ?_, rfl⟩
    · simp only [checkRead, hkind, goto_writes, false_and, if_false, List.append_nil, reduceCtorEq]
    · simpa [checkRead, hkind] using hpush s.reads _ k
    · simp [checkRead, goto, hkind]
  · refine ⟨fun k => ?_, fun k => ?_, ?_, rfl⟩
    · simpa [checkWrite, hkind] using hpush s.writes _ k
    · simp only [checkWrite, hkind, goto_reads, false_and, if_false, List.append_nil, reduceCtorEq]
    · simp [checkWrite, goto, hkind]

theorem exact_of_registers {access : C → Access κ n} {s s' : RaceDetectionState κ C} {c : C}
    (h : Exact access s) (hc : s.phase c = .notCalled) (hreg : Registers access s s' c) :
    Exact access s' := by
  obtain ⟨hwrites, hreads, hphase, hfound⟩ := hreg
  have hself := congrFun hphase c
  rw [Function.update_self] at hself
  have hother : ∀ d, d ≠ c → s'.phase d = s.phase d := by
    intro d hd
    rw [hphase, Function.update_of_ne hd]
  have hbounds : ∀ {w e r e' : List C} {p : Phase}, InBounds w r p →
      InBounds (w ++ e) (r ++ e') p ∧ pendingIn (w ++ e) (r ++ e') p = pendingIn w r p := by
    intro w e r e' p hp
    cases p with
    | scanWrites i nw nr =>
        exact ⟨⟨by have := hp.1; rw [List.length_append]; omega,
          by have := hp.2; rw [List.length_append]; omega⟩,
          by rw [pendingIn, List.take_append_of_le_length hp.1,
            List.take_append_of_le_length hp.2, pendingIn]⟩
    | raceWithWrite nr =>
        exact ⟨by have : nr ≤ r.length := hp
                  show nr ≤ _
                  rw [List.length_append]; omega,
          List.take_append_of_le_length hp⟩
    | scanReads i nr =>
        exact ⟨by have : nr ≤ r.length := hp
                  show nr ≤ _
                  rw [List.length_append]; omega,
          congrArg (List.drop i) (List.take_append_of_le_length hp)⟩
    | notCalled => exact ⟨trivial, rfl⟩
    | raceWithRead => exact ⟨trivial, rfl⟩
    | returned => exact ⟨trivial, rfl⟩
    | raised => exact ⟨trivial, rfl⟩
  have hpending : ∀ d, d ≠ c → pending access s' d = pending access s d := by
    intro d hd
    unfold pending
    rw [hwrites, hreads, hother d hd]
    exact (hbounds (h.bounds d)).2
  have hpendingc : ∀ e, e ∈ pending access s' c ↔
      s.phase e ≠ .notCalled ∧ Conflict (access c) (access e) := by
    intro e
    have hold : pending access s' c = s.writes (access c).bufferKey ++
        if (access c).kind = .write then s.reads (access c).bufferKey else [] := by
      unfold pending
      rw [hself, hwrites, hreads, pendingIn, List.take_left, List.drop_zero]
      by_cases hkind : (access c).kind = .write
      · rw [if_pos hkind, if_pos hkind, List.take_left]
      · rw [if_neg hkind, if_neg hkind, List.take_zero]
    rw [hold, List.mem_append, h.writes]
    by_cases hkind : (access c).kind = .write
    · rw [if_pos hkind, h.reads]
      constructor
      · rintro (⟨hcalled, -, hkey⟩ | ⟨hcalled, -, hkey⟩)
        · exact ⟨hcalled, hkey.symm, .inl hkind⟩
        · exact ⟨hcalled, hkey.symm, .inl hkind⟩
      · intro ⟨hcalled, hkey, _⟩
        cases hkinde : (access e).kind with
        | read => exact .inr ⟨hcalled, rfl, hkey.symm⟩
        | write => exact .inl ⟨hcalled, rfl, hkey.symm⟩
    · rw [if_neg hkind]
      constructor
      · rintro (⟨hcalled, hkinde, hkey⟩ | hmem)
        · exact ⟨hcalled, hkey.symm, .inr hkinde⟩
        · cases hmem
      · intro ⟨hcalled, hkey, hone⟩
        exact .inl ⟨hcalled, hone.resolve_left hkind, hkey.symm⟩
  have hcalled : ∀ d, s'.phase d ≠ .notCalled ↔ s.phase d ≠ .notCalled ∨ d = c := by
    intro d
    by_cases hd : d = c
    · subst hd
      simp [hself]
    · rw [hother d hd]
      simp [hd]
  have hracing : ∀ d, Racing (s'.phase d) ↔ Racing (s.phase d) := by
    intro d
    by_cases hd : d = c
    · subst hd
      rw [hself, hc]
      exact Iff.rfl
    · rw [hother d hd]
  refine ⟨?_, ?_, ?_, ?_, ?_, ?_, ?_⟩
  · intro k d
    rw [hwrites, List.mem_append, h.writes, hcalled]
    by_cases hd : d = c
    · subst hd
      by_cases hk : (access d).kind = .write ∧ (access d).bufferKey = k
      · simp [hk]
      · simp [hk, hc]
    · have hnot : d ∉ if (access c).kind = .write ∧ (access c).bufferKey = k then [c] else [] := by
        split <;> simp [hd]
      simp [hd, hnot]
  · intro k d
    rw [hreads, List.mem_append, h.reads, hcalled]
    by_cases hd : d = c
    · subst hd
      by_cases hk : (access d).kind = .read ∧ (access d).bufferKey = k
      · simp [hk]
      · simp [hk, hc]
    · have hnot : d ∉ if (access c).kind = .read ∧ (access c).bufferKey = k then [c] else [] := by
        split <;> simp [hd]
      simp [hd, hnot]
  · intro d
    by_cases hd : d = c
    · subst hd
      rw [hself, hwrites, hreads]
      refine ⟨by rw [List.length_append]; omega, ?_⟩
      rw [List.length_append]
      split <;> omega
    · rw [hwrites, hreads, hother d hd]
      exact (hbounds (h.bounds d)).1
  · intro d e he
    by_cases hd : d = c
    · subst hd
      obtain ⟨hcalledE, hconf⟩ := (hpendingc e).mp he
      refine ⟨?_, hconf⟩
      rintro rfl
      exact hcalledE hc
    · rw [hpending d hd] at he
      exact h.conflict d e he
  · intro a b hab ha hb hconf
    rw [hcalled] at ha hb
    by_cases hac : a = c
    · subst hac
      have hb' := hb.resolve_right (Ne.symm hab)
      exact .inl (.inr (.inr (.inr ((hpendingc b).mpr ⟨hb', hconf⟩))))
    · by_cases hbc : b = c
      · subst hbc
        have ha' := ha.resolve_right hab
        exact .inr (.inr (.inr (.inr ((hpendingc a).mpr ⟨ha', hconf.symm⟩))))
      · have hold := h.covered a b hab (ha.resolve_right hac) (hb.resolve_right hbc) hconf
        unfold Covered at hold ⊢
        rw [hfound, hracing, hracing, hpending a hac, hpending b hbc]
        exact hold
  · intro hsound
    rw [hfound] at hsound
    simp only [hracing] at hsound
    exact h.sound hsound
  · intro d
    by_cases hd : d = c
    · subst hd
      simp [hself]
    · rw [hother d hd]
      exact h.raised d

/-! ### Every interleaving -/

omit [DecidableEq κ] [DecidableEq C] in
theorem exact_init (access : C → Access κ n) : Exact access init := by
  refine ⟨?_, ?_, ?_, ?_, ?_, ?_, ?_⟩
  · simp [init]
  · simp [init]
  · intro c
    trivial
  · intro c e he
    cases he
  · intro a b _ ha
    exact absurd rfl ha
  · rintro (h | ⟨c, hc⟩)
    · cases h
    · exact hc.elim
  · simp [init]

theorem exact_advance {access : C → Access κ n} (hcmp : AllComparable access)
    {s : RaceDetectionState κ C} (h : Exact access s) (c : C) :
    Exact access (advance access s c) := by
  by_cases hc : s.phase c = .notCalled
  · exact exact_of_registers h hc (advance_notCalled hc)
  · obtain ⟨x, p, heq, hp, hraised, hbounds, hmoved⟩ := advance_called hcmp h hc
    rw [heq]
    exact exact_of_moved hcmp h hc hp hraised hbounds hmoved

theorem exact_run {access : C → Access κ n} (hcmp : AllComparable access) (schedule : List C) :
    Exact access (run access schedule) := by
  induction schedule using List.reverseRecOn with
  | nil => exact exact_init access
  | append_singleton schedule c ih =>
      rw [run, List.foldl_append]
      exact exact_advance hcmp ih c

end RaceDetectionState

open RaceDetectionState

variable [DecidableEq κ] [DecidableEq C]

/-- Where the ranges that it compares are `Comparable`, no call raises, and when all calls
have returned a race is found if and only if there is one. -/
theorem racesFound_iff (access : C → Access κ n) (hcmp : AllComparable access)
    (schedule : List C) :
    (∀ c, (run access schedule).phase c ≠ .raised) ∧
      ((∀ c, (run access schedule).phase c = .returned) →
        ((run access schedule).racesFound = true ↔
          ∃ a b, a ≠ b ∧ Race (access a) (access b))) := by
  have hexact := exact_run hcmp schedule
  refine ⟨hexact.raised, fun hret => ⟨fun h => hexact.sound (.inl h), ?_⟩⟩
  rintro ⟨a, b, hab, hrace⟩
  have hdone : ∀ c e, Race (access c) (access e) →
      Covered access (run access schedule) c e → (run access schedule).racesFound = true := by
    intro c e hrace hcov
    unfold Covered pending at hcov
    rw [hret c] at hcov
    obtain h | h | h | h := hcov
    · exact h
    · exact h.elim
    · exact absurd hrace h
    · cases h
  have hcalled : ∀ c, (run access schedule).phase c ≠ .notCalled := by
    intro c
    rw [hret c]
    simp
  exact (hexact.covered a b hab (hcalled a) (hcalled b) hrace.conflict).elim
    (hdone a b hrace) (hdone b a hrace.symm)

/-- Two cores that know nothing of each other each write to one buffer. -/
def twoWrites (r₁ r₂ : List Index) : Bool → Access Unit 2
  | false => ⟨.write, fun i => if i = 0 then 1 else 0, (), r₁⟩
  | true => ⟨.write, fun i => if i = 0 then 0 else 1, (), r₂⟩

theorem twoWrites_race {r₁ r₂ : List Index} (h : CommonElement r₁ r₂) :
    Race (twoWrites r₁ r₂ false) (twoWrites r₁ r₂ true) :=
  ⟨⟨rfl, .inl rfl⟩, by simp only [twoWrites]; decide, h⟩

/-- The steps of two writes that register themselves before either one looks at the other. -/
def registerFirst : List Bool := [false, true, false, true, true, true, false, true, true, false]

theorem racesFound_iff_overlapping :
    (run (twoWrites [.slice (some 0) 4] [.slice (some 2) 6]) registerFirst).racesFound = true ↔
      ∃ a b, a ≠ b ∧ Race (twoWrites [.slice (some 0) 4] [.slice (some 2) 6] a)
        (twoWrites [.slice (some 0) 4] [.slice (some 2) 6] b) := by
  have hcommon : CommonElement [.slice (some 0) 4] [.slice (some 2) 6] := by
    refine ⟨fun _ => 2, fun d => ?_⟩
    cases d with
    | zero => simp [Index.Has]
    | succ d => exact ⟨trivial, trivial⟩
  have hcmp := (rangesOverlap_iff [.slice (some 0) 4] [.slice (some 2) 6]).mp
    ⟨true, by decide, fun _ => hcommon, fun _ => rfl⟩
  refine (racesFound_iff _ ?_ registerFirst).2 (by decide)
  intro a b hab _ _
  cases a with
  | false =>
      cases b with
      | false => exact absurd rfl hab
      | true => exact hcmp
  | true =>
      cases b with
      | false => exact hcmp.symm
      | true => exact absurd rfl hab

/-- Two writes to all of a buffer. -/
theorem fullSlices_race_missed :
    (∀ c, (run (twoWrites [.full] [.full]) registerFirst).phase c = .returned) ∧
      (run (twoWrites [.full] [.full]) registerFirst).racesFound = false ∧
        ∃ a b, a ≠ b ∧ Race (twoWrites [.full] [.full] a) (twoWrites [.full] [.full] b) := by
  refine ⟨by decide, by decide, false, true, by decide, twoWrites_race ⟨fun _ => 0, fun d => ?_⟩⟩
  cases d with
  | zero => exact ⟨trivial, trivial⟩
  | succ d => exact ⟨trivial, trivial⟩

end JaxDas.Interpret
