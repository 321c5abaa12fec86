import JaxDas.ReentrantHash.Set

/-!
# Operations under way at the same time

While an operation waits for the equality functor, the functor may call operations of the
same table, or let other threads do so, and these may wait in turn. A state is a table and
the operations that wait; a step is a part of one of them, or an `erase`, or a `clear`. An
operation has kept a position in a probe and a slot to insert into, which are good for the
table as it was. Its version tells when they no longer are.
-/

namespace JaxDas.ReentrantHash

variable {Key : Type} {W : ℕ} {hash : Key → ℕ} {eqv : Key → Key → Bool}

/-- A table, and the operations that wait for a comparison. -/
structure State (Key : Type) where
  table : Table Key
  calls : ℕ → Option (Op Key × Compare)

def State.init (W : ℕ) : State Key := ⟨ReentrantHash.init W, fun _ => none⟩

/-- What a call of an operation does next, in a step. -/
inductive Event (Key : Type)
  /-- It begins, or goes on as its comparison has returned. -/
  | ran (c : ℕ) (op : Op Key) (out : Outcome)
  /-- Its comparison has thrown. -/
  | threw (c : ℕ)
  | erased (idx : ℕ)
  | cleared

/-- The state after a part of a call. -/
def State.after (s : State Key) (c : ℕ) (op : Op Key) (T : Table Key) : Outcome → State Key
  | .compare cmp => ⟨T, Function.update s.calls c (some (op, cmp))⟩
  | .returned _ => ⟨T, Function.update s.calls c none⟩

inductive Step (W : ℕ) (hash : Key → ℕ) (eqv : Key → Key → Bool) :
    State Key → Event Key → State Key → Prop
  | start {s : State Key} {c : ℕ} {op : Op Key} {T : Table Key} {out : Outcome}
      (hc : s.calls c = none) (hop : op.Fits hash eqv) (fuel : ℕ)
      (h : op.attempt W hash fuel s.table = some (T, out)) :
      Step W hash eqv s (.ran c op out) (s.after c op T out)
  | returns {s : State Key} {c : ℕ} {op : Op Key} {cmp : Compare} {T : Table Key}
      {out : Outcome} (hc : s.calls c = some (op, cmp)) (fuel : ℕ)
      (h : op.resume W hash fuel s.table cmp = some (T, out)) :
      Step W hash eqv s (.ran c op out) (s.after c op T out)
  | throws {s : State Key} {c : ℕ} {op : Op Key} {cmp : Compare}
      (hc : s.calls c = some (op, cmp)) :
      Step W hash eqv s (.threw c) ⟨s.table, Function.update s.calls c none⟩
  | erase {s : State Key} {idx : ℕ} {T : Table Key} (h : s.table.erase W idx = some T) :
      Step W hash eqv s (.erased idx) ⟨T, s.calls⟩
  | clear {s : State Key} : Step W hash eqv s .cleared ⟨s.table.clear W, s.calls⟩

/-- A comparison during which the version has come back to what it was. -/
def Wrapped (s : State Key) (c : ℕ) : Prop :=
  ∃ op cmp, s.calls c = some (op, cmp) ∧ cmp.version + wordSize ≤ s.table.version

/-- Steps away from the two defects: no `clear` of 8 slots with groups of 8, and no
comparison during which the table changes `2 ^ 64` times. -/
def Allowed (W : ℕ) (s : State Key) : Event Key → Prop
  | .ran c _ _ => ¬ Wrapped s c
  | .cleared => ¬ (W = 8 ∧ s.table.capacity = 8)
  | _ => True

inductive Reachable (W : ℕ) (hash : Key → ℕ) (eqv : Key → Key → Bool)
    (ok : State Key → Event Key → Prop) : State Key → Prop
  | init : Reachable W hash eqv ok (State.init W)
  | step {s s' : State Key} {e : Event Key} (h : Reachable W hash eqv ok s) (hok : ok s e)
      (hs : Step W hash eqv s e s') : Reachable W hash eqv ok s'

/-! ## The invariant -/

/-- The table is well formed, and what an operation that waits has found is true of the
table unless the version tells that it changed. -/
structure Steady (W : ℕ) (hash : Key → ℕ) (eqv : Key → Key → Bool) (s : State Key) : Prop where
  wf : WF W hash eqv s.table
  seen : Seen W s.table
  fits : ∀ c op cmp, s.calls c = some (op, cmp) → op.Fits hash eqv
  version : ∀ c op cmp, s.calls c = some (op, cmp) → cmp.version ≤ s.table.version
  waiting : ∀ c op cmp, s.calls c = some (op, cmp) → cmp.version = s.table.version →
    ∃ r, Waiting W s.table op r cmp

/-- The result is right for the table at the time of return. -/
inductive Correct (eqv : Key → Key → Bool) (T : Table Key) : Op Key → Result → Prop
  | found {op : Op Key} {i : ℕ} (k : Key) (hk : T.slots i = some k)
      (heq : op.query.eq k = true) : Correct eqv T op (.found i)
  | absent {q : Query Key} (h : ∀ k, T.Has k → q.eq k = false) :
      Correct eqv T (.find q) .absent
  | inserted {q : Query Key} {made : Key} {i : ℕ} (hslot : T.slots i = some made)
      (h : ∀ j k, T.slots j = some k → eqv k made = true → j = i) :
      Correct eqv T (.tryEmplace q made) (.inserted i)

theorem Done.correct {T T' : Table Key} (hwf : WF W hash eqv T') {op : Op Key} {r : Result}
    (h : Done T T' op r) : Correct eqv T' op r := by
  cases h with
  | found _ k hk heq => exact .found k hk heq
  | absent hkept hne => exact .absent (hkept ▸ hne)
  | inserted _ hslot _ _ =>
      exact .inserted hslot fun j k hk heq => hwf.distinct j _ k _ hk hslot heq

theorem steady_init (hW : W = 8 ∨ W = 16) : Steady W hash eqv (State.init W) where
  wf := wf_init hW
  seen := .inl mirrored_init
  fits := fun _ _ _ h => nomatch h
  version := fun _ _ _ h => nomatch h
  waiting := fun _ _ _ h => nomatch h

/-- A new table with a later version: what the other operations have found is stale. -/
theorem Steady.changed {s : State Key} (h : Steady W hash eqv s) {T : Table Key}
    {calls : ℕ → Option (Op Key × Compare)} (hwf : WF W hash eqv T) (hseen : Seen W T)
    (hver : T = s.table ∨ s.table.version < T.version)
    (hcalls : ∀ c op cmp, calls c = some (op, cmp) → s.calls c = some (op, cmp) ∨
      (op.Fits hash eqv ∧ cmp.version = T.version ∧ ∃ r, Waiting W T op r cmp)) :
    Steady W hash eqv ⟨T, calls⟩ := by
  have hle : s.table.version ≤ T.version := by
    rcases hver with rfl | hlt
    · exact Nat.le_refl _
    · exact Nat.le_of_lt hlt
  refine ⟨hwf, hseen, ?_, ?_, ?_⟩
  · intro c op cmp hc
    rcases hcalls c op cmp hc with hold | ⟨hfits, -⟩
    · exact h.fits c op cmp hold
    · exact hfits
  · intro c op cmp hc
    rcases hcalls c op cmp hc with hold | ⟨-, hv, -⟩
    · exact (h.version c op cmp hold).trans hle
    · exact hv.le
  · intro c op cmp hc hv
    rcases hcalls c op cmp hc with hold | ⟨-, -, hw⟩
    · have hold' := h.version c op cmp hold
      rcases hver with rfl | hlt
      · exact h.waiting c op cmp hold hv
      · have hv : cmp.version = T.version := hv
        omega
    · exact hw

theorem Steady.dropped {s : State Key} (h : Steady W hash eqv s) (c : ℕ) :
    Steady W hash eqv ⟨s.table, Function.update s.calls c none⟩ := by
  refine h.changed h.wf h.seen (.inl rfl) fun c' op cmp hc' => .inl ?_
  by_cases hcc : c' = c
  · rw [hcc, Function.update_self] at hc'
    exact nomatch hc'
  · rwa [Function.update_of_ne hcc] at hc'

/-- The state after a part of an operation. -/
theorem Steady.after {s : State Key} (h : Steady W hash eqv s) (c : ℕ) {op : Op Key}
    (hop : op.Fits hash eqv) {r : ℕ} {T : Table Key} {out : Outcome}
    (hseg : Segment W hash eqv s.table op r T out) : Steady W hash eqv (s.after c op T out) := by
  cases out with
  | compare cmp =>
      obtain ⟨hver, hwait, -⟩ := hseg.waits cmp rfl
      refine h.changed hseg.wf hseg.seen hseg.version fun c' op' cmp' hc' => ?_
      by_cases hcc : c' = c
      · rw [hcc, Function.update_self, Option.some.injEq, Prod.mk.injEq] at hc'
        obtain ⟨rfl, rfl⟩ := hc'
        exact .inr ⟨hop, hver, r, hwait⟩
      · exact .inl (by rwa [Function.update_of_ne hcc] at hc')
  | returned res =>
      refine h.changed hseg.wf hseg.seen hseg.version fun c' op' cmp' hc' => .inl ?_
      by_cases hcc : c' = c
      · rw [hcc, Function.update_self] at hc'
        exact nomatch hc'
      · rwa [Function.update_of_ne hcc] at hc'

/-! ## Steps -/

section Steps

variable (hW : W = 8 ∨ W = 16) (hsymm : ∀ a b, eqv a b = eqv b a)

include hW hsymm

/-- An operation goes on: where it finds the same version the table is the same, and where
it does not it begins again. -/
theorem Steady.resume {s : State Key} (h : Steady W hash eqv s) {c : ℕ} {op : Op Key}
    {cmp : Compare} (hc : s.calls c = some (op, cmp)) (hwrap : ¬ Wrapped s c) {fuel : ℕ}
    (hfuel : s.table.fuelBound ≤ fuel) : ∃ r T out,
      op.resume W hash fuel s.table cmp = some (T, out) ∧ Segment W hash eqv s.table op r T out := by
  have hop := h.fits c op cmp hc
  have hle := h.version c op cmp hc
  have hlt : s.table.version < cmp.version + wordSize := by
    by_contra hge
    exact hwrap ⟨op, cmp, hc, by omega⟩
  by_cases hver : s.table.version % wordSize = cmp.version % wordSize
  · -- less than a whole turn apart, so not at all
    have heq : cmp.version = s.table.version := by
      rw [wordSize] at hver hlt
      omega
    obtain ⟨r, hwait⟩ := h.waiting c op cmp hc heq
    obtain ⟨T, out, hout, -, hseg, -⟩ := resume_ok hsymm h.wf h.seen hop hwait heq hfuel
    exact ⟨r - 1, T, out, hout, hseg⟩
  · obtain ⟨T, out, hout, hseg, -⟩ := attempt_ok hW hsymm h.wf h.seen hop hfuel
    refine ⟨_, T, out, ?_, hseg⟩
    rw [Op.resume, if_pos hver, hout]

/-- What a step of a call does to the table is what a part of an operation does. -/
theorem Steady.segment {s s' : State Key} (h : Steady W hash eqv s) {c : ℕ} {op : Op Key}
    {out : Outcome} (hwrap : ¬ Wrapped s c) (hs : Step W hash eqv s (.ran c op out) s') :
    ∃ r T, s' = s.after c op T out ∧ op.Fits hash eqv ∧ Segment W hash eqv s.table op r T out := by
  cases hs with
  | start hc hop fuel hattempt =>
      rename_i T
      obtain ⟨T', out', hout, hseg, -⟩ :=
        attempt_ok hW hsymm h.wf h.seen hop (le_max_right fuel s.table.fuelBound)
      rw [attempt_mono (le_max_left _ _) hattempt] at hout
      obtain ⟨rfl, rfl⟩ := Prod.mk.inj (Option.some.inj hout)
      exact ⟨_, T, rfl, hop, hseg⟩
  | returns hc fuel hresume =>
      rename_i cmp T
      obtain ⟨r, T', out', hout, hseg⟩ :=
        h.resume hW hsymm hc hwrap (le_max_right fuel s.table.fuelBound)
      rw [resume_mono (le_max_left _ _) hresume] at hout
      obtain ⟨rfl, rfl⟩ := Prod.mk.inj (Option.some.inj hout)
      exact ⟨r, T, rfl, h.fits c op cmp hc, hseg⟩

omit hsymm in
theorem seen_clear {T : Table Key} (h : Seen W T) (hok : ¬ (W = 8 ∧ T.capacity = 8))
    (hwf : WF W hash eqv T) : Seen W (T.clear W) := by
  by_cases h0 : T.capacity = 0
  · rwa [Table.clear, if_pos h0]
  · have hcap : (T.clear W).capacity = T.capacity := by
      rw [Table.clear, if_neg h0]
    rcases hW with h8 | h16
    · obtain ⟨k, hk, hpow⟩ := (hwf.shape.sizes (by omega)).capacity
      have hk' : k ≠ 3 := by
        rintro rfl
        exact hok ⟨h8, hpow⟩
      have := Nat.pow_le_pow_right (by omega : 0 < 2) (show 4 ≤ k by omega)
      exact .inr (.inl (by rw [hcap, hpow]; omega))
    · exact .inr (.inr h16)

theorem steady_step {s s' : State Key} {e : Event Key} (h : Steady W hash eqv s)
    (hok : Allowed W s e) (hs : Step W hash eqv s e s') : Steady W hash eqv s' := by
  cases e with
  | ran c op out =>
      obtain ⟨r, T, rfl, hop, hseg⟩ := h.segment hW hsymm hok hs
      exact h.after c hop hseg
  | threw c =>
      cases hs with
      | throws _ => exact h.dropped c
  | erased idx =>
      cases hs with
      | erase he =>
          obtain ⟨hidx, -, hw, -, -, hver⟩ := erase_eq_some he
          refine h.changed (wf_erase h.wf he) ?_ (.inr (by omega)) fun c op cmp hc => .inl hc
          rcases h.seen with hm | h16 | h16
          · exact .inl (hm.wrote hw hidx)
          · exact .inr (.inl (hw.capacity ▸ h16))
          · exact .inr (.inr h16)
  | cleared =>
      cases hs with
      | clear =>
          refine h.changed (wf_clear h.wf) (seen_clear hW h.seen hok h.wf) ?_
            fun c op cmp hc => .inl hc
          by_cases h0 : s.table.capacity = 0
          · exact .inl (by rw [Table.clear, if_pos h0])
          · refine .inr ?_
            rw [Table.clear, if_neg h0]
            exact Nat.lt_succ_self _

theorem steady_reachable {s : State Key} (h : Reachable W hash eqv (Allowed W) s) :
    Steady W hash eqv s := by
  induction h with
  | init => exact steady_init hW
  | step _ hok hs ih => exact steady_step hW hsymm ih hok hs

/-! ## Main result -/

/-- **Reentrant mutation does not corrupt the table**: whatever else happens to the table
while operations wait, an operation that returns has a result that is right for the table
then, and one whose comparison throws leaves the table alone. No operation gets stuck, and
one whose comparisons leave the table alone from now on returns. -/
theorem reentrant_correct {s : State Key} (h : Reachable W hash eqv (Allowed W) s) :
    (∀ i j a b, s.table.slots i = some a → s.table.slots j = some b → eqv a b = true → i = j) ∧
    (∀ c op r s', ¬ Wrapped s c → Step W hash eqv s (.ran c op (.returned r)) s' →
      Correct eqv s'.table op r ∧ s'.calls c = none) ∧
    (∀ c s', Step W hash eqv s (.threw c) s' → s'.table = s.table ∧ s'.calls c = none) ∧
    (∀ c op, s.calls c = none → op.Fits hash eqv → ∃ out s', Step W hash eqv s (.ran c op out) s') ∧
    ∀ c op cmp, s.calls c = some (op, cmp) → ¬ Wrapped s c →
      (∃ out s', Step W hash eqv s (.ran c op out) s') ∧
      ∃ fuel n T r, op.drive W hash fuel n (s.table, .compare cmp) = some (T, r) ∧
        Correct eqv T op r := by
  have hst := steady_reachable hW hsymm h
  refine ⟨hst.wf.distinct, ?_, ?_, ?_, ?_⟩
  · intro c op r s' hwrap hs
    obtain ⟨x, T, rfl, -, hseg⟩ := hst.segment hW hsymm hwrap hs
    exact ⟨(hseg.returns r rfl).correct hseg.wf, Function.update_self ..⟩
  · intro c s' hs
    cases hs with
    | throws _ => exact ⟨rfl, Function.update_self ..⟩
  · intro c op hc hop
    obtain ⟨T, out, hout, -⟩ := attempt_ok hW hsymm hst.wf hst.seen hop (Nat.le_refl _)
    exact ⟨out, _, .start hc hop _ hout⟩
  · intro c op cmp hc hwrap
    have hop := hst.fits c op cmp hc
    obtain ⟨r, T, out, hout, hseg⟩ := hst.resume hW hsymm hc hwrap (Nat.le_refl _)
    refine ⟨⟨out, _, .returns hc _ hout⟩, ?_⟩
    -- from the next comparison on nothing else changes the table
    obtain ⟨T', res, hdrive, hwf, -, -, hdone⟩ := drive_ok hsymm hop hseg
      (fun _ _ => le_max_left T.fuelBound s.table.fuelBound) (Nat.le_refl r)
    refine ⟨max T.fuelBound s.table.fuelBound, r + 1, T', res, ?_, hdone.correct hwf⟩
    rw [Op.drive, resume_mono (le_max_right _ _) hout]
    exact hdrive

end Steps

/-- A key is inserted, and looked for again: the `find` waits for the comparison. -/
def waiting : State ℕ :=
  ((State.init 8).after 1 (Op.insert id natEq 128) (((init 8).reset 8 8).add 8 1 0 128)
    (.returned (.inserted 1))).after 0 (.find ⟨128, natEq 128⟩)
      (((init 8).reset 8 8).add 8 1 0 128) (.compare ⟨3, 1, ⟨1, 0, none, []⟩⟩)

theorem find_fits (key : ℕ) : (Op.find ⟨key, natEq key⟩).Fits id natEq :=
  fun _ h => (of_decide_eq_true h).symm

theorem reachable_waiting {ok : State ℕ → Event ℕ → Prop}
    (hok : ∀ (s : State ℕ) c op out, s.calls c = none → ok s (.ran c op out)) :
    Reachable 8 id natEq ok waiting := by
  refine .step (.step .init (hok _ 1 _ _ rfl) (.start rfl (natEq_insert_fits 128) 1 rfl))
    (hok _ 0 _ _ rfl) (.start rfl (find_fits 128) 1 rfl)

theorem reentrant_correct_waiting : ∃ fuel n T r,
    (Op.find ⟨128, natEq 128⟩).drive 8 id fuel n (waiting.table, .compare ⟨3, 1, ⟨1, 0, none, []⟩⟩)
      = some (T, r) ∧ Correct natEq T (.find ⟨128, natEq 128⟩) r := by
  have hreach : Reachable 8 id natEq (Allowed 8) waiting :=
    reachable_waiting fun s c op out hc ⟨op', cmp, hc', _⟩ => nomatch hc.symm.trans hc'
  have hwrap : ¬ Wrapped waiting 0 := by
    rintro ⟨op, cmp, hc, hle⟩
    have hver : waiting.table.version = 3 := rfl
    rw [hver, wordSize] at hle
    omega
  have h := reentrant_correct (.inl rfl) (fun a b => decide_eq_decide.mpr eq_comm) hreach
  exact (h.2.2.2.2 0 _ _ rfl hwrap).2

/-- While the `find` waits, the table is cleared, and `n` keys are inserted. -/
def mutated : ℕ → State ℕ
  | 0 => ⟨waiting.table.clear 8, waiting.calls⟩
  | n + 1 => (mutated n).after 1 (Op.insert id natEq (129 + n)) (cleared (n + 1))
      (.returned (.inserted (n + 1)))

theorem mutated_table : ∀ n, (mutated n).table = cleared n
  | 0 => rfl
  | _ + 1 => rfl

theorem mutated_calls : ∀ n, (mutated n).calls 1 = none ∧
    (mutated n).calls 0 = some (.find ⟨128, natEq 128⟩, ⟨3, 1, ⟨1, 0, none, []⟩⟩)
  | 0 => ⟨rfl, rfl⟩
  | n + 1 => by
      have hcalls : (mutated (n + 1)).calls = Function.update (mutated n).calls 1 none := rfl
      rw [hcalls]
      exact ⟨Function.update_self .., (Function.update_of_ne (by decide) ..).trans
        (mutated_calls n).2⟩

theorem reachable_mutated : ∀ n ≤ 7, Reachable 8 id natEq (fun _ _ => True) (mutated n)
  | 0, _ => .step (reachable_waiting fun _ _ _ _ _ => trivial) trivial .clear
  | n + 1, hn => by
      refine .step (reachable_mutated n (by omega)) trivial (.start
        (mutated_calls n).1 (natEq_insert_fits (129 + n)) 1 ?_)
      rw [mutated_table]
      exact attempt_cleared (by omega)

/-- The `find` neither returns nor throws once its comparison, which cleared the table and
inserted seven keys, has returned. -/
theorem mutated_find_stuck : Reachable 8 id natEq (fun _ _ => True) (mutated 7) ∧
    (mutated 7).calls 0 = some (.find ⟨128, natEq 128⟩, ⟨3, 1, ⟨1, 0, none, []⟩⟩) ∧
    ∀ op out s', ¬ Step 8 id natEq (mutated 7) (.ran 0 op out) s' := by
  refine ⟨reachable_mutated 7 (Nat.le_refl 7), (mutated_calls 7).2, ?_⟩
  intro op out s' hs
  cases hs with
  | start hc _ _ _ =>
      rw [(mutated_calls 7).2] at hc
      cases hc
  | returns hc _ hresume =>
      rw [(mutated_calls 7).2, Option.some.injEq, Prod.mk.injEq] at hc
      obtain ⟨rfl, rfl⟩ := hc
      have hver : (cleared 7).version = 11 := rfl
      rw [mutated_table, Op.resume, if_pos (by rw [hver]; decide), attempt_find_cleared] at hresume
      cases hresume

end JaxDas.ReentrantHash
