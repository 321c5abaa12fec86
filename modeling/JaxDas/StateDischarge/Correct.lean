import JaxDas.StateDischarge.Calls

/-!
# The discharged jaxpr computes what the jaxpr does

From a run of a jaxpr on a mutable store to the run of the jaxpr that `discharge_state` returns: the
same outputs, then the contents that the run leaves in the discharged inputs, and the same effects on
all other refs.
-/

namespace JaxDas.StateDischarge

variable {P T V : Type} {others : ℕ → Prop} {h : Heap V}

/-! ## Jaxprs -/

theorem preserved (ops : Ops P T V) (others : ℕ → Prop) (e : Eqns P T V) :
    Preserved ops others e := by
  induction e with
  | done outvars => exact preserved_done outvars
  | pure prim invars outvars rest ih => exact preserved_pure ih prim invars outvars
  | get ref tree idx outvar rest ih => exact preserved_get ih ref tree idx outvar
  | swap ref val tree idx outvar rest ih => exact preserved_swap ih ref val tree idx outvar
  | addupdate ref val tree idx rest ih => exact preserved_addupdate ih ref val tree idx
  | newRef init outvar rest ih => exact preserved_newRef ih init outvar
  | emptyRef outvar rest ih => exact preserved_emptyRef ih outvar
  | freeze ref outvar rest ih => exact preserved_freeze ih ref outvar
  | freeRef ref rest ih => exact preserved_freeRef ih ref
  | closedCall operands outvars consts invars call rest ihcall ih =>
      exact preserved_closedCall ihcall ih operands outvars consts invars

/-- The inputs of the discharged jaxpr: the contents of the refs that are to be discharged. -/
def dischargeArgs (h : Heap V) : List Bool → List (Arg V ℕ) → Option (List (Arg V (Held V)))
  | [], [] => some []
  | _ :: should, .val x :: args => (dischargeArgs h should args).map (.val x :: ·)
  | true :: should, .ref a :: args => do
      let x ← h.cells a
      (dischargeArgs h should args).map (.ref (.contents x) :: ·)
  | false :: should, .ref a :: args => (dischargeArgs h should args).map (.ref (.ref a) :: ·)
  | _, _ => none

/-- The refs that are passed for the inputs that are to be discharged. -/
def maskedArgs : List Bool → List (Arg V ℕ) → List ℕ
  | true :: should, .ref a :: args => a :: maskedArgs should args
  | _ :: should, _ :: args => maskedArgs should args
  | _, _ => []

theorem maskedArgs_subset : ∀ {should : List Bool} {args : List (Arg V ℕ)} {a : ℕ},
    a ∈ maskedArgs should args → a ∈ refArgs args
  | true :: should, .ref b :: args, a, ha => by
      rcases List.mem_cons.mp ha with rfl | ha
      · exact List.mem_cons_self
      · exact List.mem_cons_of_mem _ (maskedArgs_subset ha)
  | false :: should, .ref b :: args, a, ha =>
      List.mem_cons_of_mem _ (@maskedArgs_subset should args a ha)
  | true :: should, .val _ :: args, a, ha => @maskedArgs_subset should args a ha
  | false :: should, .val _ :: args, a, ha => @maskedArgs_subset should args a ha
  | [], _, _, ha => nomatch ha
  | true :: _, [], _, ha => nomatch ha
  | false :: _, [], _, ha => nomatch ha

/-- The refs that are passed for the inputs that are to be discharged and are not frozen or freed. -/
def keptArgs (invalidated : List RefVar) : List Var → List Bool → List (Arg V ℕ) → List ℕ
  | .ref r :: invars, true :: should, .ref a :: args =>
      if r ∈ invalidated then keptArgs invalidated invars should args
      else a :: keptArgs invalidated invars should args
  | _ :: invars, _ :: should, _ :: args => keptArgs invalidated invars should args
  | _, _, _ => []

theorem stands_dischargeArgs : ∀ {should : List Bool} {args : List (Arg V ℕ)}
    {args' : List (Arg V (Held V))}, dischargeArgs h should args = some args' →
      (refArgs args).Nodup → (∀ a ∈ maskedArgs should args, ¬ others a) →
      (∀ a ∈ refArgs args, a ∉ maskedArgs should args → others a) →
        List.Forall₂ (Stands others h) args args'
  | [], [], _, hd, _, _, _ => Option.some.inj hd ▸ .nil
  | d :: should, .val x :: args, _, hd, hnodup, hmasked, hothers => by
      obtain ⟨args', hargs', rfl⟩ := Option.map_eq_some_iff.mp
        (show (dischargeArgs h should args).map _ = some _ by cases d <;> exact hd)
      refine .cons (.val x) (stands_dischargeArgs hargs' hnodup (fun a ha => hmasked a ?_)
        fun a ha hnot => hothers a ha ?_)
      · cases d <;> exact ha
      · cases d <;> exact hnot
  | true :: should, .ref a :: args, _, hd, hnodup, hmasked, hothers => by
      obtain ⟨ha, hnodup⟩ := List.nodup_cons.mp hnodup
      obtain ⟨x, hx, hd⟩ := Option.bind_eq_some_iff.mp hd
      obtain ⟨args', hargs', rfl⟩ := Option.map_eq_some_iff.mp hd
      refine .cons (.contents hx (hmasked a List.mem_cons_self)) (stands_dischargeArgs hargs' hnodup
        (fun b hb => hmasked b (List.mem_cons_of_mem _ hb)) fun b hb hnot => ?_)
      refine hothers b (List.mem_cons_of_mem _ hb) fun hmem => ?_
      rcases List.mem_cons.mp hmem with rfl | hmem
      · exact ha hb
      · exact hnot hmem
  | false :: should, .ref a :: args, _, hd, hnodup, hmasked, hothers => by
      obtain ⟨ha, hnodup⟩ := List.nodup_cons.mp hnodup
      obtain ⟨args', hargs', rfl⟩ := Option.map_eq_some_iff.mp hd
      refine .cons (.ref (hothers a List.mem_cons_self fun hmem => ?_)) (stands_dischargeArgs hargs'
        hnodup hmasked fun b hb hnot => hothers b (List.mem_cons_of_mem _ hb) hnot)
      exact ha (maskedArgs_subset hmem)
  | [], _ :: _, _, hd, _, _, _ => nomatch hd
  | _ :: _, [], _, hd, _, _, _ => nomatch hd

theorem contentVars_dischargeArgs {invars : List Var} : ∀ {should : List Bool}
    {args : List (Arg V ℕ)} {args' : List (Arg V (Held V))} {env e : Env V ℕ},
    env.writeArgs invars args = .ok e → dischargeArgs h should args = some args' →
      contentVars invars args' = dischargedRefs invars should := by
  induction invars with
  | nil =>
      intro should args args' env e he hd
      cases args with
      | cons => cases he
      | nil =>
          cases should with
          | nil => exact Option.some.inj hd ▸ rfl
          | cons => cases hd
  | cons v invars ih =>
      intro should args args' env e he hd
      rcases args with _ | ⟨x | a, args⟩
      · cases v <;> cases he
      · rcases should with _ | ⟨d, should⟩
        · cases hd
        obtain ⟨args', hargs', rfl⟩ := Option.map_eq_some_iff.mp
          (show (dischargeArgs h should args).map _ = some _ by cases d <;> exact hd)
        cases v with
        | val v => exact ih he hargs'
        | ref => cases he
      · rcases v with v | v
        · cases he
        rcases should with _ | ⟨_ | _, should⟩
        · cases hd
        · obtain ⟨args', hargs', rfl⟩ := Option.map_eq_some_iff.mp hd
          exact ih he hargs'
        · obtain ⟨x, -, hd⟩ := Option.bind_eq_some_iff.mp hd
          obtain ⟨args', hargs', rfl⟩ := Option.map_eq_some_iff.mp hd
          exact congrArg (v :: ·) (ih he hargs')

theorem dischargedRefs_subset : ∀ {invars : List Var} {should : List Bool} {r : RefVar},
    r ∈ dischargedRefs invars should → r ∈ refVars invars
  | .ref v :: invars, true :: should, r, hr => by
      rcases List.mem_cons.mp hr with rfl | hr
      · exact List.mem_cons_self
      · exact List.mem_cons_of_mem _ (dischargedRefs_subset hr)
  | .ref v :: invars, false :: should, r, hr =>
      List.mem_cons_of_mem _ (@dischargedRefs_subset invars should r hr)
  | .val _ :: invars, _ :: should, r, hr => @dischargedRefs_subset invars should r hr
  | [], _, _, hr => nomatch hr
  | .val _ :: _, [], _, hr => nomatch hr
  | .ref _ :: _, [], _, hr => nomatch hr

/-- The inputs that are discharged at the end, by the addresses that were passed. -/
theorem map_kept {invalidated : List RefVar} {invars : List Var} : ∀ {should : List Bool}
    {args : List (Arg V ℕ)} {env e : Env V ℕ}, env.writeArgs invars args = .ok e →
      should.length = invars.length → (refVars invars).Nodup →
        ((refVars invars).filter fun r =>
          r ∈ dischargedRefs invars should ∧ r ∉ invalidated).map e.refs =
            (keptArgs invalidated invars should args).map some := by
  induction invars with
  | nil =>
      intro should args env e he hlen hnodup
      cases should with
      | nil => rfl
      | cons => cases hlen
  | cons v invars ih =>
      intro should args env e he hlen hnodup
      rcases should with _ | ⟨d, should⟩
      · cases hlen
      rcases args with _ | ⟨a, args⟩
      · cases v <;> cases he
      rcases v with v | v <;> rcases a with x | a
      · exact ih he (Nat.succ.inj hlen) hnodup
      · cases he
      · cases he
      obtain ⟨hv, hnodup⟩ := List.nodup_cons.mp hnodup
      have ih := @ih should args (env.writeRef v a) e he (Nat.succ.inj hlen) hnodup
      have hself : e.refs v = some a := by
        rw [@writeArgs_of_not_mem V ℕ invars args (env.writeRef v a) e he v hv]
        simp [Env.writeRef]
      have hne : ∀ {r}, r ∈ refVars invars → r ≠ v := fun hr hrv => hv (hrv ▸ hr)
      cases d with
      | true =>
          have htail : (refVars invars).filter (fun r =>
              r ∈ dischargedRefs (.ref v :: invars) (true :: should) ∧ r ∉ invalidated) =
                (refVars invars).filter fun r => r ∈ dischargedRefs invars should ∧
                  r ∉ invalidated := by
            refine List.filter_congr fun r hr => decide_eq_decide.mpr ?_
            rw [dischargedRefs, List.mem_cons, or_iff_right (hne hr)]
          rw [refVars, List.filter_cons, htail, keptArgs]
          by_cases hinv : v ∈ invalidated
          · rw [if_pos hinv, if_neg (by simp [hinv]), ih]
          · rw [if_neg hinv, if_pos (by simp [dischargedRefs, hinv]), List.map_cons, List.map_cons,
              hself, ih]
      | false =>
          have hhead : v ∉ dischargedRefs invars should := fun h => hv (dischargedRefs_subset h)
          rw [refVars, List.filter_cons, if_neg (by simp [dischargedRefs, hhead])]
          exact ih

/-- **The discharged jaxpr.** On the contents of the discharged refs it returns what the jaxpr
returns, then what the jaxpr leaves in those refs that it neither freezes nor frees, and does to all
other refs what the jaxpr does. -/
theorem dischargeState_run {ops : Ops P T V} {jaxpr : Jaxpr P T V} {should : List Bool}
    {args : List (Arg V ℕ)} {args' : List (Arg V (Held V))} {h h1 : Heap V} {outs : List V}
    (hwf : jaxpr.WellFormed) (htracked : jaxpr.Tracked should)
    (hlen : should.length = jaxpr.invars.length) (hargs : (refArgs args).Nodup)
    (hcreated : ∀ a ∈ refArgs args, a < h.next) (hdischarge : dischargeArgs h should args = some args')
    (hrun : jaxpr.run ops args h = .ok (outs, h1)) :
    ∃ xs h1', dischargeState ops jaxpr should args' h = .ok ((outs ++ xs).map .contents, h1') ∧
      (keptArgs jaxpr.eqns.invalidated jaxpr.invars should args).map h1.cells = xs.map some ∧
      ∀ a < h.next, a ∉ maskedArgs should args → h1'.cells a = h1.cells a := by
  obtain ⟨env, henv, hrun⟩ := bind_ok.mp hrun
  have hstands : List.Forall₂ (Stands (fun a => a < h.next ∧ a ∉ maskedArgs should args) h) args
      args' := stands_dischargeArgs hdischarge hargs (fun a ha hothers => hothers.2 ha)
        fun a ha hnot => ⟨hcreated a ha, hnot⟩
  have hempty := @Simulates.empty V (fun a => a < h.next ∧ a ∉ maskedArgs should args) h h
    (fun a ha => ha.1) (fun _ _ => rfl) jaxpr.consts
  have hnew : ∀ a ∈ refArgs args, a < h.next ∧
      ∀ r, (Env.empty.writeConsts jaxpr.consts : Env V ℕ).refs r ≠ some a := by
    refine fun a ha => ⟨hcreated a ha, fun r hr => ?_⟩
    rw [Env.writeConsts_refs] at hr
    cases hr
  obtain ⟨env', refs, henv', hsim, hrefs⟩ := hempty.writeArgs hwf.1 (fun _ _ => List.not_mem_nil)
    hargs hnew hstands henv
  have hsim := hsim.of_mem fun r => show r ∈ dischargedRefs jaxpr.invars should ↔ _ by
    rw [hrefs, contentVars_dischargeArgs henv hdischarge]
    simp
  obtain ⟨xs, h1', hres, hkept, hagree⟩ := preserved ops _ jaxpr.eqns
    ⟨hwf.2, fun r a hr => (Env.inner_refs henv hr).1, fun _ hr => hr, htracked, hsim⟩ hrun
  refine ⟨xs, h1', bind_ok.mpr ⟨env', henv', hres⟩, ?_, fun a ha hnot => hagree a ⟨ha, hnot⟩⟩
  rw [← hkept]
  calc (keptArgs jaxpr.eqns.invalidated jaxpr.invars should args).map h1.cells
      = ((keptArgs jaxpr.eqns.invalidated jaxpr.invars should args).map some).map
          (Option.bind · h1.cells) := by
        rw [List.map_map]
        rfl
    _ = ((kept jaxpr.invars (dischargedRefs jaxpr.invars should) jaxpr.eqns).map env.refs).map
          (Option.bind · h1.cells) := by rw [← map_kept henv hlen hwf.1, kept]
    _ = (kept jaxpr.invars (dischargedRefs jaxpr.invars should) jaxpr.eqns).map
          (contentsOf env h1) := by
        rw [List.map_map]
        rfl

/-! ### A counter and a log -/

def wholeOps : Ops Unit Unit ℕ where
  eval _ xs := xs
  transform_array _ x _ := x
  transform_swap_array _ x _ y := (x, y)
  addupdate _ x _ y := x + y
  empty _ := 0

/-- Adds to a counter, which a call then reads and resets, through a ref of its own, and adds to a
log that is not discharged. -/
def countAndLog : Jaxpr Unit Unit ℕ where
  consts := []
  invars := [.val 0, .ref ⟨0, 0⟩, .ref ⟨1, 1⟩]
  eqns := .addupdate ⟨0, 0⟩ (.var 0) () [] <|
    .newRef (.lit 5) ⟨2, 2⟩ <|
    .closedCall [.ref ⟨0, 0⟩, .val (.lit 1)] [1] [] [.ref ⟨7, 7⟩, .val 3]
      (.swap ⟨7, 7⟩ (.var 3) () [] 4 (.done [.var 4])) <|
    .swap ⟨2, 2⟩ (.var 1) () [] 2 <|
    .addupdate ⟨1, 1⟩ (.var 2) () [] <|
    .freeze ⟨2, 2⟩ 3 <|
    .done [.var 3]

def countAndLogStore : Heap ℕ := ⟨fun a => if a = 0 then some 10 else some 20, 2⟩

theorem countAndLog_discharged : ∃ xs h1',
    dischargeState wholeOps countAndLog [false, true, false]
        [.val 7, .ref (.contents 10), .ref (.ref 1)] countAndLogStore =
      .ok (([17] ++ xs).map .contents, h1') ∧
    (keptArgs countAndLog.eqns.invalidated countAndLog.invars [false, true, false]
        [.val 7, .ref 0, .ref 1]).map
      ((((((countAndLogStore.write 0 17).alloc 5).write 0 1).write 2 17).write 1 25).free 2).cells =
        xs.map some ∧
    ∀ a < countAndLogStore.next,
      a ∉ maskedArgs [false, true, false] ([.val 7, .ref 0, .ref 1] : List (Arg ℕ ℕ)) →
        h1'.cells a = ((((((countAndLogStore.write 0 17).alloc 5).write 0 1).write 2 17).write 1
          25).free 2).cells a := by
  refine dischargeState_run ?_ ?_ rfl ?_ ?_ rfl rfl
  · simp [countAndLog, Jaxpr.WellFormed, Eqns.WellFormed, refVars, refOperands]
  · simp [countAndLog, Jaxpr.Tracked, Eqns.Tracked, Told, refVars, refOperands, dischargedRefs,
      refsToDischarge, Eqns.invalidated, Eqns.internalMutableArrayEffect]
  · decide
  · decide

-- an input that shares its aval object with a discharged one is taken to be discharged
example : dischargeState wholeOps
    ⟨[], [.ref ⟨0, 0⟩, .ref ⟨1, 0⟩], .addupdate ⟨1, 0⟩ (.lit 1) () [] (.done [])⟩ [true, false]
      [.ref (.contents 10), .ref (.ref 1)] countAndLogStore = .error .notAValue := rfl

end JaxDas.StateDischarge
