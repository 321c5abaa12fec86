import JaxDas.StateDischarge.Equations
import Mathlib.Data.List.Forall2
import Mathlib.Data.List.Nodup

/-!
# Discharging a call

A call that is given discharged refs runs on their contents, and what it returns for them is written
back by position. Any other call runs on the store of the interpreter.
-/

namespace JaxDas.StateDischarge

variable {P T V : Type} {others : ℕ → Prop} {discharged : List RefVar} {env : Env V ℕ} {h : Heap V}
  {env' : Env V (Held V)} {h' : Heap V}

/-! ## What a call is passed -/

theorem readHeld_ok (hsim : Simulates others discharged env h env' h') :
    ∀ {operands : List (Operand V)} {args : List (Arg V ℕ)},
      readOperands env h operands = .ok args →
        ∃ args', readHeld env' operands = .ok args' ∧ List.Forall₂ (Stands others h) args args'
  | [], args, hread => by
      injection hread with hread
      subst hread
      exact ⟨[], rfl, .nil⟩
  | .val b :: operands, args, hread => by
      obtain ⟨x, hx, hread⟩ := bind_ok.mp hread
      obtain ⟨rest, hrest, hread⟩ := bind_ok.mp hread
      injection hread with hread
      subst hread
      obtain ⟨args', hargs', hstands⟩ := readHeld_ok hsim hrest
      have hx' : env'.readAtom b = .ok x := (Env.readAtom_congr hsim.vals b).trans hx
      exact ⟨_, bind_ok.mpr ⟨x, hx', bind_ok.mpr ⟨args', hargs', rfl⟩⟩, .cons (.val x) hstands⟩
  | .ref r :: operands, args, hread => by
      obtain ⟨a, ha, hread⟩ := bind_ok.mp hread
      obtain ⟨x, hx, hread⟩ := bind_ok.mp hread
      obtain ⟨rest, hrest, hread⟩ := bind_ok.mp hread
      injection hread with hread
      subst hread
      obtain ⟨args', hargs', hstands⟩ := readHeld_ok hsim hrest
      by_cases hr : r ∈ discharged
      · obtain ⟨hheld, hothers⟩ := hsim.readRef_discharged hr ha hx
        exact ⟨_, bind_ok.mpr ⟨_, hheld, bind_ok.mpr ⟨args', hargs', rfl⟩⟩,
          .cons (.contents (found_ok.mp hx) hothers) hstands⟩
      · obtain ⟨hheld, hothers, -⟩ := hsim.readRef_passed hr ha hx
        exact ⟨_, bind_ok.mpr ⟨_, hheld, bind_ok.mpr ⟨args', hargs', rfl⟩⟩,
          .cons (.ref hothers) hstands⟩

/-- Refs that stand for themselves can be passed on. -/
theorem addresses_ok {args : List (Arg V ℕ)} {args' : List (Arg V (Held V))}
    (hstands : List.Forall₂ (Stands others h) args args') (hothers : ∀ a ∈ refArgs args, others a) :
    addresses args' = .ok args := by
  induction hstands with
  | nil => rfl
  | cons hstand _ ih =>
      cases hstand with
      | val x => exact bind_ok.mpr ⟨_, ih hothers, rfl⟩
      | contents _ ha => exact absurd (hothers _ List.mem_cons_self) ha
      | ref _ =>
          have ih := ih fun a ha => hothers a (List.mem_cons_of_mem _ ha)
          exact bind_ok.mpr ⟨_, rfl, bind_ok.mpr ⟨_, ih, rfl⟩⟩

theorem map_refOperands : ∀ {operands : List (Operand V)} {args : List (Arg V ℕ)},
    readOperands env h operands = .ok args →
      (refOperands operands).map env.refs = (refArgs args).map some
  | [], args, hread => by
      injection hread with hread
      subst hread
      rfl
  | .val b :: operands, args, hread => by
      obtain ⟨x, -, hread⟩ := bind_ok.mp hread
      obtain ⟨rest, hrest, hread⟩ := bind_ok.mp hread
      injection hread with hread
      subst hread
      exact @map_refOperands operands rest hrest
  | .ref r :: operands, args, hread => by
      obtain ⟨a, ha, hread⟩ := bind_ok.mp hread
      obtain ⟨x, -, hread⟩ := bind_ok.mp hread
      obtain ⟨rest, hrest, hread⟩ := bind_ok.mp hread
      injection hread with hread
      subst hread
      rw [refOperands, refArgs, List.map_cons, List.map_cons, found_ok.mp ha, map_refOperands hrest]

theorem mem_of_mem_refArgs {R : Type} : ∀ {args : List (Arg V R)} {a : R}, a ∈ refArgs args →
    .ref a ∈ args
  | .val _ :: args, _, ha => List.mem_cons_of_mem _ (@mem_of_mem_refArgs R args _ ha)
  | .ref b :: args, a, ha => by
      rcases List.mem_cons.mp ha with rfl | ha
      · exact List.mem_cons_self
      · exact List.mem_cons_of_mem _ (mem_of_mem_refArgs ha)

/-- A ref that is given to a call is alive. -/
theorem operand_alive {operands : List (Operand V)} {args : List (Arg V ℕ)}
    (hread : readOperands env h operands = .ok args) {r : RefVar} (hr : r ∈ refOperands operands) :
    ∃ a x, env.refs r = some a ∧ h.cells a = some x := by
  have hmem : env.refs r ∈ (refArgs args).map some := by
    rw [← map_refOperands hread]
    exact List.mem_map_of_mem hr
  obtain ⟨a, ha, hra⟩ := List.mem_map.mp hmem
  obtain ⟨-, -, -, x, hx⟩ := mem_readOperands hread (mem_of_mem_refArgs ha)
  exact ⟨a, x, hra.symm, hx⟩

theorem writeArgs_of_not_mem {R : Type} : ∀ {vars : List Var} {args : List (Arg V R)}
    {env e : Env V R}, env.writeArgs vars args = .ok e → ∀ {r : RefVar}, r ∉ refVars vars →
      e.refs r = env.refs r
  | [], [], env, e, he, r, _ => by
      injection he with he
      rw [he]
  | .val v :: vars, .val x :: args, env, e, he, r, hr =>
      @writeArgs_of_not_mem R vars args (env.writeVal v x) e he r hr
  | .ref v :: vars, .ref a :: args, env, e, he, r, hr => by
      obtain ⟨hrv, hr⟩ := not_or.mp (mt List.mem_cons.mpr hr)
      rw [@writeArgs_of_not_mem R vars args (env.writeRef v a) e he r hr]
      simp [Env.writeRef, hrv]
  | .val _ :: _, .ref _ :: _, _, _, he, _, _ => nomatch he
  | .ref _ :: _, .val _ :: _, _, _, he, _, _ => nomatch he
  | .val _ :: _, [], _, _, he, _, _ => nomatch he
  | .ref _ :: _, [], _, _, he, _, _ => nomatch he
  | [], _ :: _, _, _, he, _, _ => nomatch he

theorem map_refVars {R : Type} : ∀ {vars : List Var} {args : List (Arg V R)} {env e : Env V R},
    env.writeArgs vars args = .ok e → (refVars vars).Nodup →
      (refVars vars).map e.refs = (refArgs args).map some
  | [], [], _, _, _, _ => rfl
  | .val v :: vars, .val x :: args, env, e, he, hnodup =>
      @map_refVars R vars args (env.writeVal v x) e he hnodup
  | .ref v :: vars, .ref a :: args, env, e, he, hnodup => by
      obtain ⟨hv, hnodup⟩ := List.nodup_cons.mp hnodup
      have hself : e.refs v = some a := by
        rw [@writeArgs_of_not_mem V R vars args (env.writeRef v a) e he v hv]
        simp [Env.writeRef]
      rw [refVars, refArgs, List.map_cons, List.map_cons, hself,
        @map_refVars R vars args (env.writeRef v a) e he hnodup]
  | .val _ :: _, .ref _ :: _, _, _, he, _ => nomatch he
  | .ref _ :: _, .val _ :: _, _, _, he, _ => nomatch he
  | .val _ :: _, [], _, _, he, _ => nomatch he
  | .ref _ :: _, [], _, _, he, _ => nomatch he
  | [], _ :: _, _, _, he, _ => nomatch he

/-- When contents are passed for all refs, all ref variables are discharged. -/
theorem contentVars_eq : ∀ {vars : List Var} {args : List (Arg V ℕ)} {args' : List (Arg V (Held V))}
    {env e : Env V ℕ}, env.writeArgs vars args = .ok e → List.Forall₂ (Stands others h) args args' →
      (∀ a ∈ refArgs args, ¬ others a) → contentVars vars args' = refVars vars
  | [], [], _, _, _, _, .nil, _ => rfl
  | .val v :: vars, .val x :: args, _, env, e, he, .cons (.val _) hstands, hothers =>
      @contentVars_eq vars args _ (env.writeVal v x) e he hstands hothers
  | .ref v :: vars, .ref a :: args, _, env, e, he, .cons (.contents _ _) hstands, hothers =>
      congrArg (v :: ·) (@contentVars_eq vars args _ (env.writeRef v a) e he hstands
        fun b hb => hothers b (List.mem_cons_of_mem _ hb))
  | .ref _ :: _, .ref a :: _, _, _, _, _, .cons (.ref ha) _, hothers =>
      absurd ha (hothers a List.mem_cons_self)
  | .val _ :: _, .ref _ :: _, _, _, _, he, _, _ => nomatch he
  | .ref _ :: _, .val _ :: _, _, _, _, he, _, _ => nomatch he
  | .val _ :: _, [], _, _, _, he, _, _ => nomatch he
  | .ref _ :: _, [], _, _, _, he, _, _ => nomatch he
  | [], _ :: _, _, _, _, he, _, _ => nomatch he

/-- Different refs that are passed have different addresses. -/
theorem Simulates.nodup_refArgs (hsim : Simulates others discharged env h env' h')
    {operands : List (Operand V)} {args : List (Arg V ℕ)}
    (hread : readOperands env h operands = .ok args) (hnodup : (refOperands operands).Nodup) :
    (refArgs args).Nodup := by
  refine List.Nodup.of_map some ?_
  rw [← map_refOperands hread]
  refine hnodup.map_on fun r hr s hs heq => ?_
  have hmem : env.refs r ∈ (refArgs args).map some := by
    rw [← map_refOperands hread]
    exact List.mem_map_of_mem hr
  obtain ⟨a, -, ha⟩ := List.mem_map.mp hmem
  exact hsim.distinct r s a ha.symm (heq ▸ ha.symm)

/-! ## What a call returns -/

theorem mapM_length {α β ε : Type} {f : α → Except ε β} {l : List α} {r : List β}
    (h : l.mapM f = .ok r) : r.length = l.length := (mapM_ok h).length_eq.symm

theorem length_run {ops : Ops P T V} : ∀ {e : Eqns P T V} {env : Env V ℕ} {h h1 : Heap V}
    {outs : List V}, run ops e env h = .ok (outs, h1) → outs.length = e.numOuts := by
  intro e
  induction e with
  | done outvars =>
      intro env h h1 outs hrun
      obtain ⟨xs, hxs, hrun⟩ := bind_ok.mp hrun
      injection hrun with hrun
      obtain ⟨rfl, -⟩ := Prod.mk.inj hrun
      exact mapM_length hxs
  | pure prim invars outvars rest ih =>
      intro env h h1 outs hrun
      obtain ⟨xs, -, hrun⟩ := bind_ok.mp hrun
      obtain ⟨env', -, hrun⟩ := bind_ok.mp hrun
      exact ih hrun
  | get ref tree idx outvar rest ih =>
      intro env h h1 outs hrun
      obtain ⟨b, -, hrun⟩ := bind_ok.mp hrun
      obtain ⟨x, -, hrun⟩ := bind_ok.mp hrun
      obtain ⟨is, -, hrun⟩ := bind_ok.mp hrun
      exact ih hrun
  | swap ref val tree idx outvar rest ih =>
      intro env h h1 outs hrun
      obtain ⟨b, -, hrun⟩ := bind_ok.mp hrun
      obtain ⟨x, -, hrun⟩ := bind_ok.mp hrun
      obtain ⟨y, -, hrun⟩ := bind_ok.mp hrun
      obtain ⟨is, -, hrun⟩ := bind_ok.mp hrun
      exact ih hrun
  | addupdate ref val tree idx rest ih =>
      intro env h h1 outs hrun
      obtain ⟨b, -, hrun⟩ := bind_ok.mp hrun
      obtain ⟨x, -, hrun⟩ := bind_ok.mp hrun
      obtain ⟨y, -, hrun⟩ := bind_ok.mp hrun
      obtain ⟨is, -, hrun⟩ := bind_ok.mp hrun
      exact ih hrun
  | newRef init outvar rest ih =>
      intro env h h1 outs hrun
      obtain ⟨x, -, hrun⟩ := bind_ok.mp hrun
      exact ih hrun
  | emptyRef outvar rest ih =>
      intro env h h1 outs hrun
      exact ih hrun
  | freeze ref outvar rest ih =>
      intro env h h1 outs hrun
      obtain ⟨b, -, hrun⟩ := bind_ok.mp hrun
      obtain ⟨x, -, hrun⟩ := bind_ok.mp hrun
      exact ih hrun
  | freeRef ref rest ih =>
      intro env h h1 outs hrun
      obtain ⟨b, -, hrun⟩ := bind_ok.mp hrun
      obtain ⟨x, -, hrun⟩ := bind_ok.mp hrun
      exact ih hrun
  | closedCall operands outvars consts invars call rest ihcall ih =>
      intro env h h1 outs hrun
      obtain ⟨args, -, hrun⟩ := bind_ok.mp hrun
      obtain ⟨inner, -, hrun⟩ := bind_ok.mp hrun
      obtain ⟨⟨vs, h2⟩, -, hrun⟩ := bind_ok.mp hrun
      obtain ⟨env', -, hrun⟩ := bind_ok.mp hrun
      exact ih hrun

theorem contents_map : ∀ xs : List V, contents (xs.map .contents) = .ok xs
  | [] => rfl
  | _ :: xs => bind_ok.mpr ⟨_, rfl, bind_ok.mpr ⟨_, contents_map xs, rfl⟩⟩

theorem writeInvals_ok {ids : List ℕ} {f : RefVar → Option V} :
    ∀ {refs : List RefVar} {xs : List V} {env' : Env V (Held V)}, refs.Nodup →
      (∀ r ∈ refs, r.aval ∈ ids) → refs.map f = xs.map some →
        ∃ e', writeInvals env' ids (refs.zip (xs.map .contents)) = .ok e' ∧ e'.vals = env'.vals ∧
          (∀ r ∈ refs, e'.refs r = (f r).map .contents) ∧ ∀ r ∉ refs, e'.refs r = env'.refs r
  | [], [], env', _, _, _ => ⟨env', rfl, rfl, by simp, fun _ _ => rfl⟩
  | [], _ :: _, _, _, _, hmap => nomatch hmap
  | _ :: _, [], _, _, _, hmap => nomatch hmap
  | r :: refs, x :: xs, env', hnodup, hids, hmap => by
      obtain ⟨hr, hnodup⟩ := List.nodup_cons.mp hnodup
      obtain ⟨hfr, hmap⟩ := List.cons.inj hmap
      obtain ⟨e', he', hvals, hin, hout⟩ := @writeInvals_ok ids f refs xs
        (env'.writeRef r (.contents x)) hnodup (fun s hs => hids s (List.mem_cons_of_mem _ hs)) hmap
      refine ⟨e', ?_, hvals, ?_, ?_⟩
      · rw [List.map_cons, List.zip_cons_cons, writeInvals, if_pos (hids r List.mem_cons_self)]
        exact he'
      · intro s hs
        rcases List.mem_cons.mp hs with rfl | hs
        · rw [hout s hr, hfr]
          simp [Env.writeRef]
        · exact hin s hs
      · intro s hs
        obtain ⟨hsr, hs⟩ := not_or.mp (mt List.mem_cons.mpr hs)
        rw [hout s hs]
        simp [Env.writeRef, hsr]

/-- After a call. The refs that it was discharged with are written, all others are as they were. -/
theorem Simulates.afterCall (hsim : Simulates others discharged env h env' h') {refs : List RefVar}
    {e' : Env V (Held V)} {h2 h2' : Heap V} (hnext : h.next ≤ h2.next)
    (hframe : ∀ r ∈ discharged, r ∉ refs → ∀ a, env.refs r = some a → h2.cells a = h.cells a)
    (hlive : ∀ r a, env.refs r = some a → r ∉ discharged → h2.cells a ≠ none → h.cells a ≠ none)
    (hrefs : ∀ r ∈ refs, r ∈ discharged) (halive : ∀ r ∈ refs, contentsOf env h2 r ≠ none)
    (hvals : e'.vals = env'.vals)
    (hin : ∀ r ∈ refs, e'.refs r = (contentsOf env h2 r).map .contents)
    (hout : ∀ r ∉ refs, e'.refs r = env'.refs r) (hagree : h2.Agree others h2') :
    Simulates others discharged env h2 e' h2' where
  vals := hvals.trans hsim.vals
  distinct := hsim.distinct
  created := fun r a ha => Nat.lt_of_lt_of_le (hsim.created r a ha) hnext
  contents := by
    intro r hr
    obtain ⟨a, x, ha, hx, hheld, hothers⟩ := hsim.contents r hr
    by_cases hmem : r ∈ refs
    · have hcell : contentsOf env h2 r = h2.cells a := by rw [contentsOf, ha, Option.bind_some]
      obtain ⟨y, hy⟩ := Option.ne_none_iff_exists'.mp (halive r hmem)
      exact ⟨a, y, ha, hcell.symm.trans hy, by rw [hin r hmem, hy]; rfl, hothers⟩
    · exact ⟨a, x, ha, by rw [hframe r hr hmem a ha, hx], by rw [hout r hmem, hheld], hothers⟩
  passed := by
    intro r a ha hr halive
    rw [hout r fun hmem => hr (hrefs r hmem)]
    exact hsim.passed r a ha hr (hlive r a ha hr halive)
  below := fun a ha => Nat.lt_of_lt_of_le (hsim.below a ha) hnext
  agree := hagree

/-! ## Calls -/

section Call

variable {ops : Ops P T V} {rest : Eqns P T V} {operands : List (Operand V)} {outvars : List ℕ} {consts : List (ℕ × V)} {ins invars : List Var}
  {call : Eqns P T V} {bound : List RefVar} {ids : List ℕ} {args : List (Arg V ℕ)} {inner : Env V ℕ}
  {h2 : Heap V} {vs : List V}

/-- A call leaves the refs that it is not given as they are. -/
theorem Simulates.callFrame (hsim : Simulates others discharged env h env' h')
    (hargs : readOperands env h operands = .ok args)
    (hinner : (Env.empty.writeConsts consts).writeArgs ins args = .ok inner)
    (hcall : run ops call inner h = .ok (vs, h2)) {r : RefVar} {a : ℕ} (hr : env.refs r = some a)
    (hnot : r ∉ refOperands operands) : h2.cells a = h.cells a := by
  refine (run_frame hcall).2 a (hsim.created r a hr) fun s hs => ?_
  obtain ⟨-, hmem⟩ := Env.inner_refs hinner hs
  obtain ⟨t, ht, hta, -⟩ := mem_readOperands hargs hmem
  exact hnot (hsim.distinct r t a hr hta ▸ ht)

theorem discharges_call_iff (htold : ∀ r ∈ refOperands operands, Told ids discharged r) :
    ((refOperands operands).any (fun r => r.aval ∈ ids) || call.internalMutableArrayEffect) = true ↔
      (∃ r ∈ refOperands operands, r ∈ discharged) ∨ call.internalMutableArrayEffect = true := by
  rw [Bool.or_eq_true, List.any_eq_true]
  refine or_congr_left (exists_congr fun r => and_congr_right fun hr => ?_)
  rw [decide_eq_true_eq]
  exact htold r hr

/-- The equations of the call on the contents of its refs. -/
theorem Preserved.call_inner (ihcall : Preserved ops others call)
    (hsim : Simulates others discharged env h env' h')
    (hargs : readOperands env h operands = .ok args) {args' : List (Arg V (Held V))}
    (hstands : List.Forall₂ (Stands others h) args args')
    (hinner : (Env.empty.writeConsts consts).writeArgs ins args = .ok inner)
    (hcall : run ops call inner h = .ok (vs, h2)) (hops : (refOperands operands).Nodup)
    (hins : (refVars ins).Nodup) (hwf : call.WellFormed (refVars ins))
    (hall : ∀ r ∈ refOperands operands, r ∈ discharged)
    (hkeep : ∀ r ∈ refVars ins, r ∉ call.invalidated)
    (htracked : call.Tracked (refVars ins) (refVars ins) ((refVars ins).map RefVar.aval)) :
    ∃ inner' xs h2', (Env.empty.writeConsts consts).writeArgs ins args' = .ok inner' ∧
      evalJaxprDischargeState ops ins call inner' ((refVars ins).map RefVar.aval) h' =
        .ok ((vs ++ xs).map .contents, h2') ∧
      (refOperands operands).map (contentsOf env h2) = xs.map some ∧ h2.Agree others h2' := by
  have hothers : ∀ a ∈ refArgs args, ¬ others a := by
    intro a ha
    obtain ⟨r, hr, hra, -⟩ := mem_readOperands hargs (mem_of_mem_refArgs ha)
    obtain ⟨b, x, hrb, -, -, hb⟩ := hsim.contents r (hall r hr)
    exact Option.some.inj (hra.symm.trans hrb) ▸ hb
  have hnew : ∀ a ∈ refArgs args, a < h.next ∧
      ∀ r, (Env.empty.writeConsts consts : Env V ℕ).refs r ≠ some a := by
    intro a ha
    obtain ⟨r, -, hra, -⟩ := mem_readOperands hargs (mem_of_mem_refArgs ha)
    refine ⟨hsim.created r a hra, fun s hs => ?_⟩
    rw [Env.writeConsts_refs] at hs
    cases hs
  obtain ⟨inner', refs, hinner', hsim', hrefs⟩ := (Simulates.empty hsim.below hsim.agree
    consts).writeArgs hins (fun _ _ => List.not_mem_nil) (hsim.nodup_refArgs hargs hops) hnew hstands
      hinner
  have hsim' : Simulates others (refVars ins) inner h inner' h' := by
    refine hsim'.of_mem fun r => ?_
    rw [hrefs, contentVars_eq hinner hstands hothers]
    simp
  obtain ⟨xs, h2', hres, hkept, hagree⟩ := ihcall
    ⟨hwf, fun r a hr => (Env.inner_refs hinner hr).1, fun _ hr => hr, htracked, hsim'⟩ hcall
  refine ⟨inner', xs, h2', hinner', hres, ?_, hagree⟩
  have hkeptAll : kept ins (refVars ins) call = refVars ins :=
    List.filter_eq_self.mpr fun r hr => decide_eq_true ⟨hr, hkeep r hr⟩
  calc (refOperands operands).map (contentsOf env h2)
      = ((refOperands operands).map env.refs).map (Option.bind · h2.cells) := by
        rw [List.map_map]
        rfl
    _ = ((refVars ins).map inner.refs).map (Option.bind · h2.cells) := by
        rw [map_refOperands hargs, map_refVars hinner hins]
    _ = (refVars ins).map (contentsOf inner h2) := by
        rw [List.map_map]
        rfl
    _ = xs.map some := by rw [← hkept, hkeptAll]

theorem preserved_closedCall (ihcall : Preserved ops others call) (ih : Preserved ops others rest)
    (operands : List (Operand V)) (outvars : List ℕ) (consts : List (ℕ × V)) (ins : List Var) :
    Preserved ops others (.closedCall operands outvars consts ins call rest) := by
  intro invars bound discharged ids env h env' h' h1 outs hready hrun
  obtain ⟨args, hargs, hrun⟩ := bind_ok.mp hrun
  obtain ⟨inner, hinner, hrun⟩ := bind_ok.mp hrun
  obtain ⟨⟨vs, h2⟩, hcall, hrun⟩ := bind_ok.mp hrun
  obtain ⟨env2, henv2, hrun⟩ := bind_ok.mp hrun
  obtain ⟨hops, hins, hwfcall, hwf⟩ := hready.wellFormed
  obtain ⟨htold, hcond, htracked⟩ := hready.tracked
  have hsim := hready.simulates
  obtain ⟨args', hargs', hstands⟩ := readHeld_ok hsim hargs
  have hnext := (run_frame hcall).1
  have hframe : ∀ r a, env.refs r = some a → r ∉ refOperands operands → h2.cells a = h.cells a :=
    fun r a hr hnot => hsim.callFrame hargs hinner hcall hr hnot
  by_cases hc : (∃ r ∈ refOperands operands, r ∈ discharged) ∨ call.internalMutableArrayEffect = true
  · obtain ⟨hall, hkeep, htrackedcall⟩ := hcond hc
    obtain ⟨inner', xs, h2', hinner', hres, hfinal, hagree⟩ := ihcall.call_inner hsim hargs hstands
      hinner hcall hops hins hwfcall hall hkeep htrackedcall
    have hids : ∀ r ∈ refOperands operands, r.aval ∈ ids := fun r hr => (htold r hr).mpr (hall r hr)
    obtain ⟨env3', hinvals, hvals, hin, hout⟩ := @writeInvals_ok V ids _ _ _ env' hops hids hfinal
    have halive : ∀ r ∈ refOperands operands, contentsOf env h2 r ≠ none := by
      intro r hr hnone
      have hmem : contentsOf env h2 r ∈ xs.map some := hfinal ▸ List.mem_map_of_mem hr
      obtain ⟨x, -, hx⟩ := List.mem_map.mp hmem
      exact absurd (hx.trans hnone) (by simp)
    have hsim2 : Simulates others discharged env h2 env3' h2' :=
      hsim.afterCall hnext (fun r _ hnot a hr => hframe r a hr hnot)
        (fun r a hr hnot hlive => hframe r a hr (fun hmem => hnot (hall r hmem)) ▸ hlive) hall halive
        hvals hin hout hagree
    obtain ⟨env2', henv2', hsim3⟩ := hsim2.writeVals henv2
    have hready' := hready.next rest hwf htracked hsim3 (Env.writeVals_refs henv2)
    refine (ih hready' hrun).of_rest ?_ (fun r _ => congrFun (Env.writeVals_refs henv2) r)
      (fun _ _ => Iff.rfl)
    have hlen : (vs.map Held.contents).length = call.numOuts := by
      rw [List.length_map, length_run hcall]
    have hrefs : (refOperands operands).length = (xs.map Held.contents).length := by
      simpa using congrArg List.length hfinal
    have hnewInvals : newInvals (refOperands operands) (xs.map Held.contents) =
        .ok ((refOperands operands).zip (xs.map .contents)) := by
      rw [newInvals, if_neg (by omega), if_neg (by omega)]
    rw [evalJaxprDischargeState, hargs', ok_bind, if_pos ((discharges_call_iff htold).mpr hc),
      hinner', ok_bind, hres, ok_bind, List.map_append, List.take_left' hlen, List.drop_left' hlen,
      contents_map, ok_bind, hnewInvals, ok_bind, hinvals, ok_bind, henv2', ok_bind]
  · obtain ⟨hnone, heffect⟩ := not_or.mp hc
    have hnone : ∀ r ∈ refOperands operands, r ∉ discharged := fun r hr hd => hnone ⟨r, hr, hd⟩
    have hpassed : ∀ {a}, .ref a ∈ args → others a := by
      intro a ha
      obtain ⟨s, hs, hsa, x, hx⟩ := mem_readOperands hargs ha
      exact (hsim.passed s a hsa (hnone s hs) (by rw [hx]; simp)).2
    have haddresses : addresses args' = .ok args :=
      addresses_ok hstands fun a ha => hpassed (mem_of_mem_refArgs ha)
    obtain ⟨h2', hcall', hagree⟩ := run_agree (by simpa using heffect)
      (fun r a hr => hpassed (Env.inner_refs hinner hr).2) hsim.agree hcall
    have hlive : ∀ r a, env.refs r = some a → r ∉ discharged → h2.cells a ≠ none →
        h.cells a ≠ none := by
      intro r a hr _ halive
      by_cases hmem : r ∈ refOperands operands
      · obtain ⟨b, x, hrb, hx⟩ := operand_alive hargs hmem
        rw [Option.some.inj (hr.symm.trans hrb), hx]
        exact Option.some_ne_none x
      · exact hframe r a hr hmem ▸ halive
    have hsim2 : Simulates others discharged env h2 env' h2' :=
      @Simulates.afterCall _ _ _ _ _ _ _ hsim [] _ _ _ hnext
        (fun r hr _ a ha => hframe r a ha fun hmem => hnone r hmem hr) hlive
        (fun _ hr => absurd hr List.not_mem_nil) (fun _ hr => absurd hr List.not_mem_nil) rfl
        (fun _ hr => absurd hr List.not_mem_nil)
        (fun _ _ => rfl) hagree
    obtain ⟨env2', henv2', hsim3⟩ := hsim2.writeVals henv2
    have hready' := hready.next rest hwf htracked hsim3 (Env.writeVals_refs henv2)
    refine (ih hready' hrun).of_rest ?_ (fun r _ => congrFun (Env.writeVals_refs henv2) r)
      (fun _ _ => Iff.rfl)
    rw [evalJaxprDischargeState, hargs', ok_bind, if_neg (mt (discharges_call_iff htold).mp hc),
      haddresses, ok_bind, hinner, ok_bind, hcall', ok_bind, henv2', ok_bind]

end Call

end JaxDas.StateDischarge
