import JaxDas.StateDischarge.Simulation

/-!
# Discharging one equation after the other

The interpreter and the run on a mutable store take the same step, whether the ref of the equation is
discharged or not. The equations end with the values of the inputs that are still discharged.
-/

namespace JaxDas.StateDischarge

variable {P T V : Type} {others : ℕ → Prop} {discharged : List RefVar} {env : Env V ℕ} {h : Heap V}
  {env' : Env V (Held V)} {h' : Heap V}

/-! ## The end of the equations -/

/-- What a ref contains. -/
def contentsOf (env : Env V ℕ) (h : Heap V) (r : RefVar) : Option V := (env.refs r).bind h.cells

theorem Simulates.refVals (hsim : Simulates others discharged env h env' h') :
    ∀ {refs : List RefVar}, (∀ r ∈ refs, r ∈ discharged) →
      ∃ xs : List V, refs.mapM env'.readRef = .ok (xs.map .contents) ∧
        refs.map (contentsOf env h) = xs.map some
  | [], _ => ⟨[], rfl, rfl⟩
  | r :: refs, hrefs => by
      obtain ⟨xs, hxs, hcontents⟩ := hsim.refVals fun s hs => hrefs s (List.mem_cons_of_mem _ hs)
      obtain ⟨a, x, ha, hx, hheld, -⟩ := hsim.contents r (hrefs r List.mem_cons_self)
      refine ⟨x :: xs, ?_, ?_⟩
      · rw [List.mapM_cons]
        exact bind_ok.mpr ⟨_, found_ok.mpr hheld, bind_ok.mpr ⟨_, hxs, rfl⟩⟩
      · rw [List.map_cons, List.map_cons, hcontents, contentsOf, ha, Option.bind_some, hx]

/-- The inputs that are discharged at the end. -/
def kept (invars : List Var) (discharged : List RefVar) (e : Eqns P T V) : List RefVar :=
  (refVars invars).filter fun r => r ∈ discharged ∧ r ∉ e.invalidated

theorem kept_congr {invars : List Var} {refs : List RefVar} {e e' : Eqns P T V}
    (hiff : ∀ r ∈ refVars invars, (r ∈ discharged ∧ r ∉ e.invalidated) ↔
      (r ∈ refs ∧ r ∉ e'.invalidated)) : kept invars discharged e = kept invars refs e' :=
  List.filter_congr fun r hr => decide_eq_decide.mpr (hiff r hr)

theorem mem_kept {invars : List Var} {e : Eqns P T V} {r : RefVar}
    (hr : r ∈ kept invars discharged e) : r ∈ refVars invars := (List.mem_filter.mp hr).1

/-! ## Steps -/

/-- Where the interpreter stands before some equations. -/
structure Ready (others : ℕ → Prop) (invars : List Var) (e : Eqns P T V) (bound discharged : List RefVar)
    (ids : List ℕ) (env : Env V ℕ) (h : Heap V) (env' : Env V (Held V)) (h' : Heap V) : Prop where
  wellFormed : e.WellFormed bound
  within : ∀ r a, env.refs r = some a → r ∈ bound
  inputs : ∀ r ∈ refVars invars, r ∈ bound
  tracked : e.Tracked (refVars invars) discharged ids
  simulates : Simulates others discharged env h env' h'

/-- What the interpreter returns for a run of some equations. -/
def Returns (ops : Ops P T V) (others : ℕ → Prop) (invars : List Var) (e : Eqns P T V)
    (discharged : List RefVar) (ids : List ℕ) (env : Env V ℕ) (env' : Env V (Held V)) (h' : Heap V)
    (outs : List V) (h1 : Heap V) : Prop :=
  ∃ xs h1', evalJaxprDischargeState ops invars e env' ids h' =
      .ok ((outs ++ xs).map Held.contents, h1') ∧
    (kept invars discharged e).map (contentsOf env h1) = xs.map some ∧ h1.Agree others h1'

/-- Discharging the equations preserves their runs. -/
def Preserved (ops : Ops P T V) (others : ℕ → Prop) (e : Eqns P T V) : Prop :=
  ∀ {invars : List Var} {bound discharged : List RefVar} {ids : List ℕ} {env : Env V ℕ} {h : Heap V}
    {env' : Env V (Held V)} {h' h1 : Heap V} {outs : List V},
    Ready others invars e bound discharged ids env h env' h' → run ops e env h = .ok (outs, h1) →
      Returns ops others invars e discharged ids env env' h' outs h1

variable {ops : Ops P T V} {rest : Eqns P T V}

/-- The inputs keep their addresses, and the same ones are discharged at the end. -/
theorem Returns.of_rest {invars : List Var} {e : Eqns P T V} {refs : List RefVar} {ids ids' : List ℕ}
    {env2 : Env V ℕ} {env2' : Env V (Held V)} {h2' h1 : Heap V} {outs : List V}
    (hrest : Returns ops others invars rest refs ids' env2 env2' h2' outs h1)
    (heval : evalJaxprDischargeState ops invars e env' ids h' =
      evalJaxprDischargeState ops invars rest env2' ids' h2')
    (hrefs : ∀ r ∈ refVars invars, env2.refs r = env.refs r)
    (hiff : ∀ r ∈ refVars invars, (r ∈ discharged ∧ r ∉ e.invalidated) ↔
      (r ∈ refs ∧ r ∉ rest.invalidated)) :
    Returns ops others invars e discharged ids env env' h' outs h1 := by
  obtain ⟨xs, h1', hres, hkept, hagree⟩ := hrest
  refine ⟨xs, h1', heval.trans hres, ?_, hagree⟩
  rw [kept_congr hiff, ← hkept]
  refine List.map_congr_left fun r hr => ?_
  rw [contentsOf, contentsOf, hrefs r (mem_kept hr)]

theorem Ready.next {invars : List Var} {e : Eqns P T V} {bound refs : List RefVar}
    {ids ids' : List ℕ} {env2 : Env V ℕ} {h2 : Heap V} {env2' : Env V (Held V)} {h2' : Heap V}
    (hready : Ready others invars e bound discharged ids env h env' h') (rest : Eqns P T V)
    (hwf : rest.WellFormed bound) (htracked : rest.Tracked (refVars invars) refs ids')
    (hsim : Simulates others refs env2 h2 env2' h2') (hrefs : env2.refs = env.refs) :
    Ready others invars rest bound refs ids' env2 h2 env2' h2' where
  wellFormed := hwf
  within := fun r a hr => hready.within r a (hrefs ▸ hr)
  inputs := hready.inputs
  tracked := htracked
  simulates := hsim

section Steps

attribute [local simp] evalJaxprDischargeState run Eqns.invalidated

theorem preserved_done (outvars : List (Atom V)) :
    Preserved ops others (.done outvars : Eqns P T V) := by
  intro invars bound discharged ids env h env' h' h1 outs hready hrun
  obtain ⟨ys, hys, hrun⟩ := bind_ok.mp hrun
  injection hrun with hrun
  obtain ⟨rfl, rfl⟩ := Prod.mk.inj hrun
  have hsim := hready.simulates
  have hkept : kept invars discharged (.done outvars : Eqns P T V) =
      (refVars invars).filter fun v => v.aval ∈ ids := by
    refine List.filter_congr fun r hr => decide_eq_decide.mpr ?_
    have htold : r.aval ∈ ids ↔ r ∈ discharged := hready.tracked r hr
    rw [htold]
    exact ⟨And.left, fun hd => ⟨hd, List.not_mem_nil⟩⟩
  obtain ⟨xs, hxs, hcontents⟩ := hsim.refVals fun r hr =>
    (of_decide_eq_true (List.mem_filter.mp hr).2 :
      r ∈ discharged ∧ r ∉ (Eqns.done outvars : Eqns P T V).invalidated).1
  refine ⟨xs, h', ?_, hcontents, hsim.agree⟩
  have hys' : env'.readAtoms outvars = .ok ys := (Env.readAtoms_congr hsim.vals outvars).trans hys
  rw [List.map_append]
  exact bind_ok.mpr ⟨ys, hys', bind_ok.mpr ⟨_, hkept ▸ hxs, rfl⟩⟩

theorem preserved_pure (ih : Preserved ops others rest) (prim : P) (invars' : List (Atom V))
    (outvars : List ℕ) : Preserved ops others (.pure prim invars' outvars rest) := by
  intro invars bound discharged ids env h env' h' h1 outs hready hrun
  obtain ⟨xs, hxs, hrun⟩ := bind_ok.mp hrun
  obtain ⟨env2, henv2, hrun⟩ := bind_ok.mp hrun
  obtain ⟨env2', henv2', hsim⟩ := hready.simulates.writeVals henv2
  have hrefs := Env.writeVals_refs henv2
  have hxs' := (Env.readAtoms_congr hready.simulates.vals invars').trans hxs
  have hready' := hready.next rest hready.wellFormed hready.tracked hsim hrefs
  refine (ih hready' hrun).of_rest ?_ (fun r _ => congrFun hrefs r) (fun _ _ => Iff.rfl)
  rw [evalJaxprDischargeState, hxs', ok_bind, henv2', ok_bind]

theorem preserved_get (ih : Preserved ops others rest) (ref : RefVar) (tree : T)
    (idx : List (Atom V)) (outvar : ℕ) : Preserved ops others (.get ref tree idx outvar rest) := by
  intro invars bound discharged ids env h env' h' h1 outs hready hrun
  obtain ⟨a, ha, hrun⟩ := bind_ok.mp hrun
  obtain ⟨x, hx, hrun⟩ := bind_ok.mp hrun
  obtain ⟨is, his, hrun⟩ := bind_ok.mp hrun
  obtain ⟨htold, htracked⟩ := hready.tracked
  have hsim := hready.simulates
  have his' := (Env.readAtoms_congr hsim.vals idx).trans his
  have hready' : Ready others invars rest bound discharged ids
      (env.writeVal outvar (ops.transform_array tree x is)) h
      (env'.writeVal outvar (ops.transform_array tree x is)) h' :=
    hready.next rest hready.wellFormed htracked (hsim.writeVal _ _) rfl
  refine (ih hready' hrun).of_rest ?_ (fun _ _ => rfl) (fun _ _ => Iff.rfl)
  by_cases hr : ref ∈ discharged
  · obtain ⟨hheld, -⟩ := hsim.readRef_discharged hr ha hx
    rw [evalJaxprDischargeState, hheld, ok_bind, if_pos (htold.mpr hr), Held.read, ok_bind, his',
      ok_bind]
  · obtain ⟨hheld, -, hx'⟩ := hsim.readRef_passed hr ha hx
    rw [evalJaxprDischargeState, hheld, ok_bind, if_neg (mt htold.mp hr), Held.address, ok_bind, hx',
      ok_bind, his', ok_bind]

theorem preserved_swap (ih : Preserved ops others rest) (ref : RefVar) (val : Atom V) (tree : T)
    (idx : List (Atom V)) (outvar : ℕ) :
    Preserved ops others (.swap ref val tree idx outvar rest) := by
  intro invars bound discharged ids env h env' h' h1 outs hready hrun
  obtain ⟨a, ha, hrun⟩ := bind_ok.mp hrun
  obtain ⟨x, hx, hrun⟩ := bind_ok.mp hrun
  obtain ⟨y, hy, hrun⟩ := bind_ok.mp hrun
  obtain ⟨is, his, hrun⟩ := bind_ok.mp hrun
  obtain ⟨htold, htracked⟩ := hready.tracked
  have hsim := hready.simulates
  have hy' := (Env.readAtom_congr hsim.vals val).trans hy
  have his' := (Env.readAtoms_congr hsim.vals idx).trans his
  by_cases hr : ref ∈ discharged
  · obtain ⟨hheld, hothers⟩ := hsim.readRef_discharged hr ha hx
    have hready' := hready.next rest hready.wellFormed htracked
      ((hsim.write_discharged hr (found_ok.mp ha) hothers
        (ops.transform_swap_array tree x is y).2).writeVal outvar
          (ops.transform_swap_array tree x is y).1) rfl
    refine (ih hready' hrun).of_rest ?_ (fun _ _ => rfl) (fun _ _ => Iff.rfl)
    rw [evalJaxprDischargeState, hheld, ok_bind, if_pos (htold.mpr hr), Held.read, ok_bind, hy',
      ok_bind, his', ok_bind]
  · obtain ⟨hheld, -, hx'⟩ := hsim.readRef_passed hr ha hx
    have hready' := hready.next rest hready.wellFormed htracked
      ((hsim.write_passed hr (found_ok.mp ha) (found_ok.mp hx)
        (ops.transform_swap_array tree x is y).2).writeVal outvar
          (ops.transform_swap_array tree x is y).1) rfl
    refine (ih hready' hrun).of_rest ?_ (fun _ _ => rfl) (fun _ _ => Iff.rfl)
    rw [evalJaxprDischargeState, hheld, ok_bind, if_neg (mt htold.mp hr), Held.address, ok_bind, hx',
      ok_bind, hy', ok_bind, his', ok_bind]

theorem preserved_addupdate (ih : Preserved ops others rest) (ref : RefVar) (val : Atom V) (tree : T)
    (idx : List (Atom V)) : Preserved ops others (.addupdate ref val tree idx rest) := by
  intro invars bound discharged ids env h env' h' h1 outs hready hrun
  obtain ⟨a, ha, hrun⟩ := bind_ok.mp hrun
  obtain ⟨x, hx, hrun⟩ := bind_ok.mp hrun
  obtain ⟨y, hy, hrun⟩ := bind_ok.mp hrun
  obtain ⟨is, his, hrun⟩ := bind_ok.mp hrun
  obtain ⟨htold, htracked⟩ := hready.tracked
  have hsim := hready.simulates
  have hy' := (Env.readAtom_congr hsim.vals val).trans hy
  have his' := (Env.readAtoms_congr hsim.vals idx).trans his
  by_cases hr : ref ∈ discharged
  · obtain ⟨hheld, hothers⟩ := hsim.readRef_discharged hr ha hx
    have hready' := hready.next rest hready.wellFormed htracked
      (hsim.write_discharged hr (found_ok.mp ha) hothers (ops.addupdate tree x is y)) rfl
    refine (ih hready' hrun).of_rest ?_ (fun _ _ => rfl) (fun _ _ => Iff.rfl)
    rw [evalJaxprDischargeState, hheld, ok_bind, if_pos (htold.mpr hr), Held.read, ok_bind, hy',
      ok_bind, his', ok_bind]
  · obtain ⟨hheld, -, hx'⟩ := hsim.readRef_passed hr ha hx
    have hready' := hready.next rest hready.wellFormed htracked
      (hsim.write_passed hr (found_ok.mp ha) (found_ok.mp hx) (ops.addupdate tree x is y)) rfl
    refine (ih hready' hrun).of_rest ?_ (fun _ _ => rfl) (fun _ _ => Iff.rfl)
    rw [evalJaxprDischargeState, hheld, ok_bind, if_neg (mt htold.mp hr), Held.address, ok_bind, hx',
      ok_bind, hy', ok_bind, his', ok_bind]

/-- A ref that is created is none of the inputs. -/
theorem Ready.create {invars : List Var} {e : Eqns P T V} {bound : List RefVar} {ids : List ℕ}
    {outvar : RefVar} (hready : Ready others invars e bound discharged ids env h env' h')
    (hnew : outvar ∉ bound) (hwf : rest.WellFormed (outvar :: bound))
    (htracked : rest.Tracked (refVars invars) (outvar :: discharged) (outvar.aval :: ids)) (x : V) :
    Ready others invars rest (outvar :: bound) (outvar :: discharged) (outvar.aval :: ids)
        (env.writeRef outvar h.next) (h.alloc x) (env'.writeRef outvar (.contents x)) h' ∧
      ∀ r ∈ refVars invars, r ≠ outvar := by
  refine ⟨⟨hwf, ?_, ?_, htracked, hready.simulates.alloc outvar x⟩, ?_⟩
  · intro r a hr
    by_cases hro : r = outvar
    · exact hro ▸ List.mem_cons_self
    · have hr : env.refs r = some a := by simpa [Env.writeRef, hro] using hr
      exact List.mem_cons_of_mem _ (hready.within r a hr)
  · exact fun r hr => List.mem_cons_of_mem _ (hready.inputs r hr)
  · exact fun r hr hro => hnew (hro ▸ hready.inputs r hr)

theorem preserved_newRef (ih : Preserved ops others rest) (init : Atom V) (outvar : RefVar) :
    Preserved ops others (.newRef init outvar rest) := by
  intro invars bound discharged ids env h env' h' h1 outs hready hrun
  obtain ⟨x, hx, hrun⟩ := bind_ok.mp hrun
  obtain ⟨hnew, hwf⟩ := hready.wellFormed
  have hx' := (Env.readAtom_congr hready.simulates.vals init).trans hx
  obtain ⟨hready', hne⟩ := hready.create hnew hwf hready.tracked x
  refine (ih hready' hrun).of_rest ?_ ?_ ?_
  · rw [evalJaxprDischargeState, hx', ok_bind]
  · intro r hr
    simp [Env.writeRef, hne r hr]
  · intro r hr
    simp [Eqns.invalidated, hne r hr]

theorem preserved_emptyRef (ih : Preserved ops others rest) (outvar : RefVar) :
    Preserved ops others (.emptyRef outvar rest) := by
  intro invars bound discharged ids env h env' h' h1 outs hready hrun
  obtain ⟨hnew, hwf⟩ := hready.wellFormed
  obtain ⟨hready', hne⟩ := hready.create hnew hwf hready.tracked (ops.empty outvar.aval)
  refine (ih hready' hrun).of_rest rfl ?_ ?_
  · intro r hr
    simp [Env.writeRef, hne r hr]
  · intro r hr
    simp [Eqns.invalidated, hne r hr]

theorem preserved_freeze (ih : Preserved ops others rest) (ref : RefVar) (outvar : ℕ) :
    Preserved ops others (.freeze ref outvar rest) := by
  intro invars bound discharged ids env h env' h' h1 outs hready hrun
  obtain ⟨a, ha, hrun⟩ := bind_ok.mp hrun
  obtain ⟨x, hx, hrun⟩ := bind_ok.mp hrun
  obtain ⟨hr, hid, htracked⟩ := hready.tracked
  obtain ⟨hheld, hothers⟩ := hready.simulates.readRef_discharged hr ha hx
  have hready' := hready.next rest hready.wellFormed htracked
    ((hready.simulates.free (found_ok.mp ha) hothers).writeVal outvar x) rfl
  refine (ih hready' hrun).of_rest ?_ (fun _ _ => rfl) ?_
  · rw [evalJaxprDischargeState, hheld, ok_bind, if_pos hid, Held.read, ok_bind]
  · intro r _
    simp only [Eqns.invalidated, List.mem_cons, List.mem_filter, decide_eq_true_eq]
    tauto

theorem preserved_freeRef (ih : Preserved ops others rest) (ref : RefVar) :
    Preserved ops others (.freeRef ref rest) := by
  intro invars bound discharged ids env h env' h' h1 outs hready hrun
  obtain ⟨a, ha, hrun⟩ := bind_ok.mp hrun
  obtain ⟨x, hx, hrun⟩ := bind_ok.mp hrun
  obtain ⟨hr, hid, htracked⟩ := hready.tracked
  obtain ⟨-, hothers⟩ := hready.simulates.readRef_discharged hr ha hx
  have hready' := hready.next rest hready.wellFormed htracked
    (hready.simulates.free (found_ok.mp ha) hothers) rfl
  refine (ih hready' hrun).of_rest ?_ (fun _ _ => rfl) ?_
  · rw [evalJaxprDischargeState, if_pos hid]
  · intro r _
    simp only [Eqns.invalidated, List.mem_cons, List.mem_filter, decide_eq_true_eq]
    tauto

end Steps

end JaxDas.StateDischarge
