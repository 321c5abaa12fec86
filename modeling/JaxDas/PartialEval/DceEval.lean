import JaxDas.PartialEval.DceEffects

/-!
# The elimination preserves meaning

The original and the pruned jaxpr run side by side. Before each equation their environments
agree on the variables live there, and their worlds are the same. For a `scan` this is
repeated by every iteration, on the part of the carry that is used.
-/

namespace JaxDas.PartialEval

variable {P K V W : Type} {T : Primitives P K} {S : Semantics P V W}

/-! ### The environments -/

theorem Env.writeAll_congr {live : Var → Prop} :
    ∀ {vars : List (Option Var)} {vals : List V} {env env' : Env V},
    (∀ v, live v → env v = env' v) →
    ∀ v, live v → env.writeAll vars vals v = env'.writeAll vars vals v
  | [], vals, _, _, h => by cases vals <;> exact h
  | _ :: _, [], _, _, h => h
  | u :: vars, x :: vals, env, env', h => by
      refine @writeAll_congr live vars vals _ _ fun v hv => ?_
      cases u with
      | none => exact h v hv
      | some u =>
          simp only [write]
          split
          · rfl
          · exact h v hv

/-- What is read of the inputs that are used is what the pruned equation reads. -/
theorem read_select {live : Live} {env env' : Env V} {atoms : List (Atom V)} {ins : List Bool}
    (h : ∀ v, live v = true → env v = env' v)
    (hread : ∀ v, .var v ∈ select atoms ins → live v = true) :
    (select atoms ins).map env'.read = select (atoms.map env.read) ins := by
  rw [select_map]
  refine List.map_congr_left fun a ha => ?_
  cases a with
  | literal x => rfl
  | var v => exact (h v (hread v ha)).symm

/-- The mask of the outputs that are live marks every live binder. -/
theorem live_of_mem_zip {live : Live} {vars : List (Option Var)} {used : List Bool}
    (hbelow : Below (vars.map live.read) used) {v : Var} {b : Bool}
    (hm : (some v, b) ∈ vars.zip used) (hv : live v = true) : b = true := by
  obtain ⟨i, hi⟩ := List.getElem?_of_mem hm
  obtain ⟨hvi, hbi⟩ := List.getElem?_zip_eq_some.mp hi
  obtain ⟨hlt, hvi⟩ := List.getElem?_eq_some_iff.mp hvi
  obtain ⟨hlt', hbi⟩ := List.getElem?_eq_some_iff.mp hbi
  have hle := List.Forall₂.get hbelow (by rw [List.length_map]; exact hlt) hlt'
  simp only [List.get_eq_getElem, List.getElem_map, hvi] at hle
  rw [← show used[i] = b from hbi]
  exact hle hv

/-! ### Iterations -/

section

variable {body body' : List V → W → List V × W} {ins used : List Bool} {p : ScanParams}

theorem length_columns (n : ℕ) : ∀ rows : List (List V), (∀ row ∈ rows, row.length = n) →
    (columns n rows).length = n
  | [], _ => List.length_replicate
  | row :: rows, h => by
      rw [columns, List.length_zipWith, length_columns n rows fun r hr =>
        h r (List.mem_cons_of_mem _ hr), h row List.mem_cons_self, Nat.min_self]

theorem select_columns (mask : List Bool) : ∀ rows : List (List V),
    select (columns mask.length rows) mask =
      columns (mask.count true) (rows.map (select · mask))
  | [] => by
      have hall : ∀ l ∈ select (List.replicate mask.length ([] : List V)) mask, l = [] :=
        fun l hl => List.eq_of_mem_replicate (mem_of_mem_select hl)
      rw [columns, List.map_nil, columns, List.eq_replicate_of_mem hall,
        length_select List.length_replicate]
  | row :: rows => by
      rw [columns, List.map_cons, columns, select_zipWith, select_columns mask rows]

/-- An iteration of the pruned `scan` does what one of the `scan` does, on what is used. -/
theorem scanLoop_select {consts xs : List V}
    (hbody : ∀ args w w', args.length = ins.length → S.same w w' →
      (body' (select args ins) w').1 = select (body args w).1 used ∧
        S.same (body args w).2 (body' (select args ins) w').2)
    (hout : ∀ args w, (body args w).1.length = used.length)
    (hcarry : p.numCarry ≤ used.length)
    (hsettled : (ins.drop p.numConsts).take p.numCarry = used.take p.numCarry)
    (hconsts : consts.length = (ins.take p.numConsts).length)
    (hxs : xs.length = ((ins.drop p.numConsts).drop p.numCarry).length) :
    ∀ {is : List ℕ} {carry : List V} {w w' : W}, carry.length = p.numCarry → S.same w w' →
    let r := scanLoop S body p.numCarry consts xs is carry w
    let r' := scanLoop S body' ((used.take p.numCarry).count true)
      (select consts (ins.take p.numConsts))
      (select xs ((ins.drop p.numConsts).drop p.numCarry)) is
      (select carry (used.take p.numCarry)) w'
    r'.1 = select r.1 (used.take p.numCarry) ∧
      r'.2.1 = r.2.1.map (select · (used.drop p.numCarry)) ∧ S.same r.2.2 r'.2.2 ∧
      r.1.length = p.numCarry ∧ ∀ row ∈ r.2.1, row.length = (used.drop p.numCarry).length
  | [], carry, w, w', hlen, hw => by
      simp only [scanLoop]
      exact ⟨trivial, rfl, hw, hlen, fun row h => absurd h List.not_mem_nil⟩
  | i :: is, carry, w, w', hlen, hw => by
      have hmask : ins = ins.take p.numConsts ++ used.take p.numCarry ++
          (ins.drop p.numConsts).drop p.numCarry := by
        rw [← hsettled, List.append_assoc, List.take_append_drop, List.take_append_drop]
      have hcarry' : carry.length = (used.take p.numCarry).length := by
        rw [hlen, List.length_take, Nat.min_eq_left hcarry]
      have hargs : (consts ++ carry ++ xs.map (S.index · i)).length = ins.length := by
        conv_rhs => rw [hmask]
        simp only [List.length_append, List.length_map, hconsts, hcarry', hxs]
      have hsel : select (consts ++ carry ++ xs.map (S.index · i)) ins =
          select consts (ins.take p.numConsts) ++ select carry (used.take p.numCarry) ++
            (select xs ((ins.drop p.numConsts).drop p.numCarry)).map (S.index · i) := by
        conv_lhs => rw [hmask]
        rw [select_append _ _ (by rw [List.length_append, List.length_append, hconsts, hcarry']),
          select_append _ _ hconsts, select_map]
      obtain ⟨houts, hw₁⟩ := hbody _ w w' hargs hw
      rw [hsel] at houts hw₁
      have hused := (hout (consts ++ carry ++ xs.map (S.index · i)) w)
      have htake : ((body (consts ++ carry ++ xs.map (S.index · i)) w).1.take
          p.numCarry).length = p.numCarry := by
        rw [List.length_take, hused, Nat.min_eq_left hcarry]
      obtain ⟨h₁, h₂, h₃, h₄, h₅⟩ :=
        @scanLoop_select _ _ hbody hout hcarry hsettled hconsts hxs is _ _ _ htake hw₁
      simp only [scanLoop]
      rw [houts, take_select p.numCarry hused, drop_select p.numCarry hused]
      refine ⟨h₁, by rw [h₂, List.map_cons], h₃, h₄, ?_⟩
      intro row hrow
      rcases List.mem_cons.mp hrow with rfl | hrow
      · rw [List.length_drop, List.length_drop, hused]
      · exact h₅ row hrow

/-- The pruned `scan` does what the `scan` does, on what is used. -/
theorem scanImpl_select {args : List V} {w w' : W}
    (hbody : ∀ args w w', args.length = ins.length → S.same w w' →
      (body' (select args ins) w').1 = select (body args w).1 used ∧
        S.same (body args w).2 (body' (select args ins) w').2)
    (hout : ∀ args w, (body args w).1.length = used.length)
    (hsplit : p.numConsts + p.numCarry ≤ ins.length) (hcarry : p.numCarry ≤ used.length)
    (hsettled : (ins.drop p.numConsts).take p.numCarry = used.take p.numCarry)
    (hargs : args.length = ins.length) (hw : S.same w w') :
    let r := scanImpl S p (used.length - p.numCarry) body args w
    let r' := scanImpl S (p.prune ins) (used.count true - (p.prune ins).numCarry) body'
      (select args ins) w'
    r'.1 = select r.1 used ∧ S.same r.2 r'.2 := by
  have hc : (args.take p.numConsts).length = (ins.take p.numConsts).length := by
    rw [List.length_take, List.length_take, hargs]
  have hdrop : (args.drop p.numConsts).length = (ins.drop p.numConsts).length := by
    rw [List.length_drop, List.length_drop, hargs]
  have hx : ((args.drop p.numConsts).drop p.numCarry).length =
      ((ins.drop p.numConsts).drop p.numCarry).length := by
    rw [List.length_drop, hdrop, ← List.length_drop]
  have hcar : ((args.drop p.numConsts).take p.numCarry).length = p.numCarry := by
    rw [List.length_take, List.length_drop, hargs]
    omega
  have hnum : (p.prune ins).numCarry = (used.take p.numCarry).count true := by
    rw [ScanParams.prune, hsettled]
  have hcols : used.count true - (p.prune ins).numCarry = (used.drop p.numCarry).count true := by
    have happ : (used.take p.numCarry ++ used.drop p.numCarry).count true =
        (used.take p.numCarry).count true + (used.drop p.numCarry).count true :=
      List.count_append
    rw [List.take_append_drop] at happ
    rw [hnum, happ, Nat.add_sub_cancel_left]
  have hloop := fun is => @scanLoop_select P V W S body body' ins used p _ _ hbody hout hcarry
    hsettled hc hx is _ _ _ hcar hw
  obtain ⟨h₁, h₂, h₃, h₄, h₅⟩ := hloop p.order
  simp only [scanImpl]
  -- the arguments of the pruned `scan` are the selected parts of the arguments
  rw [show (select args ins).take (p.prune ins).numConsts =
      select (args.take p.numConsts) (ins.take p.numConsts) from take_select _ hargs,
    show (select args ins).drop (p.prune ins).numConsts =
      select (args.drop p.numConsts) (ins.drop p.numConsts) from drop_select _ hargs,
    show (p.prune ins).numCarry = ((ins.drop p.numConsts).take p.numCarry).count true from rfl,
    take_select p.numCarry hdrop, drop_select p.numCarry hdrop, hsettled,
    show used.count true - (used.take p.numCarry).count true =
      (used.drop p.numCarry).count true from hnum ▸ hcols,
    show (p.prune ins).order = p.order from rfl,
    show (p.prune ins).reverse = p.reverse from rfl, h₁, h₂]
  refine ⟨?_, h₃⟩
  have hrows : (used.drop p.numCarry).length = used.length - p.numCarry := List.length_drop
  rw [← hrows]
  conv_rhs => rw [← List.take_append_drop p.numCarry used]
  rw [select_append _ _ (by rw [h₄, List.length_take, Nat.min_eq_left hcarry]), select_map,
    List.take_append_drop, select_columns]
  cases p.reverse with
  | false => rfl
  | true => simp only [if_true, List.map_reverse]

end

/-! ### What is left of a `core.call` that is dropped -/

theorem JaxprEqn.EffectsOk.of_mem {allVars : List Var} {effects : List (Effect K)} :
    ∀ {eqns : List (JaxprEqn P K V)} {mutArrays : List Var},
    EffectsOkEqns T allVars effects mutArrays eqns →
    ∀ eqn ∈ eqns, ∃ muts, eqn.EffectsOk T allVars effects muts
  | e :: eqns, mutArrays, h, eqn, hm => by
      rcases List.mem_cons.mp hm with rfl | hm
      · exact ⟨mutArrays, h.1⟩
      · exact of_mem h.2 eqn hm

theorem DcePass.of_mem {live live₀ : Live} {eqns rest : List (JaxprEqn P K V)}
    (h : DcePass T live eqns live₀ rest) {eqn' : JaxprEqn P K V} (hm : eqn' ∈ rest) :
    ∃ eqn ∈ eqns, ∃ used ins, RuleResult T eqn used ins (some eqn') := by
  induction h with
  | nil => exact absurd hm List.not_mem_nil
  | drop _ _ ih =>
      obtain ⟨eqn, he, h⟩ := ih hm
      exact ⟨eqn, List.mem_cons_of_mem _ he, h⟩
  | @keep eqn _ _ _ _ _ _ hrule ih =>
      rcases List.mem_cons.mp hm with rfl | hm
      · exact ⟨eqn, List.mem_cons_self, _, _, hrule⟩
      · obtain ⟨eqn, he, h⟩ := ih hm
        exact ⟨eqn, List.mem_cons_of_mem _ he, h⟩

/-- When a jaxpr has no effects, neither has any of its equations. -/
theorem effects_eq_nil {allVars : List Var} : ∀ {eqns : List (JaxprEqn P K V)},
    (∀ eqn ∈ eqns, (∀ k i, ⟨k, some i⟩ ∈ eqn.effects → ∃ v, eqn.invars[i]? = some (.var v)) ∧
      (eqn.refAllocating T = true → ∃ k, ⟨k, none⟩ ∈ eqn.effects)) →
    makeJaxprEffects T allVars [] eqns = .ok [] → ∀ eqn ∈ eqns, eqn.effects = []
  | e :: eqns, hok, h, eqn, hm => by
      rw [makeJaxprEffects] at h
      obtain ⟨muts, hadd, h⟩ := bind_ok.mp h
      obtain ⟨here, hhere, h⟩ := bind_ok.mp h
      obtain ⟨effs, hrest, h⟩ := bind_ok.mp h
      injection h with h
      obtain ⟨hflat, rfl⟩ := List.append_eq_nil_iff.mp h
      have hnil : ∀ eff ∈ e.effects, jaxprEffect allVars muts e.invars eff = .ok [] := by
        intro eff heff
        obtain ⟨es, hes, hf⟩ := mapM_ok_of_mem hhere heff
        rw [hf, List.flatten_eq_nil_iff.mp hflat es hes]
      obtain ⟨hvar, halloc⟩ := hok e List.mem_cons_self
      -- nothing is allocated: that would be an effect
      have hmuts : muts = [] := by
        unfold addMutArray at hadd
        rcases ite_ok hadd with ⟨ha, _⟩ | ⟨_, hadd⟩
        · obtain ⟨k, hk⟩ := halloc ha
          injection hnil _ hk with hk
          injection hk
        · injection hadd with hadd
          exact hadd.symm
      subst hmuts
      rcases List.mem_cons.mp hm with rfl | hm
      · refine List.eq_nil_iff_forall_not_mem.mpr fun eff heff => ?_
        have hf := hnil eff heff
        obtain ⟨k, index⟩ := eff
        cases index with
        | none =>
            injection hf with hf
            injection hf
        | some i =>
            obtain ⟨v, hv⟩ := hvar k i heff
            simp only [jaxprEffect, hv, List.not_mem_nil, if_false] at hf
            split at hf
            · injection hf
            · injection hf with hf
              injection hf
      · exact effects_eq_nil (fun e he => hok e (List.mem_cons_of_mem _ he)) hrest eqn hm

variable [Inhabited V]

@[simp] theorem length_evalJaxpr (j : Jaxpr P K V) (consts args : List V) (w : W) :
    (evalJaxpr S j consts args w).1.length = j.outvars.length := by
  obtain ⟨c, i, eqns, o, f⟩ := j
  simp [evalJaxpr, Jaxpr.outvars]

theorem evalEqns_same : ∀ {eqns : List (JaxprEqn P K V)} {env : Env V} {w : W},
    (∀ eqn ∈ eqns, ∀ args w, args.length = eqn.invars.length → S.same (evalEqn S eqn args w).2 w) →
    S.same (evalEqns S eqns env w).2 w
  | [], _, w, _ => S.same.refl w
  | eqn :: eqns, env, w, h => by
      rw [evalEqns]
      exact S.same.trans (evalEqns_same fun e he => h e (List.mem_cons_of_mem _ he))
        (h eqn List.mem_cons_self _ w (List.length_map _))

omit [Inhabited V] in
theorem impl_same {how : HigherOrder V} {n : ℕ} {body : List V → List V → W → List V × W}
    (h : ∀ consts args w, S.same (body consts args w).2 w) (args : List V) (w : W) :
    S.same (how.impl S n body args w).2 w := by
  cases how with
  | call => exact h [] args w
  | closedCall consts => exact h consts args w
  | scan consts p =>
      have hloop : ∀ (is : List ℕ) (carry : List V) (w : W) (cs xs : List V),
          S.same (scanLoop S (body consts) p.numCarry cs xs is carry w).2.2 w := by
        intro is
        induction is with
        | nil => exact fun _ w _ _ => S.same.refl w
        | cons i is ih => exact fun _ _ _ _ => S.same.trans (ih _ _ _ _) (h _ _ _)
      exact hloop _ _ _ _ _

/-- When nothing that is left of a jaxpr has an effect, evaluating it changes nothing. -/
def Quiet (T : Primitives P K) (S : Semantics P V W) (j : Jaxpr P K V) : Prop :=
  ∀ {used inst : List Bool} {new : Jaxpr P K V} {ins : List Bool},
    used.length = j.outvars.length → inst.length = j.invars.length →
    dceJaxpr T j used inst = .ok (new, ins) → new.effects = [] →
    ∀ consts args w, S.same (evalJaxpr S new consts args w).2 w

theorem quiet : ∀ {j : Jaxpr P K V}, j.WellFormed T → j.Truthful T S → Quiet T S j := by
  intro j
  induction j using Jaxpr.nesting with
  | step j ih =>
      intro hwf htruth used inst new ins hout hinst hdce hnil consts args w
      have har := hwf.wellScoped.here.eqns.arity
      obtain ⟨live, hsteps⟩ := dceJaxpr_steps hdce
      have hpass := dceEqns_pass har hsteps.eqns
      have heffs := hsteps.effects
      rw [hnil] at heffs
      have hfrom : ∀ {eqn eqn' : JaxprEqn P K V} {used ins : List Bool}, eqn ∈ j.eqns →
          RuleResult T eqn used ins (some eqn') → EqnEffectsFrom eqn eqn' := by
        intro eqn eqn' used ins he hrule
        obtain ⟨muts, hok⟩ := JaxprEqn.EffectsOk.of_mem hwf.effects.here eqn he
        refine hrule.effectsFrom (har eqn he) hok fun b hb => ?_
        refine ⟨(hwf.sub he hb).wellScoped.here.nodup, fun {new used inst ins} hu hi hd => ?_⟩
        obtain ⟨new', ins', hd', hf⟩ := dceJaxpr_succeeds (hwf.sub he hb) hu hi
        rw [hd] at hd'
        injection hd' with hd'
        injection hd' with hn _
        exact hn ▸ hf
      have hnone : ∀ eqn' ∈ new.eqns, eqn'.effects = [] := by
        refine effects_eq_nil (fun eqn' hm => ?_) heffs
        obtain ⟨eqn, he, used, ins, hrule⟩ := hpass.of_mem hm
        obtain ⟨muts, hok⟩ := JaxprEqn.EffectsOk.of_mem hwf.effects.here eqn he
        refine ⟨fun k i hk => ?_, fun halloc => ?_⟩
        · obtain ⟨v, _, hv, _⟩ := hfrom he hrule k i hk
          exact ⟨v, hv⟩
        · rcases hrule.refAllocating with heq | ⟨_, hno⟩
          · subst heq
            exact (hok.allocates halloc).2
          · exact absurd halloc (Bool.eq_false_iff.mp hno)
      obtain ⟨c, i, eqns', o, f⟩ := new
      rw [evalJaxpr]
      refine evalEqns_same fun eqn' hm args w hlen => ?_
      obtain ⟨eqn, he, used, ins, hrule⟩ := hpass.of_mem hm
      have hno : eqn'.effects = [] := hnone eqn' hm
      cases hrule with
      | kept _ => exact htruth.here eqn' he (by rw [hasEffects, hno]; rfl) args w hlen
      | @pruned how b new _ _ _ _ _ _ heq hd hu hi _ _ =>
          subst heq
          have hnew : new.effects = [] := by
            cases how with
            | call => exact hno
            | closedCall _ => exact List.map_eq_nil_iff.mp hno
            | scan _ _ => exact List.map_eq_nil_iff.mp hno
          rw [evalEqn]
          exact impl_same (ih _ he b rfl (hwf.sub he rfl) (htruth.sub he rfl) hu hi hd hnew) args w

/-! ### The simulation -/

/-- Pruning a jaxpr preserves its meaning: on the inputs that are used it gives the outputs
that are used, whatever the other inputs are. -/
def Preserves (T : Primitives P K) (S : Semantics P V W) (j : Jaxpr P K V) : Prop :=
  ∀ {used inst : List Bool} {new : Jaxpr P K V} {ins : List Bool},
    used.length = j.outvars.length → inst.length = j.invars.length →
    dceJaxpr T j used inst = .ok (new, ins) →
    ∀ consts args w w', args.length = j.invars.length → S.same w w' →
      (evalJaxpr S new consts (select args ins) w').1 =
        select (evalJaxpr S j consts args w).1 used ∧
      S.same (evalJaxpr S j consts args w).2 (evalJaxpr S new consts (select args ins) w').2

/-- The same of an equation that holds a jaxpr. -/
theorem impl_prune {how : HigherOrder V} {j new : Jaxpr P K V} {used inst ins : List Bool}
    (hj : Preserves T S j) (hfits : how.Fits j) (hout : used.length = j.outvars.length)
    (hinst : inst.length = j.invars.length) (hdce : dceJaxpr T j used inst = .ok (new, ins))
    (hsettled : how.Settled ins used) {args : List V} (hargs : args.length = j.invars.length)
    {w w' : W} (hw : S.same w w') :
    let r := how.impl S j.outvars.length (fun consts args w => evalJaxpr S j consts args w) args w
    let r' := (how.prune ins).impl S new.outvars.length
      (fun consts args w => evalJaxpr S new consts args w) (select args ins) w'
    r'.1 = select r.1 used ∧ S.same r.2 r'.2 := by
  cases how with
  | call => exact hj hout hinst hdce [] args w w' hargs hw
  | closedCall consts => exact hj hout hinst hdce consts args w w' hargs hw
  | scan consts p =>
      obtain ⟨_, hsplit, hcarry⟩ := hfits
      obtain ⟨live, hsteps⟩ := dceJaxpr_steps hdce
      have hlen : ins.length = j.invars.length := hsteps.length hinst
      simp only [HigherOrder.impl, HigherOrder.prune]
      rw [hsteps.outvars, length_select hout.symm, ← hout]
      exact scanImpl_select
        (fun args w w' ha hw => hj hout hinst hdce consts args w w' (ha.trans hlen) hw)
        (fun args w => (length_evalJaxpr j consts args w).trans hout.symm)
        (hlen.symm ▸ hsplit) (hout.symm ▸ hcarry) hsettled (hargs.trans hlen.symm) hw

/-- One equation after the other, the environments agree on what is live. -/
theorem DcePass.eval {live live₀ : Live} {eqns rest : List (JaxprEqn P K V)}
    (h : DcePass T live eqns live₀ rest) (har : ∀ eqn ∈ eqns, eqn.Arity)
    (htruth : ∀ eqn ∈ eqns, hasEffects T eqn = false → ∀ args w,
      args.length = eqn.invars.length → S.same (evalEqn S eqn args w).2 w)
    (hsub : ∀ eqn ∈ eqns, ∀ j, eqn.jaxpr? = some j → Preserves T S j ∧ Quiet T S j) :
    ∀ {env env' : Env V} {w w' : W}, (∀ v, live₀ v = true → env v = env' v) → S.same w w' →
    (∀ v, live v = true → (evalEqns S eqns env w).1 v = (evalEqns S rest env' w').1 v) ∧
      S.same (evalEqns S eqns env w).2 (evalEqns S rest env' w').2 := by
  induction h with
  | nil =>
      intro env env' w w' henv hw
      exact ⟨henv, hw⟩
  | @drop eqn eqns live₁ rest ins hpass hrule ih =>
      intro env env' w w' henv hw
      rw [evalEqns]
      -- the outputs are not live, and the world is as it was
      have hargs : (eqn.invars.map env.read).length = eqn.invars.length := List.length_map _
      have hworld : S.same (evalEqn S eqn (eqn.invars.map env.read) w).2 w := by
        cases hrule with
        | dropped _ hno => exact htruth eqn List.mem_cons_self hno _ w hargs
        | @emptied j new invars outvars effects inst ins heq hdce hout hinst hunused hnoins hnil =>
            subst heq
            obtain ⟨_, hin, _⟩ := har _ List.mem_cons_self
            obtain ⟨hj, hq⟩ := hsub _ List.mem_cons_self j rfl
            exact S.same.trans (hj hout hinst hdce [] _ w w (hargs.trans hin) (S.same.refl w)).2
              (hq hout hinst hdce hnil _ _ w)
      refine ih (fun e he => har e (List.mem_cons_of_mem _ he))
        (fun e he => htruth e (List.mem_cons_of_mem _ he))
        (fun e he => hsub e (List.mem_cons_of_mem _ he)) ?_ (S.same.trans hworld hw)
      have hlen : eqn.outvars.length = (eqn.outvars.map live₁.read).length :=
        (List.length_map _).symm
      have hdead := @Env.writeAll_select V (fun v => live₁ v = true) _ _
        (evalEqn S eqn (eqn.invars.map env.read) w).1 _ _ hlen
        (fun v b hm hv => live_of_mem_zip (Below.refl _) hm hv)
        (fun v hv => henv v (Live.writeAll_iff.mpr (.inl hv)))
      rw [select_eq_nil _ hrule.unused] at hdead
      exact hdead
  | @keep eqn eqns live₁ rest ins eqn' hpass hrule ih =>
      intro env env' w w' henv hw
      rw [evalEqns, evalEqns]
      have henv₁ : ∀ v, live₁ v = true → env v = env' v :=
        fun v hv => henv v (Live.writeAll_iff.mpr (.inl hv))
      have hread := read_select henv fun v hv => Live.writeAll_iff.mpr (.inr hv)
      have hinvars := hrule.invars
      have hgo := @ih (fun e he => har e (List.mem_cons_of_mem _ he))
        (fun e he => htruth e (List.mem_cons_of_mem _ he))
        (fun e he => hsub e (List.mem_cons_of_mem _ he))
      cases hrule with
      | kept hprim =>
          have hall := select_replicate_true (eqn.invars.map env.read)
          rw [List.length_map] at hall
          rw [← hinvars, hall] at hread
          rw [hread]
          cases eqn with
          | sub how j _ _ _ => injection hprim
          | prim p invars outvars effects =>
              obtain ⟨houts, hw₁⟩ := S.bind_same p (invars.map env.read) w w' hw
              refine hgo ?_ hw₁
              simp only [evalEqn, JaxprEqn.invars, JaxprEqn.outvars]
              rw [← houts]
              exact Env.writeAll_congr henv₁
      | @pruned how j new invars outvars effects usedOutputs inst ins heq hdce hout hinst hbelow
          hsettled =>
          subst heq
          obtain ⟨hfits, hin, hnumOut⟩ := har _ List.mem_cons_self
          obtain ⟨hj, _⟩ := hsub _ List.mem_cons_self j rfl
          have hargs : (invars.map env.read).length = j.invars.length :=
            (List.length_map _).trans hin
          obtain ⟨houts, hw₁⟩ := impl_prune hj hfits hout hinst hdce hsettled hargs hw
          simp only [JaxprEqn.invars, JaxprEqn.outvars, evalEqn] at hread ⊢
          rw [hread]
          refine hgo ?_ hw₁
          rw [houts]
          exact Env.writeAll_select (hnumOut.trans hout.symm)
            (fun v b hm hv => live_of_mem_zip hbelow hm hv) henv₁

/-- **Dead-code elimination preserves meaning.** -/
theorem preserves : ∀ {j : Jaxpr P K V}, j.WellFormed T → j.Truthful T S → Preserves T S j := by
  intro j
  induction j using Jaxpr.nesting with
  | step j ih =>
      intro hwf htruth used inst new ins hout hinst hdce consts args w w' hargs hw
      obtain ⟨live, hsteps⟩ := dceJaxpr_steps hdce
      have hpass := dceEqns_pass hwf.wellScoped.here.eqns.arity hsteps.eqns
      have hrun := @DcePass.eval _ _ _ _ T S _ _ _ _ _ hpass hwf.wellScoped.here.eqns.arity
        htruth.here (fun eqn he b hb => ⟨ih eqn he b hb (hwf.sub he hb) (htruth.sub he hb),
          quiet (hwf.sub he hb) (htruth.sub he hb)⟩)
      obtain ⟨c, i, eqns, o, f⟩ := j
      obtain ⟨c', i', eqns', o', f'⟩ := new
      obtain rfl : c' = c := hsteps.constvars
      obtain rfl : i' = select i ins := hsteps.invars
      obtain rfl : o' = select o used := hsteps.outvars
      have hlen : ins.length = i.length := hsteps.length hinst
      have henv : ∀ v, live v = true →
          (Env.writeAll (fun _ => default) (c'.map some) consts).writeAll (i.map some) args v =
          (Env.writeAll (fun _ => default) (c'.map some) consts).writeAll
            ((select i ins).map some) (select args ins) v := by
        rw [← select_map]
        refine @Env.writeAll_select V (fun v => live v = true) _ _ _ _ _
          (by rw [List.length_map, hlen]) (fun v b hm hv => ?_) (fun _ _ => rfl)
        refine hsteps.used_of_live (v := v) ?_ hv
        rw [List.zip_map_left] at hm
        obtain ⟨⟨u, b'⟩, hm, heq⟩ := List.mem_map.mp hm
        injection heq with hu hb
        injection hu with hu
        exact hu ▸ hb ▸ hm
      obtain ⟨hread, hworld⟩ := hrun henv hw
      refine ⟨?_, hworld⟩
      -- an output that is used is live after the equations
      rw [evalJaxpr, evalJaxpr]
      exact read_select hread fun v hv => Live.writeAll_iff.mpr (.inr hv)

end JaxDas.PartialEval
