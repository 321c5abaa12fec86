import JaxDas.PartialEval.DceRules

/-!
# The elimination succeeds

On a well-formed jaxpr no exception is raised: the loop of the `scan` rule reaches its fixed
point within the iterations it has, and the effects of the pruned equations all have an input
of the pruned jaxpr to act on.
-/

namespace JaxDas.PartialEval

variable {P K V W : Type} {T : Primitives P K}

/-- The effects of a pruned jaxpr on its inputs are effects of the jaxpr on them. -/
def EffectsFrom (j new : Jaxpr P K V) : Prop :=
  ∀ k i, ⟨k, some i⟩ ∈ new.effects → ∃ v n,
    (new.constvars ++ new.invars).idxOf? v = some i ∧
      (j.constvars ++ j.invars).idxOf? v = some n ∧ ⟨k, some n⟩ ∈ j.effects

/-- The same of an equation and what is left of it. -/
def EqnEffectsFrom (eqn eqn' : JaxprEqn P K V) : Prop :=
  ∀ k i, ⟨k, some i⟩ ∈ eqn'.effects → ∃ v n, eqn'.invars[i]? = some (.var v) ∧
    eqn.invars[n]? = some (.var v) ∧ ⟨k, some n⟩ ∈ eqn.effects

theorem getElem?_of_idxOf? {l : List Var} {v : Var} {i : ℕ} (h : l.idxOf? v = some i) :
    l[i]? = some v := by
  obtain ⟨hi, hv, _⟩ := List.idxOf?_eq_some_iff.mp h
  rw [List.getElem?_eq_getElem hi, hv]

/-- An input of a closed jaxpr is not where its `constvars` are. -/
theorem getElem?_invars {constvars invars : List Var} (hnd : (constvars ++ invars).Nodup)
    {v : Var} (hv : v ∈ invars) {xs : List Var} {i : ℕ} (hi : (constvars ++ xs)[i]? = some v) :
    constvars.length ≤ i ∧ xs[i - constvars.length]? = some v := by
  have hle : constvars.length ≤ i := by
    by_contra hlt
    rw [List.getElem?_append_left (by omega)] at hi
    exact (List.nodup_append.mp hnd).2.2 v (List.mem_of_getElem? hi) v hv rfl
  rw [List.getElem?_append_right hle] at hi
  exact ⟨hle, hi⟩

theorem eq_of_getElem?_nodup {l : List Var} (hnd : l.Nodup) {v : Var} {i n : ℕ}
    (hi : l[i]? = some v) (hn : l[n]? = some v) : i = n := by
  obtain ⟨hlt, _⟩ := List.getElem?_eq_some_iff.mp hi
  exact (List.getElem?_inj hlt hnd).mp (hi.trans hn.symm)

/-- The effects of an equation on its inputs are effects of its jaxpr, counted from the end
of its `constvars`. -/
theorem mem_effectsOf {how : HigherOrder V} {j new : Jaxpr P K V} (hfits : how.Fits j)
    (hconst : new.constvars = j.constvars) {k : K} {i : ℕ}
    (h : ⟨k, some i⟩ ∈ how.effectsOf new) :
    ∃ i', i = i' - new.constvars.length ∧ ⟨k, some i'⟩ ∈ new.effects := by
  have heqn : ⟨k, some i⟩ ∈ eqnEffects new →
      ∃ i', i = i' - new.constvars.length ∧ ⟨k, some i'⟩ ∈ new.effects := by
    intro h
    obtain ⟨⟨k', i'⟩, hm, heq⟩ := List.mem_map.mp h
    injection heq with hk hi
    cases i' with
    | none => injection hi
    | some i' =>
        injection hi with hi
        exact ⟨i', hi.symm, hk ▸ hm⟩
  cases how with
  | call =>
      have hnil : j.constvars = [] := hfits
      exact ⟨i, by rw [hconst, hnil, List.length_nil, Nat.sub_zero], h⟩
  | closedCall _ => exact heqn h
  | scan _ _ => exact heqn h

theorem RuleResult.effectsFrom {eqn eqn' : JaxprEqn P K V} {used ins : List Bool}
    {allVars mutArrays : List Var} {effects : List (Effect K)}
    (h : RuleResult T eqn used ins (some eqn')) (har : eqn.Arity)
    (hok : eqn.EffectsOk T allVars effects mutArrays)
    (hsub : ∀ j, eqn.jaxpr? = some j → (j.constvars ++ j.invars).Nodup ∧
      ∀ {new used inst ins}, used.length = j.outvars.length → inst.length = j.invars.length →
        dceJaxpr T j used inst = .ok (new, ins) → EffectsFrom j new) :
    EqnEffectsFrom eqn eqn' := by
  intro k i hm
  cases h with
  | kept _ =>
      obtain ⟨v, hv, _⟩ := hok.input k i hm
      exact ⟨v, i, hv, hv, hm⟩
  | @pruned how j new invars outvars effs usedOutputs inst ins heq hdce hout hinst _ _ =>
      subst heq
      obtain ⟨hfits, hin, _⟩ := har
      obtain ⟨hnd, hfrom⟩ := hsub j rfl
      obtain ⟨live, hsteps⟩ := dceJaxpr_steps hdce
      have hlen : ins.length = j.invars.length := hsteps.length hinst
      obtain ⟨i', rfl, hi'⟩ := mem_effectsOf hfits hsteps.constvars hm
      obtain ⟨v, n, hv', hv, hn⟩ := hfrom hout hinst hdce k i' hi'
      -- `v` is an explicit input, at `n` of the jaxpr and at `i'` of the pruned one
      obtain ⟨hle, heff⟩ := hok.sub j rfl k n hn
      have hvn : j.invars[n - j.constvars.length]? = some v := by
        rw [← List.getElem?_append_right hle]
        exact getElem?_of_idxOf? hv
      rw [hsteps.constvars, hsteps.invars] at hv'
      obtain ⟨hle', hvi⟩ := getElem?_invars hnd (List.mem_of_getElem? hvn)
        (getElem?_of_idxOf? hv')
      rw [hsteps.constvars]
      -- so one argument of the equation is at both places
      have hsel : (select invars ins).length = (select j.invars ins).length := by
        rw [length_select (hin.trans hlen.symm), length_select hlen.symm]
      obtain ⟨a, ha⟩ : ∃ a, (select invars ins)[i' - j.constvars.length]? = some a := by
        obtain ⟨hlt, _⟩ := List.getElem?_eq_some_iff.mp hvi
        exact ⟨_, List.getElem?_eq_getElem (hsel ▸ hlt)⟩
      obtain ⟨m, hm₁, hm₂⟩ := getElem?_select hvi ha
      obtain rfl := eq_of_getElem?_nodup (List.nodup_append.mp hnd).2.1 hm₁ hvn
      obtain ⟨u, hu, _⟩ := hok.input k _ heff
      have hau : a = .var u := Option.some.inj (hm₂.symm.trans hu)
      exact ⟨u, _, hau ▸ ha, hu, heff⟩

/-- An equation of the pruned jaxpr acts on inputs that are there. -/
theorem jaxprEffect_ok {eqn eqn' : JaxprEqn P K V} {allVars allVars' mutArrays mutArrays' : List Var}
    {effects : List (Effect K)} {live : Live} (hok : eqn.EffectsOk T allVars effects mutArrays)
    (hfrom : EqnEffectsFrom eqn eqn') (hread : ∀ v, .var v ∈ eqn'.invars → live v = true)
    (hall : ∀ v ∈ allVars, live v = true → v ∈ allVars')
    (hmut : ∀ v ∈ mutArrays, live v = true → v ∈ mutArrays') {eff : Effect K}
    (heff : eff ∈ eqn'.effects) :
    ∃ effs, jaxprEffect allVars' mutArrays' eqn'.invars eff = .ok effs ∧
      ∀ k i, ⟨k, some i⟩ ∈ effs → ∃ v n, allVars'.idxOf? v = some i ∧
        allVars.idxOf? v = some n ∧ ⟨k, some n⟩ ∈ effects := by
  obtain ⟨k, index⟩ := eff
  cases index with
  | none =>
      refine ⟨[⟨k, none⟩], rfl, ?_⟩
      intro k' i hm
      obtain heq := List.mem_singleton.mp hm
      injection heq with _ heq
      injection heq
  | some i =>
      obtain ⟨v, n, hv', hv, hn⟩ := hfrom k i heff
      obtain ⟨u, hu, hwhere⟩ := hok.input k n hn
      have huv : Atom.var u = .var v := Option.some.inj (hu.symm.trans hv)
      injection huv with huv
      subst huv
      have hlive := hread u (List.mem_of_getElem? hv')
      by_cases hm : u ∈ mutArrays'
      · refine ⟨[], by simp [jaxprEffect, hv', hm], ?_⟩
        intro k' i' h
        exact absurd h List.not_mem_nil
      · rcases hwhere with hin | ⟨m, hidx, hmem⟩
        · exact absurd (hmut u hin hlive) hm
        · have hin' := hall u (List.mem_of_getElem? (getElem?_of_idxOf? hidx)) hlive
          obtain ⟨i', hi'⟩ := Option.isSome_iff_exists.mp (List.isSome_idxOf?.mpr hin')
          refine ⟨[⟨k, some i'⟩], by simp [jaxprEffect, hv', hm, hi'], ?_⟩
          intro k' i'' h
          have heq := List.mem_singleton.mp h
          injection heq with hk hi
          injection hi with hi
          subst hk hi
          exact ⟨u, m, hi', hidx, hmem⟩

theorem addMutArray_ok {eqn : JaxprEqn P K V} {mutArrays : List Var}
    (h : eqn.refAllocating T = true → eqn.outvars.length = 1) :
    ∃ mutArrays', addMutArray T mutArrays eqn = .ok mutArrays' ∧
      ∀ v, v ∈ mutArrays' ↔ v ∈ mutArraysAfter T mutArrays eqn := by
  unfold addMutArray mutArraysAfter
  cases halloc : eqn.refAllocating T with
  | false => exact ⟨mutArrays, rfl, fun _ => Iff.rfl⟩
  | true =>
      obtain ⟨b, hb⟩ := List.length_eq_one_iff.mp (h halloc)
      rw [if_pos rfl, if_pos rfl, hb]
      cases b with
      | none => exact ⟨mutArrays, rfl, fun v => by simp [JaxprEqn.binders, hb]⟩
      | some u => exact ⟨u :: mutArrays, rfl, fun v => by simp [JaxprEqn.binders, hb]⟩

/-- `make_jaxpr_effects` finds the inputs of all effects of the equations that are left. -/
theorem DcePass.effects {live live₀ : Live} {eqns rest : List (JaxprEqn P K V)}
    {allVars allVars' : List Var} {effects : List (Effect K)}
    (h : DcePass T live eqns live₀ rest) (har : ∀ eqn ∈ eqns, eqn.Arity)
    (hsub : ∀ eqn ∈ eqns, ∀ j, eqn.jaxpr? = some j → (j.constvars ++ j.invars).Nodup ∧
      ∀ {new used inst ins}, used.length = j.outvars.length → inst.length = j.invars.length →
        dceJaxpr T j used inst = .ok (new, ins) → EffectsFrom j new)
    (hall : ∀ v ∈ allVars, live₀ v = true → v ∈ allVars') :
    ∀ {mutArrays mutArrays' : List Var}, EffectsOkEqns T allVars effects mutArrays eqns →
    (∀ v ∈ mutArrays, live₀ v = true → v ∈ mutArrays') →
    ∃ effs, makeJaxprEffects T allVars' mutArrays' rest = .ok effs ∧
      ∀ k i, ⟨k, some i⟩ ∈ effs → ∃ v n, allVars'.idxOf? v = some i ∧
        allVars.idxOf? v = some n ∧ ⟨k, some n⟩ ∈ effects := by
  induction h with
  | nil =>
      intro _ _ _ _
      exact ⟨[], rfl, fun _ _ h => absurd h List.not_mem_nil⟩
  | @drop eqn eqns live₁ rest ins hpass hrule ih =>
      intro mutArrays mutArrays' hok hmut
      have hlive : ∀ {v}, live₁ v = true → live₁.writeAll eqn.invars ins v = true :=
        fun hv => Live.writeAll_iff.mpr (.inl hv)
      refine ih (fun e he => har e (List.mem_cons_of_mem _ he))
        (fun e he => hsub e (List.mem_cons_of_mem _ he)) (fun v hv hl => hall v hv (hlive hl))
        hok.2 fun v hv hl => ?_
      unfold mutArraysAfter at hv
      split at hv
      · rcases List.mem_append.mp hv with hb | hv
        · exact absurd hl (Bool.eq_false_iff.mp (not_live_of_unused hrule.unused hb))
        · exact hmut v hv (hlive hl)
      · exact hmut v hv (hlive hl)
  | @keep eqn eqns live₁ rest ins eqn' hpass hrule ih =>
      intro mutArrays mutArrays' hok hmut
      obtain ⟨hok, hoks⟩ := hok
      have hlive : ∀ {v}, live₁ v = true → live₁.writeAll eqn.invars ins v = true :=
        fun hv => Live.writeAll_iff.mpr (.inl hv)
      have hfrom := hrule.effectsFrom (har eqn List.mem_cons_self) hok
        (hsub eqn List.mem_cons_self)
      have hread : ∀ v, .var v ∈ eqn'.invars → live₁.writeAll eqn.invars ins v = true := by
        intro v hv
        rw [hrule.invars] at hv
        exact Live.writeAll_iff.mpr (.inr hv)
      -- the references allocated so far that are still live are allocated in what is left
      obtain ⟨muts, hadd, hmuts⟩ : ∃ muts, addMutArray T mutArrays' eqn' = .ok muts ∧
          ∀ v, v ∈ muts ↔ v ∈ mutArraysAfter T mutArrays' eqn' := by
        refine addMutArray_ok fun halloc => ?_
        rcases hrule.refAllocating with heq | ⟨_, hno⟩
        · subst heq
          exact (hok.allocates halloc).1
        · exact absurd halloc (Bool.eq_false_iff.mp hno)
      have hstep : ∀ v ∈ mutArraysAfter T mutArrays eqn,
          live₁.writeAll eqn.invars ins v = true → v ∈ muts := by
        intro v hv hl
        rw [hmuts]
        unfold mutArraysAfter at hv ⊢
        rcases hrule.refAllocating with heq | ⟨hno, hno'⟩
        · subst heq
          split at hv
          · rw [if_pos ‹_›]
            rcases List.mem_append.mp hv with hv | hv
            · exact List.mem_append_left _ hv
            · exact List.mem_append_right _ (hmut v hv hl)
          · rw [if_neg ‹_›]
            exact hmut v hv hl
        · rw [hno, if_neg Bool.false_ne_true] at hv
          rw [hno', if_neg Bool.false_ne_true]
          exact hmut v hv hl
      have hmutStep : ∀ v ∈ mutArrays, live₁.writeAll eqn.invars ins v = true → v ∈ muts := by
        intro v hv hl
        rw [hmuts]
        unfold mutArraysAfter
        split
        · exact List.mem_append_right _ (hmut v hv hl)
        · exact hmut v hv hl
      have heffs := fun (eff : Effect K) (heff : eff ∈ eqn'.effects) =>
        jaxprEffect_ok hok hfrom hread hall hmutStep heff
      obtain ⟨here, hhere⟩ := mapM_exists fun eff heff => (heffs eff heff).imp fun _ h => h.1
      obtain ⟨effs, hrest, hback⟩ := ih (fun e he => har e (List.mem_cons_of_mem _ he))
        (fun e he => hsub e (List.mem_cons_of_mem _ he)) (fun v hv hl => hall v hv (hlive hl))
        hoks fun v hv hl => hstep v hv (hlive hl)
      refine ⟨here.flatten ++ effs, ?_, ?_⟩
      · rw [makeJaxprEffects, hadd]
        exact bind_ok.mpr ⟨muts, rfl, bind_ok.mpr ⟨here, hhere, bind_ok.mpr ⟨effs, hrest, rfl⟩⟩⟩
      · intro k i hm
        rcases List.mem_append.mp hm with hm | hm
        · obtain ⟨es, hes, hm⟩ := List.mem_flatten.mp hm
          obtain ⟨eff, heff, hf⟩ := mem_of_mapM_ok hhere hes
          obtain ⟨es', hes', hback'⟩ := heffs eff heff
          have : es = es' := Except.ok.inj (hf.symm.trans hes')
          exact hback' k i (this ▸ hm)
        · exact hback k i hm

/-! ### The fixed point of `scan` -/

/-- Each iteration that is not the last one uses a carry more. -/
theorem scanFixpoint_succeeds {j : Jaxpr P K V} {p : ScanParams} {numXs : ℕ} {ext : List Bool}
    (hdce : ∀ {used inst}, used.length = j.outvars.length → inst.length = j.invars.length →
      ∃ r, dceJaxpr T j used inst = .ok r)
    (hlen : p.numConsts + p.numCarry + numXs = j.invars.length)
    (hext : p.numCarry + ext.length = j.outvars.length) :
    ∀ {n : ℕ} {carry : List Bool}, carry.length = p.numCarry →
    p.numCarry < n + carry.count true →
    ∃ r, scanFixpoint (fun used inst => dceJaxpr T j used inst) p numXs ext n carry = .ok r
  | 0, carry, hcarry, hn => by
      have := List.count_le_length (a := true) (l := carry)
      omega
  | n + 1, carry, hcarry, hn => by
      have hinst : (List.replicate p.numConsts false ++ carry ++
          List.replicate numXs false).length = j.invars.length := by
        simp [hcarry, ← hlen, Nat.add_assoc]
      have houts : (carry ++ ext).length = j.outvars.length := by
        rw [List.length_append, hcarry, hext]
      obtain ⟨⟨new, ins⟩, hr⟩ := hdce houts hinst
      obtain ⟨live, hsteps⟩ := dceJaxpr_steps hr
      have hbelow : Below carry ((ins.drop p.numConsts).take p.numCarry) := by
        have h := List.forall₂_take p.numCarry
          (List.forall₂_drop p.numConsts (hsteps.below hinst))
        rw [List.append_assoc, List.drop_append_of_le_length (by simp), List.drop_replicate,
          Nat.sub_self, List.replicate_zero, List.nil_append, ← hcarry, List.take_left] at h
        rw [← hcarry]
        exact h
      rw [scanFixpoint, hr]
      by_cases hfix : (ins.drop p.numConsts).take p.numCarry = carry
      · exact ⟨(new, ins, carry ++ ext), if_pos hfix⟩
      · have hor := zipWith_or_of_below hbelow
        have hgrown : (carry.zipWith (· || ·)
            ((ins.drop p.numConsts).take p.numCarry)).length = p.numCarry := by
          rw [hor, ← hbelow.length_eq, hcarry]
        have hcount : p.numCarry < n + (carry.zipWith (· || ·)
            ((ins.drop p.numConsts).take p.numCarry)).count true := by
          rw [hor]
          rcases Below.eq_or_count_lt hbelow with heq | hlt
          · exact absurd heq.symm hfix
          · omega
        obtain ⟨r, hr⟩ := scanFixpoint_succeeds hdce hlen hext hgrown hcount
        exact ⟨r, (if_neg hfix).trans hr⟩

theorem dceEqn_succeeds {eqn : JaxprEqn P K V} {used : List Bool} (har : eqn.Arity)
    (hused : used.length = eqn.outvars.length)
    (hsub : ∀ j, eqn.jaxpr? = some j → ∀ {used inst}, used.length = j.outvars.length →
      inst.length = j.invars.length → ∃ r, dceJaxpr T j used inst = .ok r) :
    ∃ r, dceEqn T eqn used = .ok r := by
  cases eqn with
  | prim p invars outvars effects => exact ⟨_, rfl⟩
  | sub how j invars outvars effects =>
      obtain ⟨hfits, hin, hout⟩ := har
      have hout' : used.length = j.outvars.length := hused.trans hout
      have hinst : (List.replicate j.invars.length false).length = j.invars.length :=
        List.length_replicate
      rw [dceEqn]
      cases how with
      | call =>
          change ∃ r, dceJaxprCallRule T _ _ _ _ = .ok r
          unfold dceJaxprCallRule
          split
          · exact ⟨_, rfl⟩
          · obtain ⟨⟨new, ins⟩, hr⟩ := hsub j rfl hout' hinst
            rw [hr]
            by_cases hnone : (!ins.any id && !used.any id && new.effects.isEmpty) = true
            · exact ⟨_, if_pos hnone⟩
            · exact ⟨_, if_neg hnone⟩
      | closedCall consts =>
          change ∃ r, dceJaxprClosedCallRule T _ _ _ _ _ = .ok r
          unfold dceJaxprClosedCallRule
          split
          · exact ⟨_, rfl⟩
          · obtain ⟨⟨new, ins⟩, hr⟩ := hsub j rfl hout' hinst
            rw [hr]
            exact ⟨_, rfl⟩
      | scan consts p =>
          obtain ⟨_, hsplit, hcarry⟩ := hfits
          change ∃ r, scanDceRule T _ _ _ _ _ _ = .ok r
          unfold scanDceRule
          split
          · exact ⟨_, rfl⟩
          · have htake : (used.take p.numCarry).length = p.numCarry := by
              rw [List.length_take]
              omega
            have hdrop : p.numCarry + (used.drop p.numCarry).length = j.outvars.length := by
              rw [List.length_drop]
              omega
            have hmax : p.numCarry < 1 + p.numCarry + (used.take p.numCarry).count true := by
              omega
            obtain ⟨r, hr⟩ := scanFixpoint_succeeds (fun hu hi => hsub j rfl hu hi)
              (show _ + _ + (j.invars.length - p.numConsts - p.numCarry) = _ by omega)
              hdrop htake hmax
            exact ⟨_, bind_ok.mpr ⟨r, hr, rfl⟩⟩

theorem dceEqns_succeeds {live : Live} : ∀ {eqns : List (JaxprEqn P K V)},
    (∀ eqn ∈ eqns, eqn.Arity) →
    (∀ eqn ∈ eqns, ∀ j, eqn.jaxpr? = some j → ∀ {used inst}, used.length = j.outvars.length →
      inst.length = j.invars.length → ∃ r, dceJaxpr T j used inst = .ok r) →
    ∃ r, dceEqns T eqns live = .ok r
  | [], _, _ => ⟨_, rfl⟩
  | eqn :: eqns, har, hsub => by
      obtain ⟨⟨live₁, rest⟩, hrec⟩ := @dceEqns_succeeds live eqns
        (fun e he => har e (List.mem_cons_of_mem _ he))
        (fun e he => hsub e (List.mem_cons_of_mem _ he))
      obtain ⟨⟨ins, new⟩, hrule⟩ := dceEqn_succeeds (har eqn List.mem_cons_self)
        (List.length_map live₁.read) (hsub eqn List.mem_cons_self)
      exact ⟨_, bind_ok.mpr ⟨_, hrec, bind_ok.mpr ⟨_, hrule, rfl⟩⟩⟩

/-- On a well-formed jaxpr the elimination returns. -/
theorem dceJaxpr_succeeds : ∀ {j : Jaxpr P K V}, j.WellFormed T →
    ∀ {usedOutputs instantiate}, usedOutputs.length = j.outvars.length →
    instantiate.length = j.invars.length →
    ∃ new usedInputs, dceJaxpr T j usedOutputs instantiate = .ok (new, usedInputs) ∧
      EffectsFrom j new := by
  intro j
  induction j using Jaxpr.nesting with
  | step j ih =>
      intro hwf usedOutputs instantiate hout hinst
      have har := hwf.wellScoped.here.eqns.arity
      have hsub : ∀ eqn ∈ j.eqns, ∀ b, eqn.jaxpr? = some b → ∀ {used inst},
          used.length = b.outvars.length → inst.length = b.invars.length →
          ∃ r, dceJaxpr T b used inst = .ok r := by
        intro eqn he b hb used inst hu hi
        obtain ⟨new, ins, hd, _⟩ := ih eqn he b hb (hwf.sub he hb) hu hi
        exact ⟨_, hd⟩
      have hfrom : ∀ eqn ∈ j.eqns, ∀ b, eqn.jaxpr? = some b →
          (b.constvars ++ b.invars).Nodup ∧ ∀ {new used inst ins},
            used.length = b.outvars.length → inst.length = b.invars.length →
            dceJaxpr T b used inst = .ok (new, ins) → EffectsFrom b new := by
        intro eqn he b hb
        refine ⟨(hwf.sub he hb).wellScoped.here.nodup, fun {new used inst ins} hu hi hd => ?_⟩
        obtain ⟨new', ins', hd', hf⟩ := ih eqn he b hb (hwf.sub he hb) hu hi
        rw [hd] at hd'
        injection hd' with hd'
        injection hd' with hn _
        exact hn ▸ hf
      obtain ⟨⟨live, rest⟩, hrun⟩ : ∃ r, dceEqns T j.eqns
          (Live.writeAll (fun _ => false) j.outvars usedOutputs) = .ok r :=
        dceEqns_succeeds har hsub
      have hpass := dceEqns_pass har hrun
      have hall : ∀ v ∈ j.constvars ++ j.invars, live v = true →
          v ∈ j.constvars ++ select j.invars (instantiate.zipWith (· || ·) (j.invars.map live)) := by
        intro v hv hl
        rcases List.mem_append.mp hv with hv | hv
        · exact List.mem_append_left _ hv
        · exact List.mem_append_right _ (mem_select_of_forall hv (by simp [hinst])
            fun b hm => used_of_live hm hl)
      obtain ⟨effs, heffs, hback⟩ := hpass.effects har hfrom hall hwf.effects.here
        (fun v hv _ => absurd hv List.not_mem_nil)
      obtain ⟨c, i, eqns, o, f⟩ := j
      refine ⟨_, _, bind_ok.mpr ⟨_, hrun, bind_ok.mpr ⟨_, heffs, rfl⟩⟩, hback⟩

end JaxDas.PartialEval
