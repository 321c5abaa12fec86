import JaxDas.PartialEval.WellFormed

/-!
# What the rules of the elimination can do

A rule drops an equation, keeps it as it is, or leaves it with a pruned jaxpr. A `core.call`
may also be dropped after its jaxpr was pruned, when nothing is left of it.
-/

namespace JaxDas.PartialEval

variable {P K V W : Type} {T : Primitives P K}

/-- The parameters of a primitive once the jaxpr it holds is pruned. -/
def HigherOrder.prune (usedInputs : List Bool) : HigherOrder V → HigherOrder V
  | call => call
  | closedCall consts => closedCall consts
  | scan consts p => scan consts (p.prune usedInputs)

/-- The effects of an equation that holds a jaxpr. -/
def HigherOrder.effectsOf (j : Jaxpr P K V) : HigherOrder V → List (Effect K)
  | call => j.effects
  | closedCall _ => eqnEffects j
  | scan _ _ => eqnEffects j

/-- A `scan` uses a carry where it goes in exactly when it uses it where it comes out. -/
def HigherOrder.Settled (usedInputs usedOutputs : List Bool) : HigherOrder V → Prop
  | call => True
  | closedCall _ => True
  | scan _ p => (usedInputs.drop p.numConsts).take p.numCarry = usedOutputs.take p.numCarry

/-- What a rule can make of an equation whose outputs are used as `used` says. -/
inductive RuleResult (T : Primitives P K) (eqn : JaxprEqn P K V) (used : List Bool) :
    List Bool → Option (JaxprEqn P K V) → Prop
  | dropped : used.any id = false → hasEffects T eqn = false →
      RuleResult T eqn used (List.replicate eqn.invars.length false) none
  | kept : eqn.jaxpr? = none →
      RuleResult T eqn used (List.replicate eqn.invars.length true) (some eqn)
  | pruned {how : HigherOrder V} {j new : Jaxpr P K V} {invars : List (Atom V)}
      {outvars : List (Option Var)} {effects : List (Effect K)}
      {usedOutputs instantiate usedInputs : List Bool} :
      eqn = .sub how j invars outvars effects →
      dceJaxpr T j usedOutputs instantiate = .ok (new, usedInputs) →
      usedOutputs.length = j.outvars.length → instantiate.length = j.invars.length →
      Below used usedOutputs → how.Settled usedInputs usedOutputs →
      RuleResult T eqn used usedInputs
        (some (.sub (how.prune usedInputs) new (select invars usedInputs)
          (select outvars usedOutputs) (how.effectsOf new)))
  | emptied {j new : Jaxpr P K V} {invars : List (Atom V)}
      {outvars : List (Option Var)} {effects : List (Effect K)}
      {instantiate usedInputs : List Bool} :
      eqn = .sub .call j invars outvars effects →
      dceJaxpr T j used instantiate = .ok (new, usedInputs) →
      used.length = j.outvars.length → instantiate.length = j.invars.length →
      used.any id = false → usedInputs.any id = false → new.effects = [] →
      RuleResult T eqn used usedInputs none

/-- What a successful elimination did. -/
structure DceSteps (T : Primitives P K) (j : Jaxpr P K V) (usedOutputs instantiate : List Bool)
    (new : Jaxpr P K V) (usedInputs : List Bool) (live : Live) : Prop where
  eqns : dceEqns T j.eqns (Live.writeAll (fun _ => false) j.outvars usedOutputs) =
    .ok (live, new.eqns)
  used : usedInputs = instantiate.zipWith (· || ·) (j.invars.map live)
  constvars : new.constvars = j.constvars
  invars : new.invars = select j.invars usedInputs
  outvars : new.outvars = select j.outvars usedOutputs
  effects : makeJaxprEffects T (j.constvars ++ select j.invars usedInputs) [] new.eqns =
    .ok new.effects

theorem dceJaxpr_steps {j new : Jaxpr P K V} {usedOutputs instantiate usedInputs : List Bool}
    (h : dceJaxpr T j usedOutputs instantiate = .ok (new, usedInputs)) :
    ∃ live, DceSteps T j usedOutputs instantiate new usedInputs live := by
  obtain ⟨c, i, eqns, o, f⟩ := j
  rw [dceJaxpr] at h
  obtain ⟨⟨live, newEqns⟩, heqns, h⟩ := bind_ok.mp h
  obtain ⟨effs, heffs, h⟩ := bind_ok.mp h
  injection h with h
  injection h with hnew hused
  subst hnew hused
  exact ⟨live, heqns, rfl, rfl, rfl, rfl, heffs⟩

theorem DceSteps.length {j new : Jaxpr P K V} {usedOutputs instantiate usedInputs : List Bool}
    {live : Live} (h : DceSteps T j usedOutputs instantiate new usedInputs live)
    (hinst : instantiate.length = j.invars.length) : usedInputs.length = j.invars.length := by
  rw [h.used, List.length_zipWith, List.length_map, hinst, Nat.min_self]

/-- Every input that is live is used. -/
theorem used_of_live {invars : List Var} {instantiate : List Bool} {live : Live} {v : Var}
    {b : Bool} (hm : (v, b) ∈ invars.zip (instantiate.zipWith (· || ·) (invars.map live)))
    (hv : live v = true) : b = true := by
  obtain ⟨i, hi⟩ := List.getElem?_of_mem hm
  obtain ⟨h₁, h₂⟩ := List.getElem?_zip_eq_some.mp hi
  obtain ⟨a, c, _, hc, hab⟩ := List.getElem?_zipWith_eq_some.mp h₂
  rw [List.getElem?_map, h₁, Option.map_some, Option.some.injEq, hv] at hc
  rw [show b = (a || c) from hab.symm, ← hc, Bool.or_true]

theorem DceSteps.used_of_live {j new : Jaxpr P K V}
    {usedOutputs instantiate usedInputs : List Bool} {live : Live}
    (h : DceSteps T j usedOutputs instantiate new usedInputs live) {v : Var} {b : Bool}
    (hm : (v, b) ∈ j.invars.zip usedInputs) (hv : live v = true) : b = true := by
  rw [h.used] at hm
  exact PartialEval.used_of_live hm hv

/-- Every input that is to be instantiated is used. -/
theorem DceSteps.below {j new : Jaxpr P K V} {usedOutputs instantiate usedInputs : List Bool}
    {live : Live} (h : DceSteps T j usedOutputs instantiate new usedInputs live)
    (hinst : instantiate.length = j.invars.length) : Below instantiate usedInputs := by
  rw [h.used]
  exact below_zipWith_or_left (by rw [List.length_map, hinst])

theorem dceJaxpr_length {j new : Jaxpr P K V} {usedOutputs instantiate usedInputs : List Bool}
    (h : dceJaxpr T j usedOutputs instantiate = .ok (new, usedInputs))
    (hinst : instantiate.length = j.invars.length) : usedInputs.length = j.invars.length := by
  obtain ⟨live, h⟩ := dceJaxpr_steps h
  exact h.length hinst

/-- What the loop of the `scan` rule ends with. -/
theorem scanFixpoint_ok {j new : Jaxpr P K V} {p : ScanParams} {numXs : ℕ}
    (hlen : p.numConsts + p.numCarry + numXs = j.invars.length) {ext : List Bool} :
    ∀ {n : ℕ} {carry usedInputs usedOutputs : List Bool}, carry.length = p.numCarry →
    scanFixpoint (fun used inst => dceJaxpr T j used inst) p numXs ext n carry =
      .ok (new, usedInputs, usedOutputs) →
    ∃ instantiate, dceJaxpr T j usedOutputs instantiate = .ok (new, usedInputs) ∧
      instantiate.length = j.invars.length ∧ usedOutputs.length = (carry ++ ext).length ∧
      Below (carry ++ ext) usedOutputs ∧
      (usedInputs.drop p.numConsts).take p.numCarry = usedOutputs.take p.numCarry
  | 0, _, _, _, _, h => by
      rw [scanFixpoint] at h
      injection h
  | n + 1, carry, usedInputs, usedOutputs, hcarry, h => by
      rw [scanFixpoint] at h
      obtain ⟨⟨new', ins⟩, hdce, h⟩ := bind_ok.mp h
      have hinst : (List.replicate p.numConsts false ++ carry ++
          List.replicate numXs false).length = j.invars.length := by
        simp [hcarry, ← hlen, Nat.add_assoc]
      have hins := dceJaxpr_length hdce hinst
      rcases ite_ok h with ⟨hfix, h⟩ | ⟨_, h⟩
      · injection h with h
        injection h with h₁ h
        injection h with h₂ h₃
        subst h₁ h₂ h₃
        exact ⟨_, hdce, hinst, rfl, Below.refl _, by rw [hfix, ← hcarry, List.take_left]⟩
      · have hin : ((ins.drop p.numConsts).take p.numCarry).length = p.numCarry := by
          rw [List.length_take, List.length_drop, hins, ← hlen]
          omega
        have hgrown : (carry.zipWith (· || ·) ((ins.drop p.numConsts).take p.numCarry)).length =
            p.numCarry := by
          rw [List.length_zipWith, hin, hcarry, Nat.min_self]
        obtain ⟨inst, hd, hi, hlo, hb, hs⟩ := scanFixpoint_ok hlen hgrown h
        have hgrow : Below (carry ++ ext) (carry.zipWith (· || ·)
            ((ins.drop p.numConsts).take p.numCarry) ++ ext) :=
          List.rel_append (below_zipWith_or_left (hcarry.trans hin.symm)) (Below.refl _)
        refine ⟨inst, hd, hi, ?_, hgrow.trans hb, hs⟩
        rw [hlo, List.length_append, List.length_append, hgrown, hcarry]

/-- Every rule does one of these. -/
theorem dceEqn_cases {eqn : JaxprEqn P K V} {used ins : List Bool}
    {new : Option (JaxprEqn P K V)} (har : eqn.Arity) (hused : used.length = eqn.outvars.length)
    (h : dceEqn T eqn used = .ok (ins, new)) : RuleResult T eqn used ins new := by
  cases eqn with
  | prim p invars outvars effects =>
      rw [dceEqn] at h
      injection h with h
      split at h
      · injection h with h₁ h₂
        subst h₁ h₂
        exact .kept rfl
      · unfold defaultDceRule at h
        split at h
        · rename_i hdrop
          injection h with h₁ h₂
          subst h₁ h₂
          simp only [Bool.and_eq_true, Bool.not_eq_true'] at hdrop
          exact .dropped hdrop.1 hdrop.2
        · injection h with h₁ h₂
          subst h₁ h₂
          exact .kept rfl
  | sub how j invars outvars effects =>
      obtain ⟨hfits, hin, hout⟩ := har
      have hout' : used.length = j.outvars.length := hused.trans hout
      rw [dceEqn] at h
      -- each of the three rules first drops what is neither used nor has effects
      have hfirst : ∀ {x : Except DceError (DceResult P K V)},
          (if !used.any id && !hasEffects T (.sub how j invars outvars effects) then
            .ok (List.replicate invars.length false, none) else x) = .ok (ins, new) →
          RuleResult T (.sub how j invars outvars effects) used ins new ∨ x = .ok (ins, new) := by
        intro x hx
        rcases ite_ok hx with ⟨hdrop, hx⟩ | ⟨_, hx⟩
        · injection hx with hx
          injection hx with h₁ h₂
          subst h₁ h₂
          simp only [Bool.and_eq_true, Bool.not_eq_true'] at hdrop
          exact .inl (.dropped hdrop.1 hdrop.2)
        · exact .inr hx
      cases how with
      | call =>
          rcases hfirst h with h | h
          · exact h
          obtain ⟨⟨new', ins'⟩, hdce, h⟩ := bind_ok.mp h
          rcases ite_ok h with ⟨hnone, h⟩ | ⟨_, h⟩
          · injection h with h
            injection h with h₁ h₂
            subst h₁ h₂
            simp only [Bool.and_eq_true, Bool.not_eq_true', List.isEmpty_iff] at hnone
            exact .emptied rfl hdce hout' (by simp) hnone.1.2 hnone.1.1 hnone.2
          · injection h with h
            injection h with h₁ h₂
            subst h₁ h₂
            exact .pruned rfl hdce hout' (by simp) (Below.refl _) trivial
      | closedCall consts =>
          rcases hfirst h with h | h
          · exact h
          obtain ⟨⟨new', ins'⟩, hdce, h⟩ := bind_ok.mp h
          injection h with h
          injection h with h₁ h₂
          subst h₁ h₂
          exact .pruned rfl hdce hout' (by simp) (Below.refl _) trivial
      | scan consts p =>
          obtain ⟨_, hsplit, hcarry⟩ := hfits
          rcases hfirst h with h | h
          · exact h
          obtain ⟨⟨new', ins', used'⟩, hfix, h⟩ := bind_ok.mp h
          injection h with h
          injection h with h₁ h₂
          subst h₁ h₂
          obtain ⟨inst, hdce, hinst, hlen, hbelow, hsettled⟩ :=
            scanFixpoint_ok (by omega) (by rw [List.length_take]; omega) hfix
          rw [List.take_append_drop] at hlen hbelow
          exact .pruned rfl hdce (hlen.trans hout') hinst hbelow hsettled

/-! ### What is common to the cases -/

section

variable {eqn eqn' : JaxprEqn P K V} {used ins : List Bool}

/-- Only an equation whose outputs are all unused is dropped. -/
theorem RuleResult.unused (h : RuleResult T eqn used ins none) : used.any id = false := by
  cases h with
  | dropped hused _ => exact hused
  | emptied _ _ _ _ hused _ _ => exact hused

/-- What is left of an equation reads the inputs that are used. -/
theorem RuleResult.invars (h : RuleResult T eqn used ins (some eqn')) :
    eqn'.invars = select eqn.invars ins := by
  cases h with
  | kept _ => exact (select_replicate_true _).symm
  | pruned heq _ _ _ _ _ => rw [heq]; rfl

/-- What is left of an equation binds at least the outputs that are used. -/
theorem RuleResult.outvars (h : RuleResult T eqn used ins (some eqn')) (har : eqn.Arity)
    (hlen : used.length = eqn.outvars.length) :
    ∃ used', Below used used' ∧ used'.length = eqn.outvars.length ∧
      eqn'.outvars = select eqn.outvars used' := by
  cases h with
  | kept _ =>
      refine ⟨List.replicate eqn.outvars.length true, ?_, by simp,
        (select_replicate_true _).symm⟩
      rw [← hlen]
      exact below_replicate_true used
  | pruned heq _ hout _ hbelow _ =>
      subst heq
      exact ⟨_, hbelow, hout.trans har.2.2.symm, rfl⟩

/-- An equation that allocates a reference is kept as it is, if it is kept. -/
theorem RuleResult.refAllocating (h : RuleResult T eqn used ins (some eqn')) :
    eqn' = eqn ∨ (eqn.refAllocating T = false ∧ eqn'.refAllocating T = false) := by
  cases h with
  | kept _ => exact .inl rfl
  | pruned heq _ _ _ _ _ => rw [heq]; exact .inr ⟨rfl, rfl⟩

end

/-- The backward pass: from the variables live after the equations to those live before
them, and to the equations that are left. -/
inductive DcePass (T : Primitives P K) (live : Live) :
    List (JaxprEqn P K V) → Live → List (JaxprEqn P K V) → Prop
  | nil : DcePass T live [] live []
  | drop {eqn eqns live₁ rest ins} : DcePass T live eqns live₁ rest →
      RuleResult T eqn (eqn.outvars.map live₁.read) ins none →
      DcePass T live (eqn :: eqns) (live₁.writeAll eqn.invars ins) rest
  | keep {eqn eqns live₁ rest ins eqn'} : DcePass T live eqns live₁ rest →
      RuleResult T eqn (eqn.outvars.map live₁.read) ins (some eqn') →
      DcePass T live (eqn :: eqns) (live₁.writeAll eqn.invars ins) (eqn' :: rest)

theorem dceEqns_pass {live : Live} : ∀ {eqns : List (JaxprEqn P K V)} {live₀ : Live}
    {rest : List (JaxprEqn P K V)}, (∀ eqn ∈ eqns, eqn.Arity) →
    dceEqns T eqns live = .ok (live₀, rest) → DcePass T live eqns live₀ rest
  | [], live₀, rest, _, h => by
      rw [dceEqns] at h
      injection h with h
      injection h with h₁ h₂
      subst h₁ h₂
      exact .nil
  | eqn :: eqns, live₀, rest, har, h => by
      rw [dceEqns] at h
      obtain ⟨⟨live₁, rest₁⟩, hrec, h⟩ := bind_ok.mp h
      obtain ⟨⟨ins, new⟩, hrule, h⟩ := bind_ok.mp h
      injection h with h
      injection h with h₁ h₂
      subst h₁ h₂
      have hpass := dceEqns_pass (fun e he => har e (List.mem_cons_of_mem _ he)) hrec
      have hcases := dceEqn_cases (har eqn List.mem_cons_self) (List.length_map _) hrule
      cases new with
      | none => exact .drop hpass hcases
      | some eqn' => exact .keep hpass hcases

section

variable {live live₀ : Live} {eqns rest : List (JaxprEqn P K V)}

/-- What is live stays live. -/
theorem DcePass.live_mono (h : DcePass T live eqns live₀ rest) {v : Var} (hv : live v = true) :
    live₀ v = true := by
  induction h with
  | nil => exact hv
  | drop _ _ ih => exact Live.writeAll_iff.mpr (.inl ih)
  | keep _ _ ih => exact Live.writeAll_iff.mpr (.inl ih)

/-- What a kept equation reads is live. -/
theorem DcePass.live_of_read (h : DcePass T live eqns live₀ rest) {eqn : JaxprEqn P K V}
    (hm : eqn ∈ rest) {v : Var} (hv : .var v ∈ eqn.invars) : live₀ v = true := by
  induction h with
  | nil => exact absurd hm List.not_mem_nil
  | drop _ _ ih => exact Live.writeAll_iff.mpr (.inl (ih hm))
  | keep _ hrule ih =>
      rcases List.mem_cons.mp hm with rfl | hm
      · rw [hrule.invars] at hv
        exact Live.writeAll_iff.mpr (.inr hv)
      · exact Live.writeAll_iff.mpr (.inl (ih hm))

end

/-- No binder of an equation is live when none of its outputs is used. -/
theorem not_live_of_unused {eqn : JaxprEqn P K V} {live : Live}
    (h : (eqn.outvars.map live.read).any id = false) {v : Var} (hv : v ∈ eqn.binders) :
    live v = false := by
  rw [List.any_map, List.any_eq_false] at h
  exact Bool.eq_false_iff.mpr (h _ (JaxprEqn.mem_binders.mp hv))

end JaxDas.PartialEval
