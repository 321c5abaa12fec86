import JaxDas.PartialEval.DceScope

/-!
# Dead-code elimination

The results of the modules before this one together: `dce_jaxpr` returns, what it returns is
well scoped and means the same, every equation with an effect that may not be eliminated is
kept in its place, unless it is a `core.call` of which nothing is left, and only inputs that
nothing reads are marked unused.
-/

namespace JaxDas.PartialEval

variable {P K V W : Type}

theorem dceJaxpr_correct [Inhabited V] {T : Primitives P K} {S : Semantics P V W}
    {j : Jaxpr P K V} (hwf : j.WellFormed T) (htruth : j.Truthful T S)
    {usedOutputs instantiate : List Bool} (hout : usedOutputs.length = j.outvars.length)
    (hinst : instantiate.length = j.invars.length) :
    ∃ new usedInputs, dceJaxpr T j usedOutputs instantiate = .ok (new, usedInputs) ∧
      new.Scoped ∧ new.constvars = j.constvars ∧ new.invars = select j.invars usedInputs ∧
      new.outvars = select j.outvars usedOutputs ∧
      (∀ consts args w w', args.length = j.invars.length → S.same w w' →
        (evalJaxpr S new consts (select args usedInputs) w').1 =
            select (evalJaxpr S j consts args w).1 usedOutputs ∧
          S.same (evalJaxpr S j consts args w).2
            (evalJaxpr S new consts (select args usedInputs) w').2) ∧
      KeptEqns T j.eqns new.eqns ∧
      ∀ v, (v, false) ∈ j.invars.zip usedInputs →
        (∀ eqn ∈ new.eqns, .var v ∉ eqn.invars) ∧ .var v ∉ new.outvars := by
  obtain ⟨new, ins, hdce, _⟩ := dceJaxpr_succeeds hwf hout hinst
  obtain ⟨live, hsteps⟩ := dceJaxpr_steps hdce
  have har := hwf.wellScoped.here.eqns.arity
  refine ⟨new, ins, hdce, scoped_dceJaxpr hwf.wellScoped hout hinst hdce, hsteps.constvars,
    hsteps.invars, hsteps.outvars, ?_, (dceEqns_pass har hsteps.eqns).kept, ?_⟩
  · intro consts args w w' hargs hw
    exact preserves hwf htruth hout hinst hdce consts args w w' hargs hw
  · intro v hv
    exact hsteps.not_read har hv

/-- One primitive, without effects. -/
def sumPrimitives : Primitives Unit Unit := ⟨fun _ => false, fun _ => false, fun _ => false⟩

/-- The primitive adds its arguments. -/
def sumSemantics : Semantics Unit ℕ Unit where
  bind _ args w := ([args.foldl (· + ·) 0], w)
  index x _ := x
  stack xs := xs.foldl (· + ·) 0
  same := ⟨fun _ _ => True, fun _ => trivial, fun _ => trivial, fun _ _ => trivial⟩
  bind_same _ _ _ _ _ := ⟨rfl, trivial⟩

/-- A sum of two inputs, and the pair of it and of the third one through a `closed_call`. -/
def sumAndPair : Jaxpr Unit Unit ℕ :=
  .mk [] [0, 1, 2]
    [.prim () [.var 0, .var 1] [some 3] [],
      .sub (.closedCall []) (.mk [] [0, 1] [.prim () [.var 0] [some 2] [],
        .prim () [.var 1, .literal 1] [some 3] []] [.var 2, .var 3] [])
        [.var 3, .var 2] [some 4, some 5] []]
    [.var 4, .var 5] []

/-- Without the second output the third input is not used. -/
theorem dceJaxpr_correct_sumAndPair :
    ∃ new usedInputs,
      dceJaxpr sumPrimitives sumAndPair [true, false] [false, false, false] =
        .ok (new, usedInputs) ∧
      new.Scoped ∧ usedInputs = [true, true, false] ∧
      (evalJaxpr sumSemantics new [] (select [1, 2, 7] usedInputs) ()).1 = [3] := by
  have hwf : sumAndPair.WellFormed sumPrimitives := by
    refine ⟨?_, ?_⟩
    · simp only [Jaxpr.Scoped, sumAndPair, Jaxpr.Every, EveryEqns, EveryEqn, and_true,
        true_and]
      exact ⟨⟨by decide, by simp [ScopedEqns, Jaxpr.constvars, Jaxpr.invars, Jaxpr.eqns,
          Jaxpr.outvars, JaxprEqn.invars, JaxprEqn.binders, JaxprEqn.outvars, JaxprEqn.Arity,
          HigherOrder.Fits], by simp [bindersOf, Jaxpr.constvars, Jaxpr.invars, Jaxpr.eqns,
          Jaxpr.outvars, JaxprEqn.binders, JaxprEqn.outvars]⟩,
        ⟨by decide, by simp [ScopedEqns, Jaxpr.constvars, Jaxpr.invars, Jaxpr.eqns,
          JaxprEqn.invars, JaxprEqn.binders, JaxprEqn.outvars, JaxprEqn.Arity],
          by simp [bindersOf, Jaxpr.constvars, Jaxpr.invars, Jaxpr.eqns,
          Jaxpr.outvars, JaxprEqn.binders, JaxprEqn.outvars]⟩⟩
    · have hok : ∀ eqn : JaxprEqn Unit Unit ℕ, eqn.effects = [] →
          (∀ b, eqn.jaxpr? = some b → b.effects = []) → ∀ {all effs muts},
          eqn.EffectsOk sumPrimitives all effs muts := by
        intro eqn hnil hsub all effs muts
        refine ⟨fun k i h => ?_, fun h => ?_, fun b hb k i h => ?_⟩
        · rw [hnil] at h
          exact absurd h List.not_mem_nil
        · cases eqn <;> exact absurd h Bool.false_ne_true
        · rw [hsub b hb] at h
          exact absurd h List.not_mem_nil
      simp only [Jaxpr.EffectsDeclared, sumAndPair, Jaxpr.Every, EveryEqns, EveryEqn,
        EffectsOkEqns, Jaxpr.eqns, and_true, true_and]
      refine ⟨⟨hok _ rfl fun b hb => ?_, hok _ rfl fun b hb => ?_⟩,
        hok _ rfl fun b hb => ?_, hok _ rfl fun b hb => ?_⟩
      · injection hb
      · injection hb with hb
        exact hb ▸ rfl
      · injection hb
      · injection hb
  have htruth : sumAndPair.Truthful sumPrimitives sumSemantics := by
    simp only [Jaxpr.Truthful, sumAndPair, Jaxpr.Every, EveryEqns, EveryEqn, and_true, true_and]
    exact ⟨fun _ _ _ _ _ _ => trivial, fun _ _ _ _ _ _ => trivial⟩
  obtain ⟨new, ins, hdce, hscoped, _, _, _, heval, _, _⟩ :=
    dceJaxpr_correct hwf htruth (show [true, false].length = _ from rfl)
      (show [false, false, false].length = _ from rfl)
  have hins : ins = [true, true, false] := by
    have hrun := hdce.symm
    injection hrun with hrun
    injection hrun
  refine ⟨new, ins, hdce, hscoped, hins, ?_⟩
  rw [(heval [] [1, 2, 7] () () rfl trivial).1]
  rfl

/-- A `core.call` of a jaxpr that declares an effect and has no equations. -/
def emptyCall : JaxprEqn Unit Unit Unit :=
  .sub .call (.mk [] [] [] [] [⟨(), none⟩]) [] [] [⟨(), none⟩]

/-- An equation with an effect outside `dceable_effects` is dropped: the effect is one that
the called jaxpr declares, as it may, and that none of its equations has. -/
theorem effectful_call_dropped :
    (Jaxpr.mk [] [] [emptyCall] [] [⟨(), none⟩]).WellFormed sumPrimitives ∧
      hasEffects sumPrimitives emptyCall = true ∧
      ∃ new, dceJaxpr sumPrimitives (.mk [] [] [emptyCall] [] [⟨(), none⟩]) [] [] =
          .ok (new, []) ∧ new.eqns = [] := by
  refine ⟨⟨?_, ?_⟩, rfl, _, rfl, rfl⟩
  · simp only [Jaxpr.Scoped, emptyCall, Jaxpr.Every, EveryEqns, EveryEqn, and_true]
    exact ⟨⟨by decide, by simp [ScopedEqns, Jaxpr.constvars, Jaxpr.invars, Jaxpr.eqns,
        Jaxpr.outvars, JaxprEqn.invars, JaxprEqn.binders, JaxprEqn.outvars, JaxprEqn.Arity,
        HigherOrder.Fits, varsOf], by simp [Jaxpr.outvars, varsOf]⟩,
      ⟨by decide, trivial, by simp [Jaxpr.outvars, varsOf]⟩⟩
  · simp only [Jaxpr.EffectsDeclared, emptyCall, Jaxpr.Every, EveryEqns, EveryEqn,
      EffectsOkEqns, Jaxpr.eqns, and_true]
    refine ⟨fun k i h => ?_, fun h => absurd h Bool.false_ne_true, fun b hb k i h => ?_⟩
    · simp [JaxprEqn.effects] at h
    · injection hb with hb
      subst hb
      simp [Jaxpr.effects] at h

end JaxDas.PartialEval
