import JaxDas.PartialEval.DceCorrect

/-!
# Dead carries of a scan

A carry may be needed only for another carry, several iterations later. The rule of `scan`
therefore prunes the body again and again, each time with the carries that the last pruning
still reads, until none is added. There is one iteration more than there are carries, and
that is enough. What is left is settled: a carry that the pruned body computes is one that it
is given.
-/

namespace JaxDas.PartialEval

variable {P K V W : Type}

/-- The rule of `scan` leaves a pruned `scan` when an output is used, and that computes what
the `scan` computes, on every output that it still has. -/
theorem scanDceRule_correct [Inhabited V] {T : Primitives P K} {S : Semantics P V W}
    {j : Jaxpr P K V} (hwf : j.WellFormed T) (htruth : j.Truthful T S)
    {consts : List V} {p : ScanParams} {invars : List (Atom V)} {outvars : List (Option Var)}
    {effects : List (Effect K)}
    (har : (JaxprEqn.sub (.scan consts p) j invars outvars effects).Arity)
    {usedOutputs : List Bool} (hout : usedOutputs.length = outvars.length)
    (hused : usedOutputs.any id = true) :
    ∃ usedInputs newUsedOutputs newEqn,
      scanDceRule T (fun used inst => dceJaxpr T j used inst) j.invars.length consts p usedOutputs
        (.sub (.scan consts p) j invars outvars effects) = .ok (usedInputs, some newEqn) ∧
      newEqn.Arity ∧ newEqn.invars = select invars usedInputs ∧
      newEqn.outvars = select outvars newUsedOutputs ∧ Below usedOutputs newUsedOutputs ∧
      ∀ args w w', args.length = invars.length → S.same w w' →
        (evalEqn S newEqn (select args usedInputs) w').1 =
            select (evalEqn S (.sub (.scan consts p) j invars outvars effects) args w).1
              newUsedOutputs ∧
          S.same (evalEqn S (.sub (.scan consts p) j invars outvars effects) args w).2
            (evalEqn S newEqn (select args usedInputs) w').2 := by
  obtain ⟨⟨ins, left⟩, hrule⟩ := @dceEqn_succeeds _ _ _ T _ usedOutputs har hout fun b hb => by
    injection hb with hb
    subst hb
    intro used inst hu hi
    obtain ⟨new, ins, hdce, _⟩ := dceJaxpr_succeeds hwf hu hi
    exact ⟨_, hdce⟩
  have hcases := dceEqn_cases har hout hrule
  rw [dceEqn] at hrule
  cases left with
  | none => exact absurd (hcases.unused.symm.trans hused) Bool.false_ne_true
  | some newEqn =>
      have harity := hcases.arity har
      have hinvars := hcases.invars
      cases hcases with
      | kept hprim => injection hprim
      | pruned heq hdce hlen hinst hbelow hsettled =>
          injection heq with hhow hj hi ho _
          subst hhow hj hi ho
          obtain ⟨hfits, hin, _⟩ := har
          refine ⟨ins, _, _, hrule, harity, hinvars, rfl, hbelow, ?_⟩
          intro args w w' hargs hw
          simp only [evalEqn]
          exact impl_prune (preserves hwf htruth) hfits hlen hinst hdce hsettled
            (hargs.trans hin) hw

/-- Every iteration moves three carries one place down and adds one to the third. A fourth
carry stays as it is. -/
def shiftBody : Jaxpr Unit Unit ℕ :=
  .mk [] [0, 1, 2, 3]
    [.prim () [.var 1] [some 4] [], .prim () [.var 2] [some 5] [],
      .prim () [.var 2, .literal 1] [some 6] []]
    [.var 4, .var 5, .var 6, .var 3] []

/-- The first carry needs the third one from two iterations before. Only the fourth is dead. -/
theorem scanDceRule_correct_shift :
    ∃ (newUsedOutputs : List Bool) (newEqn : JaxprEqn Unit Unit ℕ),
      scanDceRule sumPrimitives (fun used inst => dceJaxpr sumPrimitives shiftBody used inst) 4 []
        ⟨3, false, 0, 4⟩ [true, false, false, false]
        (.sub (.scan [] ⟨3, false, 0, 4⟩) shiftBody [.var 0, .var 1, .var 2, .var 3]
          [some 4, some 5, some 6, some 7] []) = .ok ([true, true, true, false], some newEqn) ∧
      newEqn.outvars = [some 4, some 5, some 6] ∧
      Below [true, false, false, false] newUsedOutputs ∧
      (evalEqn sumSemantics newEqn [1, 2, 3] ()).1 = select [4, 5, 6, 9] newUsedOutputs := by
  have hwf : shiftBody.WellFormed sumPrimitives := by
    refine ⟨?_, ?_⟩
    · simp only [Jaxpr.Scoped, shiftBody, Jaxpr.Every, EveryEqns, EveryEqn, and_true]
      exact ⟨by decide, by simp [ScopedEqns, Jaxpr.constvars, Jaxpr.invars, Jaxpr.eqns,
        JaxprEqn.invars, JaxprEqn.binders, JaxprEqn.outvars, JaxprEqn.Arity],
        by simp [bindersOf, Jaxpr.constvars, Jaxpr.invars, Jaxpr.eqns, Jaxpr.outvars,
          JaxprEqn.binders, JaxprEqn.outvars]⟩
    · have hok : ∀ {ins : List (Atom ℕ)} {outs all effs muts},
          (JaxprEqn.prim () ins outs []).EffectsOk sumPrimitives all effs muts :=
        fun {ins outs all effs muts} => ⟨fun k i h => absurd h List.not_mem_nil,
          fun h => absurd h Bool.false_ne_true, fun b hb => by injection hb⟩
      simp only [Jaxpr.EffectsDeclared, shiftBody, Jaxpr.Every, EveryEqns, EveryEqn,
        EffectsOkEqns, Jaxpr.eqns, and_true]
      exact ⟨hok, hok, hok⟩
  have htruth : shiftBody.Truthful sumPrimitives sumSemantics := by
    simp only [Jaxpr.Truthful, shiftBody, Jaxpr.Every, EveryEqns, EveryEqn, and_true]
    exact fun _ _ _ _ _ _ => trivial
  obtain ⟨ins, outs, newEqn, hrule, _, _, _, hbelow, heval⟩ :=
    @scanDceRule_correct _ _ _ _ _ sumPrimitives sumSemantics _ hwf htruth []
      ⟨3, false, 0, 4⟩ [.var 0, .var 1, .var 2, .var 3] [some 4, some 5, some 6, some 7] []
      ⟨⟨rfl, by decide, by decide⟩, rfl, rfl⟩ [true, false, false, false] rfl rfl
  have hrun := hrule.symm
  injection hrun with hrun
  injection hrun with hins hnew
  injection hnew with hnew
  subst hins hnew
  exact ⟨outs, _, rfl, rfl, hbelow, (heval [1, 2, 3, 9] () () rfl trivial).1⟩

end JaxDas.PartialEval
