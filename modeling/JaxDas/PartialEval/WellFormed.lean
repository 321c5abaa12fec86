import JaxDas.PartialEval.Dce

/-!
# Well-formed jaxprs

What `core.check_jaxpr` asks of a jaxpr and of every jaxpr nested in it: variables are bound
before they are read and never twice, an equation that holds a jaxpr passes it what it
takes, and the effects of an equation that act on an input are effects of the jaxpr.
-/

namespace JaxDas.PartialEval

variable {P K V W : Type}

/-- The parameters of a primitive match the jaxpr it holds. -/
def HigherOrder.Fits (j : Jaxpr P K V) : HigherOrder V → Prop
  | call => j.constvars = []
  | closedCall consts => consts.length = j.constvars.length
  | scan consts p =>
      consts.length = j.constvars.length ∧ p.numConsts + p.numCarry ≤ j.invars.length ∧
        p.numCarry ≤ j.outvars.length

/-- An equation that holds a jaxpr has an input for each of its inputs, and an output for
each of its outputs. -/
def JaxprEqn.Arity : JaxprEqn P K V → Prop
  | .prim _ _ _ _ => True
  | .sub how j invars outvars _ =>
      how.Fits j ∧ invars.length = j.invars.length ∧ outvars.length = j.outvars.length

/-- The equations read what is bound, and bind what is not. -/
def ScopedEqns : List Var → List (JaxprEqn P K V) → Prop
  | _, [] => True
  | bound, eqn :: eqns =>
      (∀ v ∈ varsOf eqn.invars, v ∈ bound) ∧ (bound ++ eqn.binders).Nodup ∧ eqn.Arity ∧
        ScopedEqns (bound ++ eqn.binders) eqns

/-- The variables bound by equations. -/
def bindersOf (eqns : List (JaxprEqn P K V)) : List Var :=
  eqns.flatMap JaxprEqn.binders

structure Jaxpr.ScopedHere (j : Jaxpr P K V) : Prop where
  nodup : (j.constvars ++ j.invars).Nodup
  eqns : ScopedEqns (j.constvars ++ j.invars) j.eqns
  outvars : ∀ v ∈ varsOf j.outvars, v ∈ j.constvars ++ j.invars ++ bindersOf j.eqns

def Jaxpr.Scoped (j : Jaxpr P K V) : Prop := j.Every Jaxpr.ScopedHere

/-- The references allocated before and by an equation. -/
def mutArraysAfter (T : Primitives P K) (mutArrays : List Var) (eqn : JaxprEqn P K V) : List Var :=
  if eqn.refAllocating T then eqn.binders ++ mutArrays else mutArrays

/-- The effects of an equation, in a jaxpr with the inputs `allVars` and the effects
`effects`. -/
structure JaxprEqn.EffectsOk (T : Primitives P K) (allVars : List Var) (effects : List (Effect K))
    (mutArrays : List Var) (eqn : JaxprEqn P K V) : Prop where
  /-- An effect on an input is on a reference: one allocated earlier, or an input of the
  jaxpr, which then has the effect too. -/
  input : ∀ k i, ⟨k, some i⟩ ∈ eqn.effects → ∃ v, eqn.invars[i]? = some (.var v) ∧
    (v ∈ mutArrays ∨ ∃ n, allVars.idxOf? v = some n ∧ ⟨k, some n⟩ ∈ effects)
  /-- Allocating a reference binds one variable and is an effect, `InternalMutableArrayEffect`. -/
  allocates : eqn.refAllocating T = true →
    eqn.outvars.length = 1 ∧ ∃ k, ⟨k, none⟩ ∈ eqn.effects
  /-- An equation has the effects of its jaxpr, which act on its explicit inputs. -/
  sub : ∀ j, eqn.jaxpr? = some j → ∀ k i, ⟨k, some i⟩ ∈ j.effects →
    j.constvars.length ≤ i ∧ ⟨k, some (i - j.constvars.length)⟩ ∈ eqn.effects

def EffectsOkEqns (T : Primitives P K) (allVars : List Var) (effects : List (Effect K)) :
    List Var → List (JaxprEqn P K V) → Prop
  | _, [] => True
  | mutArrays, eqn :: eqns =>
      eqn.EffectsOk T allVars effects mutArrays ∧
        EffectsOkEqns T allVars effects (mutArraysAfter T mutArrays eqn) eqns

/-- The effects of a jaxpr and of the jaxprs nested in it are declared. -/
def Jaxpr.EffectsDeclared (T : Primitives P K) (j : Jaxpr P K V) : Prop :=
  j.Every fun b => EffectsOkEqns T (b.constvars ++ b.invars) b.effects [] b.eqns

/-- A well-formed jaxpr. -/
structure Jaxpr.WellFormed (T : Primitives P K) (j : Jaxpr P K V) : Prop where
  wellScoped : j.Scoped
  effects : j.EffectsDeclared T

/-- Effects are what they say: an equation all of whose effects are in `dceable_effects`
changes nothing in the world. -/
def Jaxpr.Truthful [Inhabited V] (T : Primitives P K) (S : Semantics P V W) (j : Jaxpr P K V) :
    Prop :=
  j.Every fun b => ∀ eqn ∈ b.eqns, hasEffects T eqn = false →
    ∀ args w, args.length = eqn.invars.length → S.same (evalEqn S eqn args w).2 w

/-! ### Parts of a well-formed jaxpr -/

theorem Jaxpr.Every.here {q : Jaxpr P K V → Prop} {j : Jaxpr P K V} (h : j.Every q) : q j :=
  (Jaxpr.every_iff.mp h).1

theorem Jaxpr.Every.sub {q : Jaxpr P K V → Prop} {j b : Jaxpr P K V} {eqn : JaxprEqn P K V}
    (h : j.Every q) (he : eqn ∈ j.eqns) (hb : eqn.jaxpr? = some b) : b.Every q :=
  (Jaxpr.every_iff.mp h).2 eqn he b hb

theorem Jaxpr.WellFormed.sub {T : Primitives P K} {j b : Jaxpr P K V} {eqn : JaxprEqn P K V}
    (h : j.WellFormed T) (he : eqn ∈ j.eqns) (hb : eqn.jaxpr? = some b) : b.WellFormed T :=
  ⟨h.wellScoped.sub he hb, h.effects.sub he hb⟩

theorem ScopedEqns.arity {bound : List Var} : ∀ {eqns : List (JaxprEqn P K V)},
    ScopedEqns bound eqns → ∀ eqn ∈ eqns, eqn.Arity
  | e :: eqns, h, eqn, hm => by
      obtain ⟨_, _, har, h⟩ := h
      rcases List.mem_cons.mp hm with rfl | hm
      · exact har
      · exact h.arity eqn hm

end JaxDas.PartialEval
