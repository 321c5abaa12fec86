import JaxDas.Lib.Fallible
import JaxDas.PartialEval.Jaxpr

/-!
# Dead-code elimination

`dce_jaxpr` goes through the equations of a jaxpr from the last one to the first and keeps
track of the variables that something kept reads. What becomes of an equation is decided by
the rule of its primitive. The rules of the primitives that hold a jaxpr prune it, and with
it the arguments and the results of the equation.

`RuleResult` says once what a rule can do; everything that is proved of the elimination is
proved from it.
-/

namespace JaxDas.PartialEval

/-- What the elimination looks up about primitives and effects. -/
structure Primitives (P K : Type) where
  /-- `primitive.ref_allocating` -/
  refAllocating : P → Bool
  /-- `core.free_ref_p`, the one first-order primitive with a rule of its own. -/
  isFreeRef : P → Bool
  /-- `dceable_effects.contains` -/
  dceable : K → Bool

/-- The exceptions of the elimination. -/
inductive DceError
  /-- `AssertionError: Fixpoint not reached` -/
  | fixpointNotReached
  /-- `ValueError: JaxprInputEffect ... is invalid.` -/
  | invalidInputEffect
  /-- `ValueError: JaxprInputEffect ... does not have corresponding jaxpr input` -/
  | noCorrespondingInput
  /-- `outvar, = eqn.outvars` -/
  | unpack

variable {P K V : Type}

/-! ### The effects of a jaxpr -/

/-- `core.eqn_effects`: an equation counts its own inputs only. -/
def eqnEffects (j : Jaxpr P K V) : List (Effect K) :=
  j.effects.map fun eff =>
    { eff with inputIndex := eff.inputIndex.map fun i => i - j.constvars.length }

def JaxprEqn.refAllocating (T : Primitives P K) : JaxprEqn P K V → Bool
  | .prim p _ _ _ => T.refAllocating p
  | .sub _ _ _ _ _ => false

/-- `mut_arrays` after an equation. -/
def addMutArray (T : Primitives P K) (mutArrays : List Var) (eqn : JaxprEqn P K V) :
    Except DceError (List Var) :=
  if eqn.refAllocating T then
    match eqn.outvars with
    | [some v] => .ok (v :: mutArrays)
    | [none] => .ok mutArrays
    | _ => .error .unpack
  else .ok mutArrays

/-- An effect of an equation as one of the jaxpr with the inputs `allVars`. -/
def jaxprEffect (allVars mutArrays : List Var) (invars : List (Atom V)) (eff : Effect K) :
    Except DceError (List (Effect K)) :=
  match eff.inputIndex with
  | none => .ok [eff]
  | some i =>
      match invars[i]? with
      | none => .error .invalidInputEffect
      | some (.literal _) => .ok []
      | some (.var v) =>
          if v ∈ mutArrays then .ok []
          else
            match allVars.idxOf? v with
            | none => .error .noCorrespondingInput
            | some k => .ok [{ eff with inputIndex := some k }]

/-- `make_jaxpr_effects`, from the equations on that are left. -/
def makeJaxprEffects (T : Primitives P K) (allVars : List Var) :
    List Var → List (JaxprEqn P K V) → Except DceError (List (Effect K))
  | _, [] => .ok []
  | mutArrays, eqn :: eqns => do
      let mutArrays ← addMutArray T mutArrays eqn
      let here ← eqn.effects.mapM (jaxprEffect allVars mutArrays eqn.invars)
      let rest ← makeJaxprEffects T allVars mutArrays eqns
      return here.flatten ++ rest

/-! ### The rules -/

/-- `has_effects` -/
def hasEffects (T : Primitives P K) (eqn : JaxprEqn P K V) : Bool :=
  eqn.effects.any fun eff => !T.dceable eff.kind

/-- `dce_jaxpr` of the jaxpr that an equation holds. -/
abbrev DceBody (P K V : Type) :=
  List Bool → List Bool → Except DceError (Jaxpr P K V × List Bool)

/-- What a rule returns: the inputs used, and the equation that is left, if one is. -/
abbrev DceResult (P K V : Type) := List Bool × Option (JaxprEqn P K V)

/-- `_default_dce_rule` -/
def defaultDceRule (T : Primitives P K) (usedOuts : List Bool) (eqn : JaxprEqn P K V) :
    DceResult P K V :=
  if !usedOuts.any id && !hasEffects T eqn then
    (List.replicate eqn.invars.length false, none)
  else (List.replicate eqn.invars.length true, some eqn)

/-- `_free_ref_dce_rule` -/
def freeRefDceRule (eqn : JaxprEqn P K V) : DceResult P K V :=
  (List.replicate eqn.invars.length true, some eqn)

/-- `dce_jaxpr_call_rule` -/
def dceJaxprCallRule (T : Primitives P K) (dce : DceBody P K V) (numIn : ℕ)
    (usedOutputs : List Bool) (eqn : JaxprEqn P K V) : Except DceError (DceResult P K V) :=
  if !usedOutputs.any id && !hasEffects T eqn then
    .ok (List.replicate eqn.invars.length false, none)
  else do
    let (newJaxpr, usedInputs) ← dce usedOutputs (List.replicate numIn false)
    if !usedInputs.any id && !usedOutputs.any id && newJaxpr.effects.isEmpty then
      return (usedInputs, none)
    else
      return (usedInputs, some (.sub .call newJaxpr (select eqn.invars usedInputs)
        (select eqn.outvars usedOutputs) newJaxpr.effects))

/-- `dce_jaxpr_closed_call_rule` -/
def dceJaxprClosedCallRule (T : Primitives P K) (dce : DceBody P K V) (numIn : ℕ)
    (consts : List V) (usedOutputs : List Bool) (eqn : JaxprEqn P K V) :
    Except DceError (DceResult P K V) :=
  if !usedOutputs.any id && !hasEffects T eqn then
    .ok (List.replicate eqn.invars.length false, none)
  else do
    let (newJaxpr, usedInputs) ← dce usedOutputs (List.replicate numIn false)
    return (usedInputs, some (.sub (.closedCall consts) newJaxpr (select eqn.invars usedInputs)
      (select eqn.outvars usedOutputs) (eqnEffects newJaxpr)))

/-- The `for` loop of `_scan_dce_rule`, with the number of iterations it has left. It
returns the jaxpr, the used inputs and the used outputs of its last iteration. -/
def scanFixpoint (dce : DceBody P K V) (p : ScanParams) (numXs : ℕ) (usedExtensiveOut : List Bool) :
    ℕ → List Bool → Except DceError (Jaxpr P K V × List Bool × List Bool)
  | 0, _ => .error .fixpointNotReached
  | n + 1, usedCarryOut => do
      let usedOutputs := usedCarryOut ++ usedExtensiveOut
      let (jaxprDce, usedInputs) ← dce usedOutputs
        (List.replicate p.numConsts false ++ usedCarryOut ++ List.replicate numXs false)
      let usedCarryIn := (usedInputs.drop p.numConsts).take p.numCarry
      if usedCarryIn = usedCarryOut then
        return (jaxprDce, usedInputs, usedOutputs)
      else
        scanFixpoint dce p numXs usedExtensiveOut n (usedCarryOut.zipWith (· || ·) usedCarryIn)

/-- The parameters of the pruned `scan`. -/
def ScanParams.prune (p : ScanParams) (usedInputs : List Bool) : ScanParams :=
  { p with
    numConsts := (usedInputs.take p.numConsts).count true
    numCarry := ((usedInputs.drop p.numConsts).take p.numCarry).count true }

/-- `_scan_dce_rule`. Its two last assertions compare the lengths of the new equation with
those of its jaxpr. -/
def scanDceRule (T : Primitives P K) (dce : DceBody P K V) (numIn : ℕ) (consts : List V)
    (p : ScanParams) (usedOutputs : List Bool) (eqn : JaxprEqn P K V) :
    Except DceError (DceResult P K V) :=
  if !usedOutputs.any id && !hasEffects T eqn then
    .ok (List.replicate eqn.invars.length false, none)
  else do
    let numXs := numIn - p.numConsts - p.numCarry
    let (jaxprDce, usedInputs, usedOutputs) ←
      scanFixpoint dce p numXs (usedOutputs.drop p.numCarry) (1 + p.numCarry)
        (usedOutputs.take p.numCarry)
    return (usedInputs, some (.sub (.scan consts (p.prune usedInputs)) jaxprDce
      (select eqn.invars usedInputs) (select eqn.outvars usedOutputs) (eqnEffects jaxprDce)))

/-- The rules of the primitives that hold a jaxpr with `numIn` inputs. -/
def HigherOrder.dceRule (T : Primitives P K) (dce : DceBody P K V) (numIn : ℕ) :
    HigherOrder V → List Bool → JaxprEqn P K V → Except DceError (DceResult P K V)
  | call => dceJaxprCallRule T dce numIn
  | closedCall consts => dceJaxprClosedCallRule T dce numIn consts
  | scan consts p => scanDceRule T dce numIn consts p

/-! ### The backward pass -/

/-- `env` of `_dce_jaxpr`, which maps the variables not in it to `False`. -/
abbrev Live := Var → Bool

namespace Live

/-- A `DropVar` is never written. -/
def read (live : Live) : Option Var → Bool
  | some v => live v
  | none => false

def write (live : Live) : Atom V → Bool → Live
  | .var v, b => fun u => if u = v then live v || b else live u
  | .literal _, _ => live

/-- `foreach(write, atoms, used)` -/
def writeAll (live : Live) : List (Atom V) → List Bool → Live
  | a :: atoms, b :: used => (live.write a b).writeAll atoms used
  | _, _ => live

theorem writeAll_iff {v : Var} : ∀ {atoms : List (Atom V)} {used : List Bool} {live : Live},
    live.writeAll atoms used v = true ↔ live v = true ∨ Atom.var v ∈ select atoms used
  | [], _, live => by simp [writeAll]
  | a :: atoms, [], live => by simp [writeAll]
  | a :: atoms, b :: used, live => by
      rw [writeAll, writeAll_iff]
      cases a with
      | literal x => cases b <;> simp [write]
      | var u =>
          by_cases h : v = u
          · subst h
            cases b <;> simp [write]
          · cases b <;> simp [write, h]

end Live

mutual
/-- `_dce_jaxpr` -/
def dceJaxpr (T : Primitives P K) :
    Jaxpr P K V → List Bool → List Bool → Except DceError (Jaxpr P K V × List Bool)
  | .mk constvars invars eqns outvars _, usedOutputs, instantiate => do
      let env : Live := fun _ => false
      let (env, newEqns) ← dceEqns T eqns (env.writeAll outvars usedOutputs)
      let usedInputs := instantiate.zipWith (· || ·) (invars.map env)
      let newInvars := select invars usedInputs
      let jaxprEffects ← makeJaxprEffects T (constvars ++ newInvars) [] newEqns
      return (.mk constvars newInvars newEqns (select outvars usedOutputs) jaxprEffects, usedInputs)

/-- The loop of `_dce_jaxpr`, from the last equation to the first. -/
def dceEqns (T : Primitives P K) :
    List (JaxprEqn P K V) → Live → Except DceError (Live × List (JaxprEqn P K V))
  | [], env => .ok (env, [])
  | eqn :: eqns, env => do
      let (env, newEqns) ← dceEqns T eqns env
      let (usedIns, newEqn) ← dceEqn T eqn (eqn.outvars.map env.read)
      return (env.writeAll eqn.invars usedIns, newEqn.toList ++ newEqns)

/-- `dce_rules.get(eqn.primitive, _default_dce_rule)(used_outs, eqn)` -/
def dceEqn (T : Primitives P K) :
    JaxprEqn P K V → List Bool → Except DceError (DceResult P K V)
  | .prim p invars outvars effects, usedOuts =>
      let eqn := .prim p invars outvars effects
      .ok (if T.isFreeRef p then freeRefDceRule eqn else defaultDceRule T usedOuts eqn)
  | .sub how j invars outvars effects, usedOuts =>
      how.dceRule T (fun used inst => dceJaxpr T j used inst) j.invars.length usedOuts
        (.sub how j invars outvars effects)
end

end JaxDas.PartialEval
