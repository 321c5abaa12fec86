import JaxDas.StateDischarge.Jaxpr

/-!
# `discharge_state`

The interpreter that threads the contents of refs through its environment. Which refs it does that
for is looked up by the identity of their avals.
-/

namespace JaxDas.StateDischarge

variable {P T V : Type}

/-- What stands for a ref in the environment of the interpreter: the contents of a ref that is
discharged, or the `Ref`. -/
inductive Held (V : Type) where
  | contents (x : V)
  | ref (a : ℕ)

/-- What a discharge rule reads. -/
def Held.read : Held V → Except Failure V
  | .contents x => .ok x
  | .ref _ => .error .notAValue

/-- What a primitive on refs is bound to. -/
def Held.address : Held V → Except Failure ℕ
  | .ref a => .ok a
  | .contents _ => .error .notARef

/-- `core.internal_mutable_array_effect in eqn.effects`, for a call of these equations. -/
def Eqns.internalMutableArrayEffect : Eqns P T V → Bool
  | .done _ => false
  | .pure _ _ _ rest => rest.internalMutableArrayEffect
  | .get _ _ _ _ rest => rest.internalMutableArrayEffect
  | .swap _ _ _ _ _ rest => rest.internalMutableArrayEffect
  | .addupdate _ _ _ _ rest => rest.internalMutableArrayEffect
  | .newRef _ _ _ => true
  | .emptyRef _ _ => true
  | .freeze _ _ _ => true
  | .freeRef _ rest => rest.internalMutableArrayEffect
  | .closedCall _ _ _ _ call rest =>
      call.internalMutableArrayEffect || rest.internalMutableArrayEffect

/-- `map(env.read, eqn.invars)`. -/
def readHeld (env : Env V (Held V)) : List (Operand V) → Except Failure (List (Arg V (Held V)))
  | [] => .ok []
  | .val a :: operands => do
      let x ← env.readAtom a
      let args ← readHeld env operands
      .ok (.val x :: args)
  | .ref r :: operands => do
      let held ← env.readRef r
      let args ← readHeld env operands
      .ok (.ref held :: args)

/-- The arguments of a call that is bound as it is. -/
def addresses : List (Arg V (Held V)) → Except Failure (List (Arg V ℕ))
  | [] => .ok []
  | .val x :: args => do
      let args ← addresses args
      .ok (.val x :: args)
  | .ref held :: args => do
      let a ← held.address
      let args ← addresses args
      .ok (.ref a :: args)

/-- Results that are values. -/
def contents : List (Held V) → Except Failure (List V)
  | [] => .ok []
  | held :: helds => do
      let x ← held.read
      let xs ← contents helds
      .ok (x :: xs)

/-- `env.write(invar, new_inval)` for refs and their new contents. -/
def writeInvals (env : Env V (Held V)) (refs_to_discharge : List ℕ) :
    List (RefVar × Held V) → Except Failure (Env V (Held V))
  | [] => .ok env
  | (invar, new_inval) :: new_invals =>
      if invar.aval ∈ refs_to_discharge then
        writeInvals (env.writeRef invar new_inval) refs_to_discharge new_invals
      else .error .notDischarged

/-- `new_invals`: the `ref_vals` of a call for its refs, which must be as many. -/
def newInvals (refs : List RefVar) (ref_vals : List (Held V)) :
    Except Failure (List (RefVar × Held V)) :=
  if ref_vals.length < refs.length then .error .fewerRefVals
  else if refs.length < ref_vals.length then .error .moreRefVals
  else .ok (refs.zip ref_vals)

/-- `len(jaxpr.outvars)`. -/
def Eqns.numOuts : Eqns P T V → ℕ
  | .done outvars => outvars.length
  | .pure _ _ _ rest => rest.numOuts
  | .get _ _ _ _ rest => rest.numOuts
  | .swap _ _ _ _ _ rest => rest.numOuts
  | .addupdate _ _ _ _ rest => rest.numOuts
  | .newRef _ _ rest => rest.numOuts
  | .emptyRef _ rest => rest.numOuts
  | .freeze _ _ rest => rest.numOuts
  | .freeRef _ rest => rest.numOuts
  | .closedCall _ _ _ _ _ rest => rest.numOuts

/-- `_eval_jaxpr_discharge_state` after its first lines, with the rules of get, swap, addupdate and
closed_call in their equations. -/
def evalJaxprDischargeState (ops : Ops P T V) (invars : List Var) : Eqns P T V → Env V (Held V) →
    List ℕ → Heap V → Except Failure (List (Held V) × Heap V)
  | .done outvars, env, refs_to_discharge, h => do
      let out_vals ← env.readAtoms outvars
      let ref_vals ← ((refVars invars).filter fun v => v.aval ∈ refs_to_discharge).mapM env.readRef
      .ok (out_vals.map .contents ++ ref_vals, h)
  | .pure prim ins outvars rest, env, refs_to_discharge, h => do
      let xs ← env.readAtoms ins
      let env ← env.writeVals outvars (ops.eval prim xs)
      evalJaxprDischargeState ops invars rest env refs_to_discharge h
  | .get ref tree idx outvar rest, env, refs_to_discharge, h => do
      let held ← env.readRef ref
      if ref.aval ∈ refs_to_discharge then do
        let x ← held.read
        let is ← env.readAtoms idx
        evalJaxprDischargeState ops invars rest
          (env.writeVal outvar (ops.transform_array tree x is)) refs_to_discharge h
      else do
        let a ← held.address
        let x ← h.read a
        let is ← env.readAtoms idx
        evalJaxprDischargeState ops invars rest
          (env.writeVal outvar (ops.transform_array tree x is)) refs_to_discharge h
  | .swap ref val tree idx outvar rest, env, refs_to_discharge, h => do
      let held ← env.readRef ref
      if ref.aval ∈ refs_to_discharge then do
        let x ← held.read
        let y ← env.readAtom val
        let is ← env.readAtoms idx
        let res := ops.transform_swap_array tree x is y
        evalJaxprDischargeState ops invars rest
          ((env.writeRef ref (.contents res.2)).writeVal outvar res.1) refs_to_discharge h
      else do
        let a ← held.address
        let x ← h.read a
        let y ← env.readAtom val
        let is ← env.readAtoms idx
        let res := ops.transform_swap_array tree x is y
        evalJaxprDischargeState ops invars rest (env.writeVal outvar res.1) refs_to_discharge
          (h.write a res.2)
  | .addupdate ref val tree idx rest, env, refs_to_discharge, h => do
      let held ← env.readRef ref
      if ref.aval ∈ refs_to_discharge then do
        let x ← held.read
        let y ← env.readAtom val
        let is ← env.readAtoms idx
        evalJaxprDischargeState ops invars rest
          (env.writeRef ref (.contents (ops.addupdate tree x is y))) refs_to_discharge h
      else do
        let a ← held.address
        let x ← h.read a
        let y ← env.readAtom val
        let is ← env.readAtoms idx
        evalJaxprDischargeState ops invars rest env refs_to_discharge
          (h.write a (ops.addupdate tree x is y))
  | .newRef init outvar rest, env, refs_to_discharge, h => do
      let x ← env.readAtom init
      evalJaxprDischargeState ops invars rest (env.writeRef outvar (.contents x))
        (outvar.aval :: refs_to_discharge) h
  | .emptyRef outvar rest, env, refs_to_discharge, h =>
      evalJaxprDischargeState ops invars rest
        (env.writeRef outvar (.contents (ops.empty outvar.aval)))
        (outvar.aval :: refs_to_discharge) h
  | .freeze ref outvar rest, env, refs_to_discharge, h => do
      let held ← env.readRef ref
      if ref.aval ∈ refs_to_discharge then do
        let x ← held.read
        evalJaxprDischargeState ops invars rest (env.writeVal outvar x)
          (refs_to_discharge.filter (· ≠ ref.aval)) h
      else .error .keyError
  | .freeRef ref rest, env, refs_to_discharge, h =>
      if ref.aval ∈ refs_to_discharge then
        evalJaxprDischargeState ops invars rest env (refs_to_discharge.filter (· ≠ ref.aval)) h
      else .error .keyError
  | .closedCall operands outvars consts ins call rest, env, refs_to_discharge, h => do
      let args ← readHeld env operands
      if (refOperands operands).any (fun r => r.aval ∈ refs_to_discharge) ||
          call.internalMutableArrayEffect then do
        -- the rule of closed_call discharges all refs of the call
        let inner ← (Env.empty.writeConsts consts).writeArgs ins args
        let res ← evalJaxprDischargeState ops ins call inner ((refVars ins).map RefVar.aval) h
        let out_vals ← contents (res.1.take call.numOuts)
        let new_invals ← newInvals (refOperands operands) (res.1.drop call.numOuts)
        let env ← writeInvals env refs_to_discharge new_invals
        let env ← env.writeVals outvars out_vals
        evalJaxprDischargeState ops invars rest env refs_to_discharge res.2
      else do
        let args ← addresses args
        let inner ← (Env.empty.writeConsts consts).writeArgs ins args
        let res ← run ops call inner h
        let env ← env.writeVals outvars res.1
        evalJaxprDischargeState ops invars rest env refs_to_discharge res.2

/-- The avals of the refs among the inputs that are to be discharged. -/
def refsToDischarge : List Var → List Bool → List ℕ
  | .ref r :: invars, true :: should => r.aval :: refsToDischarge invars should
  | _ :: invars, _ :: should => refsToDischarge invars should
  | _, _ => []

/-- The jaxpr that `discharge_state` returns, on its inputs. -/
def dischargeState (ops : Ops P T V) (jaxpr : Jaxpr P T V) (should_discharge : List Bool)
    (args : List (Arg V (Held V))) (h : Heap V) : Except Failure (List (Held V) × Heap V) := do
  let env ← (Env.empty.writeConsts jaxpr.consts).writeArgs jaxpr.invars args
  evalJaxprDischargeState ops jaxpr.invars jaxpr.eqns env
    (refsToDischarge jaxpr.invars should_discharge) h

/-! ## Where the identity of avals is enough -/

/-- The aval of the ref is in the set exactly if the ref is discharged. -/
def Told (refs_to_discharge : List ℕ) (discharged : List RefVar) (r : RefVar) : Prop :=
  r.aval ∈ refs_to_discharge ↔ r ∈ discharged

/-- The refs that equations freeze or free. -/
def Eqns.invalidated : Eqns P T V → List RefVar
  | .done _ => []
  | .pure _ _ _ rest => rest.invalidated
  | .get _ _ _ _ rest => rest.invalidated
  | .swap _ _ _ _ _ rest => rest.invalidated
  | .addupdate _ _ _ _ rest => rest.invalidated
  | .newRef _ _ rest => rest.invalidated
  | .emptyRef _ rest => rest.invalidated
  | .freeze ref _ rest => ref :: rest.invalidated
  | .freeRef ref rest => ref :: rest.invalidated
  | .closedCall _ _ _ _ _ rest => rest.invalidated

/-- The set of avals tells the discharged refs from the others wherever it is asked, only discharged
refs are frozen or freed, and a call that is discharged is given discharged refs only and frees none
of them. -/
def Eqns.Tracked (inputs : List RefVar) : Eqns P T V → List RefVar → List ℕ → Prop
  | .done _, discharged, ids => ∀ r ∈ inputs, Told ids discharged r
  | .pure _ _ _ rest, discharged, ids => rest.Tracked inputs discharged ids
  | .get ref _ _ _ rest, discharged, ids =>
      Told ids discharged ref ∧ rest.Tracked inputs discharged ids
  | .swap ref _ _ _ _ rest, discharged, ids =>
      Told ids discharged ref ∧ rest.Tracked inputs discharged ids
  | .addupdate ref _ _ _ rest, discharged, ids =>
      Told ids discharged ref ∧ rest.Tracked inputs discharged ids
  | .newRef _ outvar rest, discharged, ids =>
      rest.Tracked inputs (outvar :: discharged) (outvar.aval :: ids)
  | .emptyRef outvar rest, discharged, ids =>
      rest.Tracked inputs (outvar :: discharged) (outvar.aval :: ids)
  | .freeze ref _ rest, discharged, ids => ref ∈ discharged ∧ ref.aval ∈ ids ∧
      rest.Tracked inputs (discharged.filter (· ≠ ref)) (ids.filter (· ≠ ref.aval))
  | .freeRef ref rest, discharged, ids => ref ∈ discharged ∧ ref.aval ∈ ids ∧
      rest.Tracked inputs (discharged.filter (· ≠ ref)) (ids.filter (· ≠ ref.aval))
  | .closedCall operands _ _ invars call rest, discharged, ids =>
      (∀ r ∈ refOperands operands, Told ids discharged r) ∧
        ((∃ r ∈ refOperands operands, r ∈ discharged) ∨ call.internalMutableArrayEffect = true →
          (∀ r ∈ refOperands operands, r ∈ discharged) ∧
            (∀ r ∈ refVars invars, r ∉ call.invalidated) ∧
              call.Tracked (refVars invars) (refVars invars)
                ((refVars invars).map RefVar.aval)) ∧
          rest.Tracked inputs discharged ids

/-- The refs among the inputs that are to be discharged. -/
def dischargedRefs : List Var → List Bool → List RefVar
  | .ref r :: invars, true :: should => r :: dischargedRefs invars should
  | _ :: invars, _ :: should => dischargedRefs invars should
  | _, _ => []

/-- The same for a jaxpr and a mask for its inputs. -/
def Jaxpr.Tracked (jaxpr : Jaxpr P T V) (should_discharge : List Bool) : Prop :=
  jaxpr.eqns.Tracked (refVars jaxpr.invars) (dischargedRefs jaxpr.invars should_discharge)
    (refsToDischarge jaxpr.invars should_discharge)

end JaxDas.StateDischarge
