import JaxDas.Lib.Fallible
import Mathlib.Data.Nat.Notation
import Mathlib.Logic.Function.Basic

/-!
# Jaxprs with refs

A jaxpr of pure equations, reads and writes of refs, equations that create, freeze and free refs, and
calls, and what it does to a mutable store.
-/

namespace JaxDas.StateDischarge

/-- A variable whose aval is an `AbstractRef`. Two variables can have one aval object. -/
structure RefVar where
  count : ℕ
  aval : ℕ
deriving DecidableEq, Repr

/-- A variable of a jaxpr, for a value or for a ref. -/
inductive Var where
  | val (v : ℕ)
  | ref (r : RefVar)
deriving DecidableEq, Repr

/-- A `Var` or a `Literal`. -/
inductive Atom (V : Type) where
  | var (v : ℕ)
  | lit (x : V)

/-- What a call takes. -/
inductive Operand (V : Type) where
  | val (a : Atom V)
  | ref (r : RefVar)

/-- The equations of a jaxpr, with its outvars at the end. The variables of a call stand before its
equations, with the constants of its closed jaxpr. -/
inductive Eqns (P T V : Type) where
  | done (outvars : List (Atom V))
  | pure (prim : P) (invars : List (Atom V)) (outvars : List ℕ) (rest : Eqns P T V)
  | get (ref : RefVar) (tree : T) (idx : List (Atom V)) (outvar : ℕ) (rest : Eqns P T V)
  | swap (ref : RefVar) (val : Atom V) (tree : T) (idx : List (Atom V)) (outvar : ℕ)
      (rest : Eqns P T V)
  | addupdate (ref : RefVar) (val : Atom V) (tree : T) (idx : List (Atom V)) (rest : Eqns P T V)
  | newRef (init : Atom V) (outvar : RefVar) (rest : Eqns P T V)
  | emptyRef (outvar : RefVar) (rest : Eqns P T V)
  | freeze (ref : RefVar) (outvar : ℕ) (rest : Eqns P T V)
  | freeRef (ref : RefVar) (rest : Eqns P T V)
  | closedCall (operands : List (Operand V)) (outvars : List ℕ) (consts : List (ℕ × V))
      (invars : List Var) (call : Eqns P T V) (rest : Eqns P T V)

/-- A jaxpr with the constants of its constvars. -/
structure Jaxpr (P T V : Type) where
  consts : List (ℕ × V)
  invars : List Var
  eqns : Eqns P T V

/-- The operations on arrays. -/
structure Ops (P T V : Type) where
  /-- a first-order primitive -/
  eval : P → List V → List V
  transform_array : T → V → List V → V
  /-- the value that was read and the new array -/
  transform_swap_array : T → V → List V → V → V × V
  addupdate : T → V → List V → V → V
  /-- `lax.empty` of what a ref with this aval holds -/
  empty : ℕ → V

/-- What goes wrong. -/
inductive Failure where
  | unbound
  | arity
  | notARef
  | notAValue
  | freed
  | keyError
  | notDischarged
  | fewerRefVals
  | moreRefVals
deriving DecidableEq, Repr

/-! ## Environments -/

/-- The value of a variable, or the failure. -/
def found {α : Type} (e : Failure) : Option α → Except Failure α
  | some x => .ok x
  | none => .error e

theorem found_ok {α : Type} {e : Failure} {o : Option α} {x : α} :
    found e o = .ok x ↔ o = some x := by
  cases o with
  | none => exact ⟨nofun, nofun⟩
  | some y => simp [found]

/-- What is passed to a jaxpr; a ref variable is bound to something of `R`. -/
inductive Arg (V R : Type) where
  | val (x : V)
  | ref (r : R)

/-- `Environment`. -/
structure Env (V R : Type) where
  vals : ℕ → Option V
  refs : RefVar → Option R

namespace Env

variable {V R : Type}

def empty : Env V R := ⟨fun _ => none, fun _ => none⟩

def writeVal (env : Env V R) (v : ℕ) (x : V) : Env V R :=
  { env with vals := Function.update env.vals v (some x) }

def writeRef (env : Env V R) (v : RefVar) (r : R) : Env V R :=
  { env with refs := Function.update env.refs v (some r) }

def readAtom (env : Env V R) : Atom V → Except Failure V
  | .var v => found .unbound (env.vals v)
  | .lit x => .ok x

def readRef (env : Env V R) (r : RefVar) : Except Failure R := found .unbound (env.refs r)

def readAtoms (env : Env V R) (as : List (Atom V)) : Except Failure (List V) := as.mapM env.readAtom

/-- `foreach(env.write, outvars, ans)`. -/
def writeVals (env : Env V R) : List ℕ → List V → Except Failure (Env V R)
  | [], [] => .ok env
  | v :: vs, x :: xs => (env.writeVal v x).writeVals vs xs
  | _, _ => .error .arity

/-- `foreach(env.write, jaxpr.constvars, consts)`. -/
def writeConsts (env : Env V R) : List (ℕ × V) → Env V R
  | [] => env
  | (v, x) :: consts => (env.writeVal v x).writeConsts consts

/-- `foreach(env.write, jaxpr.invars, args)`. -/
def writeArgs (env : Env V R) : List Var → List (Arg V R) → Except Failure (Env V R)
  | [], [] => .ok env
  | .val v :: vs, .val x :: xs => (env.writeVal v x).writeArgs vs xs
  | .ref v :: vs, .ref r :: xs => (env.writeRef v r).writeArgs vs xs
  | .val _ :: _, .ref _ :: _ => .error .notAValue
  | .ref _ :: _, .val _ :: _ => .error .notARef
  | _, _ => .error .arity

end Env

/-! ## The mutable store -/

/-- The contents of the refs that were created; `none` when a ref is invalidated. -/
structure Heap (V : Type) where
  cells : ℕ → Option V
  next : ℕ

namespace Heap

variable {V : Type}

def read (h : Heap V) (a : ℕ) : Except Failure V := found .freed (h.cells a)

def write (h : Heap V) (a : ℕ) (x : V) : Heap V :=
  { h with cells := Function.update h.cells a (some x) }

def free (h : Heap V) (a : ℕ) : Heap V := { h with cells := Function.update h.cells a none }

def alloc (h : Heap V) (x : V) : Heap V :=
  ⟨Function.update h.cells h.next (some x), h.next + 1⟩

end Heap

variable {P T V : Type}

/-- The arguments of a call. A ref that was invalidated cannot be passed. -/
def readOperands (env : Env V ℕ) (h : Heap V) : List (Operand V) → Except Failure (List (Arg V ℕ))
  | [] => .ok []
  | .val a :: operands => do
      let x ← env.readAtom a
      let args ← readOperands env h operands
      .ok (.val x :: args)
  | .ref r :: operands => do
      let a ← env.readRef r
      let _ ← h.read a
      let args ← readOperands env h operands
      .ok (.ref a :: args)

/-- The equations one after the other on a mutable store. -/
def run (ops : Ops P T V) : Eqns P T V → Env V ℕ → Heap V → Except Failure (List V × Heap V)
  | .done outvars, env, h => do
      let outs ← env.readAtoms outvars
      .ok (outs, h)
  | .pure prim invars outvars rest, env, h => do
      let xs ← env.readAtoms invars
      let env ← env.writeVals outvars (ops.eval prim xs)
      run ops rest env h
  | .get ref tree idx outvar rest, env, h => do
      let a ← env.readRef ref
      let x ← h.read a
      let is ← env.readAtoms idx
      run ops rest (env.writeVal outvar (ops.transform_array tree x is)) h
  | .swap ref val tree idx outvar rest, env, h => do
      let a ← env.readRef ref
      let x ← h.read a
      let y ← env.readAtom val
      let is ← env.readAtoms idx
      let res := ops.transform_swap_array tree x is y
      run ops rest (env.writeVal outvar res.1) (h.write a res.2)
  | .addupdate ref val tree idx rest, env, h => do
      let a ← env.readRef ref
      let x ← h.read a
      let y ← env.readAtom val
      let is ← env.readAtoms idx
      run ops rest env (h.write a (ops.addupdate tree x is y))
  | .newRef init outvar rest, env, h => do
      let x ← env.readAtom init
      run ops rest (env.writeRef outvar h.next) (h.alloc x)
  | .emptyRef outvar rest, env, h =>
      run ops rest (env.writeRef outvar h.next) (h.alloc (ops.empty outvar.aval))
  | .freeze ref outvar rest, env, h => do
      let a ← env.readRef ref
      let x ← h.read a
      run ops rest (env.writeVal outvar x) (h.free a)
  | .freeRef ref rest, env, h => do
      let a ← env.readRef ref
      let _ ← h.read a
      run ops rest env (h.free a)
  | .closedCall operands outvars consts invars call rest, env, h => do
      let args ← readOperands env h operands
      let inner ← (Env.empty.writeConsts consts).writeArgs invars args
      let res ← run ops call inner h
      let env ← env.writeVals outvars res.1
      run ops rest env res.2

/-- Running a jaxpr. -/
def Jaxpr.run (ops : Ops P T V) (jaxpr : Jaxpr P T V) (args : List (Arg V ℕ)) (h : Heap V) :
    Except Failure (List V × Heap V) := do
  let env ← (Env.empty.writeConsts jaxpr.consts).writeArgs jaxpr.invars args
  StateDischarge.run ops jaxpr.eqns env h

/-! ## Well-formed jaxprs -/

/-- The refs among variables. -/
def refVars : List Var → List RefVar
  | [] => []
  | .val _ :: vs => refVars vs
  | .ref r :: vs => r :: refVars vs

/-- The refs among operands. -/
def refOperands : List (Operand V) → List RefVar
  | [] => []
  | .val _ :: operands => refOperands operands
  | .ref r :: operands => r :: refOperands operands

/-- A ref variable is bound once, and no call is given a ref twice. -/
def Eqns.WellFormed : Eqns P T V → List RefVar → Prop
  | .done _, _ => True
  | .pure _ _ _ rest, bound => rest.WellFormed bound
  | .get _ _ _ _ rest, bound => rest.WellFormed bound
  | .swap _ _ _ _ _ rest, bound => rest.WellFormed bound
  | .addupdate _ _ _ _ rest, bound => rest.WellFormed bound
  | .newRef _ outvar rest, bound => outvar ∉ bound ∧ rest.WellFormed (outvar :: bound)
  | .emptyRef outvar rest, bound => outvar ∉ bound ∧ rest.WellFormed (outvar :: bound)
  | .freeze _ _ rest, bound => rest.WellFormed bound
  | .freeRef _ rest, bound => rest.WellFormed bound
  | .closedCall operands _ _ invars call rest, bound =>
      (refOperands operands).Nodup ∧ (refVars invars).Nodup ∧ call.WellFormed (refVars invars) ∧
        rest.WellFormed bound

/-- The same for a jaxpr with its inputs. -/
def Jaxpr.WellFormed (jaxpr : Jaxpr P T V) : Prop :=
  (refVars jaxpr.invars).Nodup ∧ jaxpr.eqns.WellFormed (refVars jaxpr.invars)

end JaxDas.StateDischarge
