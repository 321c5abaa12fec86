import Mathlib.Data.List.Basic
import Mathlib.Data.Setoid.Basic
import Mathlib.Tactic.Common
import JaxDas.Lib.Masks

/-!
# Jaxprs

A jaxpr is a list of equations between its input and its output variables. An equation
applies a primitive to atoms and binds its results. Most primitives are first order; the
calls and `scan` hold a jaxpr of their own, so jaxprs nest.

Evaluation threads a world, which is what effects act on. The primitives themselves are a
parameter: `Semantics.bind` says what each of them returns and does to the world.
-/

namespace JaxDas.PartialEval

/-- Variables are told apart by identity. -/
abbrev Var := ℕ

/-- An argument of an equation, or an output of a jaxpr. -/
inductive Atom (V : Type)
  | var (v : Var)
  | literal (val : V)

/-- An effect. A `JaxprInputEffect` has an `inputIndex`: in an equation it counts the
equation's inputs, in a jaxpr the `constvars` and `invars`. -/
structure Effect (K : Type) where
  kind : K
  inputIndex : Option ℕ

/-- The parameters of a `scan` that say which of its arguments are what. -/
structure ScanParams where
  length : ℕ
  reverse : Bool
  numConsts : ℕ
  numCarry : ℕ

/-- The primitives that hold a jaxpr. That of `core.closed_call` and of `scan` is closed: it
comes with the values of its `constvars`. -/
inductive HigherOrder (V : Type)
  | call
  | closedCall (consts : List V)
  | scan (consts : List V) (params : ScanParams)

mutual
/-- A set of effects is a list of its members. -/
inductive Jaxpr (P K V : Type)
  | mk (constvars invars : List Var) (eqns : List (JaxprEqn P K V)) (outvars : List (Atom V))
      (effects : List (Effect K))

/-- A binder is `none` where the source has a `DropVar`. -/
inductive JaxprEqn (P K V : Type)
  | prim (primitive : P) (invars : List (Atom V)) (outvars : List (Option Var))
      (effects : List (Effect K))
  | sub (primitive : HigherOrder V) (jaxpr : Jaxpr P K V) (invars : List (Atom V))
      (outvars : List (Option Var)) (effects : List (Effect K))
end

variable {P K V W : Type}

namespace Atom

def var? : Atom V → Option Var
  | var v => some v
  | literal _ => none

end Atom

/-- The variables a list of atoms reads. -/
def varsOf (atoms : List (Atom V)) : List Var :=
  atoms.filterMap Atom.var?

@[simp] theorem mem_varsOf {v : Var} {atoms : List (Atom V)} :
    v ∈ varsOf atoms ↔ Atom.var v ∈ atoms := by
  simp only [varsOf, List.mem_filterMap]
  constructor
  · rintro ⟨a, ha, hv⟩
    cases a with
    | var u => injection hv with hv; rwa [← hv]
    | literal x => injection hv
  · intro h
    exact ⟨.var v, h, rfl⟩

namespace Jaxpr

def constvars : Jaxpr P K V → List Var
  | mk c _ _ _ _ => c

def invars : Jaxpr P K V → List Var
  | mk _ i _ _ _ => i

def eqns : Jaxpr P K V → List (JaxprEqn P K V)
  | mk _ _ e _ _ => e

def outvars : Jaxpr P K V → List (Atom V)
  | mk _ _ _ o _ => o

def effects : Jaxpr P K V → List (Effect K)
  | mk _ _ _ _ f => f

end Jaxpr

namespace JaxprEqn

def invars : JaxprEqn P K V → List (Atom V)
  | prim _ i _ _ => i
  | sub _ _ i _ _ => i

def outvars : JaxprEqn P K V → List (Option Var)
  | prim _ _ o _ => o
  | sub _ _ _ o _ => o

def effects : JaxprEqn P K V → List (Effect K)
  | prim _ _ _ f => f
  | sub _ _ _ _ f => f

/-- The jaxpr an equation holds. -/
def jaxpr? : JaxprEqn P K V → Option (Jaxpr P K V)
  | prim _ _ _ _ => none
  | sub _ j _ _ _ => some j

/-- The variables an equation binds. -/
def binders (eqn : JaxprEqn P K V) : List Var :=
  eqn.outvars.filterMap id

@[simp] theorem mem_binders {eqn : JaxprEqn P K V} {v : Var} :
    v ∈ eqn.binders ↔ some v ∈ eqn.outvars := by
  simp [binders]

end JaxprEqn

theorem sizeOf_jaxpr_lt {j b : Jaxpr P K V} {e : JaxprEqn P K V} (he : e ∈ j.eqns)
    (hb : e.jaxpr? = some b) : sizeOf b < sizeOf j := by
  obtain ⟨c, i, eqns, o, f⟩ := j
  have hlt := List.sizeOf_lt_of_mem (show e ∈ eqns from he)
  cases e with
  | prim p i' o' f' => injection hb
  | sub how b' i' o' f' =>
      injection hb with hb
      subst hb
      simp only [JaxprEqn.sub.sizeOf_spec, Jaxpr.mk.sizeOf_spec] at hlt ⊢
      omega

/-- Induction on the nesting: what holds of a jaxpr when it holds of the jaxprs that its
equations hold, holds of every jaxpr. -/
theorem Jaxpr.nesting {motive : Jaxpr P K V → Prop}
    (step : ∀ j, (∀ e ∈ j.eqns, ∀ b, e.jaxpr? = some b → motive b) → motive j)
    (j : Jaxpr P K V) : motive j :=
  step j fun _ he b hb =>
    have : sizeOf b < sizeOf j := sizeOf_jaxpr_lt he hb
    Jaxpr.nesting step b
  termination_by sizeOf j

mutual
/-- `q` holds of a jaxpr and of every jaxpr nested in it. -/
def Jaxpr.Every (q : Jaxpr P K V → Prop) : Jaxpr P K V → Prop
  | .mk c i eqns o f => q (.mk c i eqns o f) ∧ EveryEqns q eqns

def EveryEqns (q : Jaxpr P K V → Prop) : List (JaxprEqn P K V) → Prop
  | [] => True
  | e :: eqns => EveryEqn q e ∧ EveryEqns q eqns

def EveryEqn (q : Jaxpr P K V → Prop) : JaxprEqn P K V → Prop
  | .prim _ _ _ _ => True
  | .sub _ j _ _ _ => Jaxpr.Every q j
end

theorem everyEqn_iff {q : Jaxpr P K V → Prop} {e : JaxprEqn P K V} :
    EveryEqn q e ↔ ∀ b, e.jaxpr? = some b → b.Every q := by
  cases e <;> simp [EveryEqn, JaxprEqn.jaxpr?]

theorem everyEqns_iff {q : Jaxpr P K V → Prop} {eqns : List (JaxprEqn P K V)} :
    EveryEqns q eqns ↔ ∀ e ∈ eqns, EveryEqn q e := by
  induction eqns with
  | nil => simp [EveryEqns]
  | cons e eqns ih => simp [EveryEqns, ih]

theorem Jaxpr.every_iff {q : Jaxpr P K V → Prop} {j : Jaxpr P K V} :
    j.Every q ↔ q j ∧ ∀ e ∈ j.eqns, ∀ b, e.jaxpr? = some b → b.Every q := by
  obtain ⟨c, i, eqns, o, f⟩ := j
  simp only [Jaxpr.Every, everyEqns_iff, everyEqn_iff, Jaxpr.eqns]

/-! ### Evaluation -/

/-- What the primitives mean. A world stands for everything effects act on; two worlds
that no primitive can tell apart are the same. -/
structure Semantics (P V W : Type) where
  /-- `primitive.bind` -/
  bind : P → List V → W → List V × W
  /-- `slicing.index_in_dim` along the leading axis. -/
  index : V → ℕ → V
  /-- `_stack`: values stacked along a new leading axis. -/
  stack : List V → V
  same : Setoid W
  bind_same : ∀ p args w w', same w w' →
    (bind p args w).1 = (bind p args w').1 ∧ same (bind p args w).2 (bind p args w').2

abbrev Env (V : Type) := Var → V

namespace Env

def read (env : Env V) : Atom V → V
  | .var v => env v
  | .literal x => x

def write (env : Env V) : Option Var → V → Env V
  | some v, x => fun u => if u = v then x else env u
  | none, _ => env

/-- `foreach(write, vars, vals)` -/
def writeAll (env : Env V) : List (Option Var) → List V → Env V
  | v :: vars, x :: vals => (env.write v x).writeAll vars vals
  | _, _ => env

/-- Writing values to the binders a mask marks does the same as writing all of them, to
the variables whose binders are all marked. -/
theorem writeAll_select {live : Var → Prop} :
    ∀ {vars : List (Option Var)} {bs : List Bool} {vals : List V} {env env' : Env V},
    vars.length = bs.length →
    (∀ v b, (some v, b) ∈ vars.zip bs → live v → b = true) →
    (∀ v, live v → env v = env' v) →
    ∀ v, live v →
      env.writeAll vars vals v = env'.writeAll (select vars bs) (select vals bs) v
  | [], _, vals, env, env', _, _, h => by
      cases vals <;> simpa [writeAll] using h
  | u :: vars, b :: bs, [], env, env', _, _, h => by
      simpa [writeAll] using h
  | u :: vars, b :: bs, x :: vals, env, env', hlen, hlive, h => by
      have hlen' := Nat.succ.inj hlen
      have hlive' : ∀ v c, (some v, c) ∈ vars.zip bs → live v → c = true :=
        fun v c hm => hlive v c (List.mem_cons_of_mem _ hm)
      cases b with
      | true =>
          simp only [select_cons_true, writeAll]
          refine writeAll_select hlen' hlive' fun v hv => ?_
          cases u with
          | none => exact h v hv
          | some u =>
              simp only [write]
              split
              · rfl
              · exact h v hv
      | false =>
          simp only [select_cons_false, writeAll]
          refine writeAll_select hlen' hlive' fun v hv => ?_
          cases u with
          | none => exact h v hv
          | some u =>
              have hne : v ≠ u := by
                rintro rfl
                exact Bool.false_ne_true (hlive v false List.mem_cons_self hv)
              simpa [write, hne] using h v hv

end Env

/-- `for i in range(length)`, from the other end when `reverse`. -/
def ScanParams.order (p : ScanParams) : List ℕ :=
  if p.reverse then (List.range p.length).reverse else List.range p.length

/-- The iterations of a `scan`: the last carry, and the `ys` of each iteration. -/
def scanLoop (S : Semantics P V W) (body : List V → W → List V × W) (numCarry : ℕ)
    (consts xs : List V) : List ℕ → List V → W → List V × List (List V) × W
  | [], carry, w => (carry, [], w)
  | i :: is, carry, w =>
      let r := body (consts ++ carry ++ xs.map (S.index · i)) w
      let rest := scanLoop S body numCarry consts xs is (r.1.take numCarry) r.2
      (rest.1, r.1.drop numCarry :: rest.2.1, rest.2.2)

/-- The columns of a table whose rows have `n` entries. -/
def columns (n : ℕ) : List (List V) → List (List V)
  | [] => List.replicate n []
  | row :: rows => row.zipWith (· :: ·) (columns n rows)

/-- `_scan_impl`. Unrolling only groups the iterations, and the iteration at `i` writes its
`ys` at `i`. -/
def scanImpl (S : Semantics P V W) (p : ScanParams) (numYs : ℕ)
    (body : List V → W → List V × W) (args : List V) (w : W) : List V × W :=
  let consts := args.take p.numConsts
  let carry := (args.drop p.numConsts).take p.numCarry
  let xs := (args.drop p.numConsts).drop p.numCarry
  let r := scanLoop S body p.numCarry consts xs p.order carry w
  let rows := if p.reverse then r.2.1.reverse else r.2.1
  (r.1 ++ (columns numYs rows).map S.stack, r.2.2)

/-- What a primitive that holds a jaxpr does, `body` being the evaluation of that jaxpr. -/
def HigherOrder.impl (S : Semantics P V W) (numOuts : ℕ)
    (body : List V → List V → W → List V × W) : HigherOrder V → List V → W → List V × W
  | call, args, w => body [] args w
  | closedCall consts, args, w => body consts args w
  | scan consts p, args, w => scanImpl S p (numOuts - p.numCarry) (body consts) args w

variable [Inhabited V]

mutual
/-- `core.eval_jaxpr` -/
def evalJaxpr (S : Semantics P V W) : Jaxpr P K V → List V → List V → W → List V × W
  | .mk constvars invars eqns outvars _, consts, args, w =>
      let env : Env V := fun _ => default
      let env := (env.writeAll (constvars.map some) consts).writeAll (invars.map some) args
      let r := evalEqns S eqns env w
      (outvars.map r.1.read, r.2)

/-- The loop of `core.eval_jaxpr` over the equations. -/
def evalEqns (S : Semantics P V W) : List (JaxprEqn P K V) → Env V → W → Env V × W
  | [], env, w => (env, w)
  | eqn :: eqns, env, w =>
      let ans := evalEqn S eqn (eqn.invars.map env.read) w
      evalEqns S eqns (env.writeAll eqn.outvars ans.1) ans.2

/-- `eqn.primitive.bind(*args, **eqn.params)` -/
def evalEqn (S : Semantics P V W) : JaxprEqn P K V → List V → W → List V × W
  | .prim p _ _ _, args, w => S.bind p args w
  | .sub how j _ _ _, args, w =>
      how.impl S j.outvars.length (fun consts args w => evalJaxpr S j consts args w) args w
end

end JaxDas.PartialEval
