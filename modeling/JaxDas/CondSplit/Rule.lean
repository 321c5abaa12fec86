import JaxDas.Lib.Masks
import JaxDas.Lib.Occurrences
import Mathlib.Data.Int.Notation

/-!
# Splitting a conditional

`_cond_partial_eval_custom` splits the branches of a `cond` and joins their residuals. How a branch
is split is a parameter, for one policy. An aval is without its sharding and its varying axes, which
`zeros_like_aval` copies.
-/

namespace JaxDas.CondSplit

/-! ## Types -/

inductive NumericKind where
  | bool
  | int
  | uint
  | float
  | bfloat
  | complex
deriving DecidableEq, Repr

inductive DType where
  | numeric (kind : NumericKind) (bits : ℕ)
  | float0
  /-- `key<...>`, an extended dtype. -/
  | key (impl : ℕ)
deriving DecidableEq, Repr

inductive MemorySpace where
  | device
  | host
deriving DecidableEq, Repr

/-- `ShapedArray` -/
structure Aval where
  shape : List ℕ
  dtype : DType
  weak_type : Bool
  memory_space : MemorySpace
deriving DecidableEq, Repr

def Aval.strong (aval : Aval) : Aval := { aval with weak_type := false }

/-- `typematch`, which ignores the weak type. -/
def typematch (t1 t2 : Aval) : Bool :=
  t1.dtype == t2.dtype && t1.shape == t2.shape && t1.memory_space == t2.memory_space

structure Val (D : Type) where
  aval : Aval
  data : D

variable {D : Type}

/-- The type of `zeros_like_shaped_array`. The zero of a key is one of `float0`, and what a zero
is broadcast to is in the memory of the device. -/
def zerosAval (aval : Aval) : Aval :=
  match aval.dtype with
  | .numeric _ _ => { aval with memory_space := .device }
  | .float0 => { aval with weak_type := false, memory_space := .device }
  | .key _ => { aval with dtype := .float0, weak_type := false, memory_space := .device }

def zerosLikeAval [Zero D] (aval : Aval) : Val D := ⟨zerosAval aval, 0⟩

/-- The values are of the types, up to weak types. -/
def Fits (args : List (Val D)) (avals : List Aval) : Prop :=
  args.map (fun x => x.aval.strong) = avals.map Aval.strong

/-! ## Jaxprs -/

/-- A jaxpr without effects, with its constants. -/
structure Jaxpr (D : Type) where
  in_avals : List Aval
  out_avals : List Aval
  eval : List (Val D) → List (Val D)

def Jaxpr.WellTyped (jaxpr : Jaxpr D) : Prop :=
  ∀ args, Fits args jaxpr.in_avals → Fits (jaxpr.eval args) jaxpr.out_avals

/-- What `partial_eval_jaxpr_custom` returns, with all inputs and outputs instantiated. -/
structure CustomSplit (D : Type) where
  jaxpr_known : Jaxpr D
  jaxpr_staged : Jaxpr D
  unks_out : List Bool
  inst_out : List Bool
  num_res : ℕ

namespace CustomSplit

def res_avals (split : CustomSplit D) : List Aval := split.jaxpr_staged.in_avals.take split.num_res

/-- The known part computes the known outputs and residuals from the known inputs, and the staged one
all outputs from the residuals and all inputs. -/
structure Splits (split : CustomSplit D) (jaxpr : Jaxpr D) (in_unknowns : List Bool) : Prop where
  num_res : split.num_res ≤ split.jaxpr_staged.in_avals.length
  unks_out : split.unks_out.length = jaxpr.out_avals.length
  inst_out : split.inst_out = List.replicate jaxpr.out_avals.length true
  known_in : split.jaxpr_known.in_avals = reject jaxpr.in_avals in_unknowns
  known_out : split.jaxpr_known.out_avals = reject jaxpr.out_avals split.unks_out ++ split.res_avals
  known_typed : split.jaxpr_known.WellTyped
  staged_in : split.jaxpr_staged.in_avals = split.res_avals ++ jaxpr.in_avals
  staged_out : split.jaxpr_staged.out_avals = jaxpr.out_avals
  staged_typed : split.jaxpr_staged.WellTyped
  eval : ∀ args, Fits args jaxpr.in_avals → ∃ res,
    split.jaxpr_known.eval (reject args in_unknowns) =
      reject (jaxpr.eval args) split.unks_out ++ res ∧
    split.jaxpr_staged.eval (res ++ args) = jaxpr.eval args

end CustomSplit

section

variable {J : Type}

/-- `partial_eval_jaxpr_custom` for one policy, on branches that `sem` gives the meaning of. The
outputs that are to be unknown are so besides those that are anyway. -/
structure Lawful (sem : J → Jaxpr D) (pe : J → List Bool → List Bool → CustomSplit D) : Prop where
  splits : ∀ j in_unknowns ensure_out_unknowns, (sem j).WellTyped →
    in_unknowns.length = (sem j).in_avals.length →
    ensure_out_unknowns.length = (sem j).out_avals.length →
    (pe j in_unknowns ensure_out_unknowns).Splits (sem j) in_unknowns
  ensured : ∀ j in_unknowns ensure_out_unknowns,
    ensure_out_unknowns.length = (sem j).out_avals.length →
    (pe j in_unknowns ensure_out_unknowns).unks_out =
      List.zipWith (· || ·)
        (pe j in_unknowns (List.replicate (sem j).out_avals.length false)).unks_out
        ensure_out_unknowns

/-- A `cond` equation: its branches, and the types of its operands and results. -/
structure Cond (J : Type) where
  branches : List J
  in_avals : List Aval
  out_avals : List Aval

/-- `_cond_typecheck` -/
structure Cond.Typed (sem : J → Jaxpr D) (eqn : Cond J) : Prop where
  branches : eqn.branches ≠ []
  typed : ∀ j ∈ eqn.branches, (sem j).WellTyped
  in_avals : ∀ j ∈ eqn.branches, (sem j).in_avals.map Aval.strong = eqn.in_avals.map Aval.strong
  out_avals : ∀ j ∈ eqn.branches, (sem j).out_avals.map Aval.strong = eqn.out_avals.map Aval.strong

/-- The branch of an index. One that is out of bounds is for the last branch. -/
def caseOf (index : ℤ) (n : ℕ) : ℕ := if 0 ≤ index ∧ index < n then index.toNat else n - 1

def evalCond (branches : List (Jaxpr D)) (index : ℤ) (args : List (Val D)) : List (Val D) :=
  match branches[caseOf index branches.length]? with
  | some branch => branch.eval args
  | none => []

/-! ## Joining residuals -/

/-- `_merge_branch_residuals` -/
def mergeBranchResiduals (branch_res_avals : List (List Aval)) : List Aval × List (List ℕ) :=
  ((mergeOccurrences branch_res_avals).map Prod.fst, branch_res_avals.map (slots branch_res_avals))

/-- `_join_cond_outputs`, on one branch. -/
def augmentOutputs [Zero D] (all_res_avals : List Aval) (num_non_res_outputs : ℕ)
    (jaxpr : Jaxpr D) (res_indices : List ℕ) : Jaxpr D where
  in_avals := jaxpr.in_avals
  out_avals := jaxpr.out_avals.take num_non_res_outputs ++
    subvals (all_res_avals.map zerosAval)
      (res_indices.zip (jaxpr.out_avals.drop num_non_res_outputs))
  eval args :=
    let outs_and_residuals := jaxpr.eval args
    outs_and_residuals.take num_non_res_outputs ++
      subvals (all_res_avals.map zerosLikeAval)
        (res_indices.zip (outs_and_residuals.drop num_non_res_outputs))

/-- `_join_cond_pe_staged_jaxpr_inputs`, on one branch. A residual of the branch is numbered, and the
other binders are of residuals that it does not read. -/
def augmentInputs (all_res_avals : List Aval) (jaxpr : Jaxpr D) (res_indices : List ℕ) :
    Jaxpr D where
  in_avals := subvals all_res_avals (res_indices.zip (jaxpr.in_avals.take res_indices.length)) ++
    jaxpr.in_avals.drop res_indices.length
  out_avals := jaxpr.out_avals
  eval args :=
    let aug_res_vars : List (Option ℕ) := subvals (List.replicate all_res_avals.length none)
      (res_indices.zip ((List.range res_indices.length).map some))
    jaxpr.eval
      ((List.range res_indices.length).filterMap (fun v => args[aug_res_vars.idxOf (some v)]?) ++
        args.drop all_res_avals.length)

/-! ## The rule -/

inductive CondError where
  /-- The assertion that the joined branches have the types of the first one. -/
  | mismatch
deriving DecidableEq, Repr

/-- The two equations: the known one takes the index and the known operands and has the known outputs
and the residuals, the staged one takes the index, the residuals and all operands. -/
structure Split (D : Type) where
  branches_known : List (Jaxpr D)
  branches_staged : List (Jaxpr D)
  res_avals : List Aval

/-- What `_cond_partial_eval_custom` returns. Without a split the equation is staged as it is. -/
structure Outcome (D : Type) where
  split : Option (Split D)
  unks_out : List Bool
  inst_out : List Bool
  new_inst : List Bool

variable (pe : J → List Bool → List Bool → CustomSplit D)

/-- An output is unknown when it is in some branch. -/
def unknownOuts (branches : List J) (num_outs : ℕ) (ops_uk : List Bool) : List Bool :=
  branches.foldl (fun unks_out j => List.zipWith (· || ·) unks_out
    (pe j ops_uk (List.replicate num_outs false)).unks_out) (List.replicate num_outs false)

/-- The residuals of the branches. -/
def branchResAvals (eqn : Cond J) (ops_uk : List Bool) : List (List Aval) :=
  eqn.branches.map fun j =>
    (pe j ops_uk (unknownOuts pe eqn.branches eqn.out_avals.length ops_uk)).res_avals

/-- `_cond_partial_eval_custom`, for inputs of which some are variables. -/
def condPartialEvalCustom [Zero D] (eqn : Cond J) (index_uk : Bool) (ops_uk : List Bool)
    (inst_in is_var : List Bool) : Except CondError (Outcome D) :=
  let num_outs := eqn.out_avals.length
  let new_inst := List.zipWith (fun var inst => var && !inst) is_var inst_in
  if index_uk then
    .ok ⟨none, List.replicate num_outs true, List.replicate num_outs true, new_inst⟩
  else
    let unks_out := unknownOuts pe eqn.branches num_outs ops_uk
    let splits := eqn.branches.map fun j => pe j ops_uk unks_out
    let inst_out := (splits.getLast?.map CustomSplit.inst_out).getD []
    let (all_res_avals, res_avals_per_branch) :=
      mergeBranchResiduals (splits.map CustomSplit.res_avals)
    let branches_known := List.zipWith (augmentOutputs all_res_avals (unks_out.count false))
      (splits.map CustomSplit.jaxpr_known) res_avals_per_branch
    let branches_staged := List.zipWith (augmentInputs all_res_avals)
      (splits.map CustomSplit.jaxpr_staged) res_avals_per_branch
    let agrees := fun (j : Jaxpr D) => match branches_known.head? with
      | some first => (List.zipWith typematch j.out_avals first.out_avals).all id
      | none => true
    if branches_known.tail.all agrees then
      .ok ⟨some ⟨branches_known, branches_staged, all_res_avals⟩, unks_out, inst_out, new_inst⟩
    else .error .mismatch

end

end JaxDas.CondSplit
