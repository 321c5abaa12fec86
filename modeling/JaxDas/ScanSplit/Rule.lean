import JaxDas.Lib.Fallible
import JaxDas.Loops.Scan

/-!
# Splitting a scan

`_scan_partial_eval_custom` splits a scan in a known and a staged one. How a jaxpr is split is a
parameter, `PartialEvaluator`, for one policy; `Lawful` says that the parts compute what the jaxpr
does. The body has no effects, so no constant is a `Ref`.
-/

namespace JaxDas.ScanSplit

variable {α : Type}

inductive SplitError where
  /-- `Fixpoint not reached` -/
  | fixpointNotReached
  /-- The assertion of `_move_binders_to_front`. -/
  | binders
deriving DecidableEq, Repr

/-! ## Splitting a jaxpr -/

/-- What `partial_eval_jaxpr_custom` returns, with all inputs and outputs instantiated. -/
structure CustomSplit (α : Type) where
  jaxpr_known : ClosedJaxpr α
  jaxpr_staged : ClosedJaxpr α
  unks_out : List Bool
  inst_out : List Bool
  num_res : ℕ

/-- What `partial_eval_jaxpr_nounits` returns. -/
structure NounitsSplit (α : Type) where
  jaxpr_known : ClosedJaxpr α
  jaxpr_unknown : ClosedJaxpr α
  out_unknowns : List Bool

structure PartialEvaluator (α : Type) where
  custom : ClosedJaxpr α → (in_unknowns ensure_out_unknowns : List Bool) → CustomSplit α
  nounits : ClosedJaxpr α → (unknowns instantiate : List Bool) → NounitsSplit α

/-- The known part computes the known outputs and residuals from the known inputs, and the staged one
all outputs from the residuals and all inputs. -/
structure CustomSplit.Splits (split : CustomSplit α) (jaxpr : ClosedJaxpr α)
    (in_unknowns ensure_out_unknowns : List Bool) (res_avals : List (List ℕ)) : Prop where
  num_res : split.num_res = res_avals.length
  unks_out : split.unks_out.length = jaxpr.out_avals.length
  ensured : Below ensure_out_unknowns split.unks_out
  inst_out : split.inst_out = List.replicate jaxpr.out_avals.length true
  known_in : split.jaxpr_known.in_avals = reject jaxpr.in_avals in_unknowns
  known_out : split.jaxpr_known.out_avals = reject jaxpr.out_avals split.unks_out ++ res_avals
  staged_in : split.jaxpr_staged.in_avals = res_avals ++ jaxpr.in_avals
  staged_out : split.jaxpr_staged.out_avals = jaxpr.out_avals
  eval : ∀ args, args.map NdArray.shape = jaxpr.in_avals → ∃ res,
    split.jaxpr_known.eval (reject args in_unknowns) =
      reject (jaxpr.eval args) split.unks_out ++ res ∧
    split.jaxpr_staged.eval (res ++ args) = jaxpr.eval args

/-- The known part computes the known outputs and residuals from the known inputs, and the unknown
one the unknown outputs from the residuals and the unknown inputs. -/
structure NounitsSplit.Splits (split : NounitsSplit α) (jaxpr : ClosedJaxpr α)
    (unknowns instantiate : List Bool) (res_avals : List (List ℕ)) : Prop where
  out_unknowns : split.out_unknowns.length = jaxpr.out_avals.length
  instantiated : Below instantiate split.out_unknowns
  known_in : split.jaxpr_known.in_avals = reject jaxpr.in_avals unknowns
  known_out : split.jaxpr_known.out_avals = reject jaxpr.out_avals split.out_unknowns ++ res_avals
  unknown_in : split.jaxpr_unknown.in_avals = res_avals ++ select jaxpr.in_avals unknowns
  unknown_out : split.jaxpr_unknown.out_avals = select jaxpr.out_avals split.out_unknowns
  eval : ∀ args, args.map NdArray.shape = jaxpr.in_avals → ∃ res,
    split.jaxpr_known.eval (reject args unknowns) =
      reject (jaxpr.eval args) split.out_unknowns ++ res ∧
    split.jaxpr_unknown.eval (res ++ select args unknowns) =
      select (jaxpr.eval args) split.out_unknowns

structure PartialEvaluator.Lawful (pe : PartialEvaluator α) : Prop where
  custom : ∀ jaxpr in_unknowns ensure_out_unknowns, in_unknowns.length = jaxpr.in_avals.length →
    ensure_out_unknowns.length = jaxpr.out_avals.length →
    ∃ res_avals, (pe.custom jaxpr in_unknowns ensure_out_unknowns).Splits jaxpr in_unknowns
      ensure_out_unknowns res_avals
  nounits : ∀ jaxpr unknowns instantiate, unknowns.length = jaxpr.in_avals.length →
    instantiate.length = jaxpr.out_avals.length →
    ∃ res_avals, (pe.nounits jaxpr unknowns instantiate).Splits jaxpr unknowns instantiate res_avals

/-! ## Moving binders -/

/-- `_move_to_front` -/
def moveToFront {β : Type} (lst : List β) (to_move : List Bool) : List β :=
  select lst to_move ++ reject lst to_move

/-- `move_binders_to_front`: an argument goes to the binder that is at its place now. -/
def moveBindersToFront (jaxpr : ClosedJaxpr α) (to_move : List Bool) :
    Except SplitError (ClosedJaxpr α) :=
  if h : jaxpr.in_avals.length = to_move.length then
    .ok {
      in_avals := moveToFront jaxpr.in_avals to_move
      out_avals := jaxpr.out_avals
      eval := fun args =>
        jaxpr.eval (mergeLists to_move (args.drop (to_move.count true))
          (args.take (to_move.count true)))
      typed := by
        intro args hargs
        refine jaxpr.typed _ ?_
        rw [mergeLists_map, List.map_drop, List.map_take, hargs, moveToFront, ← length_select h,
          List.drop_left, List.take_left, mergeLists_partition h] }
  else .error .binders

def moveBindersToBack (jaxpr : ClosedJaxpr α) (to_move : List Bool) :
    Except SplitError (ClosedJaxpr α) :=
  moveBindersToFront jaxpr (to_move.map fun b => !b)

/-! ## The rule -/

/-- `known`: the constants of the loop are computed before it. -/
structure KnownCall (α : Type) where
  num_const_known : ℕ
  num_carry_known : ℕ
  num_intensive_res : ℕ
  jaxpr_known_hoist : ClosedJaxpr α
  jaxpr_known_loop : ClosedJaxpr α
  length : ℕ
  reverse : Bool

def KnownCall.eval (known : KnownCall α) (ins_known : List (NdArray α)) : List (NdArray α) :=
  let consts_known_hoist := ins_known.take known.num_const_known
  let ins_known_lp := ins_known.drop known.num_const_known
  let out_hoist := known.jaxpr_known_hoist.eval consts_known_hoist
  let intensive_res := out_hoist.take known.num_intensive_res
  let consts_known_lp := out_hoist.drop known.num_intensive_res
  let scan : Scan α :=
    ⟨consts_known_lp.length, known.num_carry_known, known.length, known.reverse,
      known.jaxpr_known_loop⟩
  intensive_res ++ scan.eval (consts_known_lp ++ ins_known_lp)

/-- The known equation takes the inputs that `unks_in` does not mark, and has the intensive residuals,
the outputs that `unks_out` does not mark and the extensive residuals; the staged one takes the
intensive residuals, all inputs and the extensive residuals. -/
structure Split (α : Type) where
  unks_in : List Bool
  body : CustomSplit α
  loop_dep_res : List Bool
  known : KnownCall α
  staged : Scan α
  unks_out : List Bool
  inst_out : List Bool
  new_inst : List Bool

/-- `for _ in range(n)`: the carry that is unknown, and the split of the body. -/
def carryFixpoint (pe : PartialEvaluator α) (s : Scan α) (const_uk xs_uk : List Bool) :
    ℕ → List Bool → Except SplitError (List Bool × CustomSplit α)
  | 0, _ => .error .fixpointNotReached
  | n + 1, carry_uk =>
      let num_ys := s.jaxpr.out_avals.length - s.num_carry
      let split := pe.custom s.jaxpr (const_uk ++ carry_uk ++ xs_uk)
        (carry_uk ++ List.replicate num_ys false)
      let carry_uk_out := split.unks_out.take s.num_carry
      if carry_uk_out = carry_uk then .ok (carry_uk, split)
      else carryFixpoint pe s const_uk xs_uk n (List.zipWith (· || ·) carry_uk carry_uk_out)

/-- `_scan_partial_eval_custom`, for inputs of which some are variables. -/
def scanPartialEvalCustom (pe : PartialEvaluator α) (s : Scan α) (unks_in inst_in is_var : List Bool) :
    Except SplitError (Split α) := do
  let const_uk := unks_in.take s.num_consts
  let xs_uk := unks_in.drop (s.num_consts + s.num_carry)
  let init_uk := (unks_in.drop s.num_consts).take s.num_carry
  let (carry_uk, body) ← carryFixpoint pe s const_uk xs_uk (1 + init_uk.length) init_uk
  let num_res := body.num_res
  let jaxpr_staged ← moveBindersToBack body.jaxpr_staged
    (List.replicate num_res true ++ List.replicate s.jaxpr.in_avals.length false)
  let num_const_known := const_uk.count false
  let num_carry_known := carry_uk.count false
  let num_xs_known := xs_uk.count false
  let loop := pe.nounits body.jaxpr_known
    (List.replicate num_const_known false ++ List.replicate (num_carry_known + num_xs_known) true)
    (List.replicate (body.unks_out.count false) true ++ List.replicate num_res false)
  let loop_dep_res := loop.out_unknowns.drop (loop.out_unknowns.length - num_res)
  let jaxpr_staged ← moveBindersToFront jaxpr_staged
    (List.replicate inst_in.length false ++ loop_dep_res.map fun b => !b)
  let num_intensive_res := loop_dep_res.count false
  .ok {
    unks_in := const_uk ++ carry_uk ++ xs_uk
    body := body
    loop_dep_res := loop_dep_res
    known :=
      { num_const_known := num_const_known
        num_carry_known := num_carry_known
        num_intensive_res := num_intensive_res
        jaxpr_known_hoist := loop.jaxpr_known
        jaxpr_known_loop := loop.jaxpr_unknown
        length := s.length
        reverse := s.reverse }
    staged := ⟨num_intensive_res + s.num_consts, s.num_carry, s.length, s.reverse, jaxpr_staged⟩
    unks_out := body.unks_out
    inst_out := body.inst_out
    new_inst := List.zipWith (fun var inst => var && !inst) is_var inst_in }

end JaxDas.ScanSplit
