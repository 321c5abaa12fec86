import JaxDas.Lib.Fallible
import JaxDas.Loops.ClosedJaxpr

/-!
# Batching a while loop

`_while_loop_batching_rule` makes the equation of a batched loop, and `_while_lowering` says how it
runs: as long as the predicate holds anywhere, with the old carry kept where it does not. How a
jaxpr is batched is a parameter, `Batcher`; `Lawful` says that the batched jaxpr maps the jaxpr over
the axes.
-/

namespace JaxDas.WhileBatching

variable {α : Type}

/-- The parameters of a while equation. -/
structure While (α : Type) where
  cond_nconsts : ℕ
  cond_jaxpr : ClosedJaxpr α
  body_nconsts : ℕ
  body_jaxpr : ClosedJaxpr α

/-! ## Batched values -/

/-- `core.unmapped_aval` for each axis that is not `None`. -/
def batchedAvals (size : ℕ) (axes : List (Option ℕ)) (avals : List (List ℕ)) : List (List ℕ) :=
  List.zipWith (fun axis aval => axis.elim aval fun k => aval.insertIdx k size) axes avals

/-- The value at an index of the batch. -/
def sliceAxis (axis : Option ℕ) (b : ℕ) (x : NdArray α) : NdArray α :=
  axis.elim x fun k => x.slice k b

def sliceAll (axes : List (Option ℕ)) (b : ℕ) (xs : List (NdArray α)) : List (NdArray α) :=
  List.zipWith (fun axis x => sliceAxis axis b x) axes xs

/-- Every axis is one that the batched value can have. -/
def Fits (axes : List (Option ℕ)) (avals : List (List ℕ)) : Prop :=
  List.Forall₂ (fun axis aval => ∀ k, axis = some k → k ≤ aval.length) axes avals

/-! ## Batching a jaxpr -/

inductive BatchingError where
  /-- `matchaxis`: an output that is mapped, but is not to be. -/
  | mappedOutput
  /-- `Fixpoint not reached` -/
  | fixpointNotReached
  /-- The assertion that an operand that is batched gets an axis. -/
  | noAxis
deriving DecidableEq, Repr

/-- What tracing a jaxpr with batched inputs gives: the outputs that are mapped, for the inputs that
are, and the jaxpr with the outputs at other axes. -/
structure Batcher (α : Type) where
  mapped : ClosedJaxpr α → (size : ℕ) → (in_batched : List Bool) → List Bool
  jaxpr : ClosedJaxpr α → (size : ℕ) → (in_axes out_axes : List (Option ℕ)) → ClosedJaxpr α

/-- The jaxpr is mapped over the axes. -/
structure Maps (closed_jaxpr batched : ClosedJaxpr α) (size : ℕ)
    (in_axes out_axes : List (Option ℕ)) : Prop where
  in_avals : batched.in_avals = batchedAvals size in_axes closed_jaxpr.in_avals
  out_avals : batched.out_avals = batchedAvals size out_axes closed_jaxpr.out_avals
  eval : ∀ args, args.map NdArray.shape = batched.in_avals → ∀ b < size,
    sliceAll out_axes b (batched.eval args) = closed_jaxpr.eval (sliceAll in_axes b args)

/-- An output that is mapped has no place among those that are not. -/
def Places (mapped : List Bool) (out_axes : List (Option ℕ)) : Prop :=
  List.Forall₂ (fun m axis => m = true → axis ≠ none) mapped out_axes

structure Batcher.Lawful (bt : Batcher α) : Prop where
  length_mapped : ∀ jaxpr size in_batched,
    (bt.mapped jaxpr size in_batched).length = jaxpr.out_avals.length
  maps : ∀ jaxpr size in_axes out_axes, Fits in_axes jaxpr.in_avals →
    Fits out_axes jaxpr.out_avals →
    Places (bt.mapped jaxpr size (in_axes.map Option.isSome)) out_axes →
    Maps jaxpr (bt.jaxpr jaxpr size in_axes out_axes) size in_axes out_axes

instance (mapped : List Bool) (out_axes : List (Option ℕ)) : Decidable (Places mapped out_axes) :=
  inferInstanceAs (Decidable (List.Forall₂ _ _ _))

/-- `batch_jaxpr_axes`, for axes that are not `zero_if_mapped`. -/
def batchJaxprAxes (bt : Batcher α) (closed_jaxpr : ClosedJaxpr α) (size : ℕ)
    (in_axes out_axes_dest : List (Option ℕ)) : Except BatchingError (ClosedJaxpr α) :=
  if Places (bt.mapped closed_jaxpr size (in_axes.map Option.isSome)) out_axes_dest then
    .ok (bt.jaxpr closed_jaxpr size in_axes out_axes_dest)
  else .error .mappedOutput

/-- The outputs that `batch_jaxpr` batches: those that are mapped or to be instantiated. -/
def outBatched (bt : Batcher α) (closed_jaxpr : ClosedJaxpr α) (size : ℕ)
    (in_batched instantiate : List Bool) : List Bool :=
  List.zipWith (· || ·) instantiate (bt.mapped closed_jaxpr size in_batched)

/-! ## The rule -/

/-- `for _ in range(n)`: the carry that is batched. -/
def carryFixpoint (bt : Batcher α) (body_jaxpr : ClosedJaxpr α) (size : ℕ)
    (bconst_bat : List Bool) : ℕ → List Bool → Except BatchingError (List Bool)
  | 0, _ => .error .fixpointNotReached
  | n + 1, carry_bat =>
      let carry_bat_out := outBatched bt body_jaxpr size (bconst_bat ++ carry_bat) carry_bat
      if carry_bat = carry_bat_out then .ok carry_bat
      else carryFixpoint bt body_jaxpr size bconst_bat n (List.zipWith (· || ·) carry_bat carry_bat_out)

/-- The equation that `_while_loop_batching_rule` binds, and the axes of its outputs. -/
def batchedWhile (bt : Batcher α) (size : ℕ) (w : While α) (dims : List (Option ℕ)) :
    Except BatchingError (While α × List (Option ℕ)) := do
  let cconst_dims := dims.take w.cond_nconsts
  let bconst_dims := (dims.drop w.cond_nconsts).take w.body_nconsts
  let init_dims := dims.drop (w.cond_nconsts + w.body_nconsts)
  let cconst_bat := cconst_dims.map Option.isSome
  let bconst_bat := bconst_dims.map Option.isSome
  let init_bat := init_dims.map Option.isSome
  let carry_bat ← carryFixpoint bt w.body_jaxpr size bconst_bat (1 + init_bat.length) init_bat
  let pred_bat := outBatched bt w.cond_jaxpr size (cconst_bat ++ carry_bat) [false]
  if pred_bat = [true] then do
    let carry_dims := carry_bat.map fun _ => some 0
    let body_jaxpr_batched ←
      batchJaxprAxes bt w.body_jaxpr size (bconst_dims ++ carry_dims) carry_dims
    let cond_jaxpr_batched ←
      batchJaxprAxes bt w.cond_jaxpr size (cconst_dims ++ carry_dims) [some 0]
    .ok (⟨w.cond_nconsts, cond_jaxpr_batched, w.body_nconsts, body_jaxpr_batched⟩, carry_dims)
  else do
    let cond_rank := (w.cond_jaxpr.out_avals.headD []).length
    let carry_dims := carry_bat.map fun b => if b then some cond_rank else none
    let body_jaxpr_batched ←
      batchJaxprAxes bt w.body_jaxpr size (bconst_dims ++ carry_dims) carry_dims
    let cond_jaxpr_batched ←
      batchJaxprAxes bt w.cond_jaxpr size (cconst_dims ++ carry_dims) [none]
    .ok (⟨w.cond_nconsts, cond_jaxpr_batched, w.body_nconsts, body_jaxpr_batched⟩, carry_dims)

/-- One operand of `new_init`. -/
def newInitOne (size : ℕ) (x : NdArray α) : (old_axis new_axis : Option ℕ) →
    Except BatchingError (NdArray α)
  | none, some new_axis => .ok (x.broadcast size new_axis)
  | none, none => .ok x
  | some old_axis, some new_axis => .ok (x.moveaxis old_axis new_axis)
  | some _, none => .error .noAxis

def newInit (size : ℕ) : List (NdArray α) → (init_dims carry_dims : List (Option ℕ)) →
    Except BatchingError (List (NdArray α))
  | x :: init, old_axis :: init_dims, new_axis :: carry_dims => do
      let y ← newInitOne size x old_axis new_axis
      let ys ← newInit size init init_dims carry_dims
      .ok (y :: ys)
  | _, _, _ => .ok []

/-- The operands that it binds. -/
def batchedOperands (size : ℕ) (w : While α) (args : List (NdArray α))
    (dims carry_dims : List (Option ℕ)) : Except BatchingError (List (NdArray α)) := do
  let consts := w.cond_nconsts + w.body_nconsts
  let new_init ← newInit size (args.drop consts) (dims.drop consts) carry_dims
  .ok (args.take consts ++ new_init)

/-- `_while_loop_batching_rule`: the equation and the operands that are bound, and the axes of the
outputs. -/
def whileLoopBatchingRule (bt : Batcher α) (size : ℕ) (w : While α) (args : List (NdArray α))
    (dims : List (Option ℕ)) :
    Except BatchingError (While α × List (NdArray α) × List (Option ℕ)) := do
  let (batched, carry_dims) ← batchedWhile bt size w dims
  let operands ← batchedOperands size w args dims carry_dims
  .ok (batched, operands, carry_dims)

/-! ## Running a loop -/

namespace While

variable (holds : α → Bool) (w : While α) (x y z : List (NdArray α))

/-- `pred_aval.shape` -/
def predShape : List ℕ := w.cond_jaxpr.out_avals.headD []

def pred : NdArray α := (w.cond_jaxpr.eval (x ++ z)).headD default

/-- The condition that `_while_lowering` makes of the predicate. -/
def iterates : Bool :=
  if w.predShape ≠ [] then (w.pred x z).reduceOr holds else (w.pred x z).test holds []

/-- The body that it makes, with `_pred_bcast_select_hlo` if the predicate is batched. -/
def bodyStep : List (NdArray α) :=
  let new_z := w.body_jaxpr.eval (y ++ z)
  if w.predShape ≠ [] then List.zipWith (NdArray.select holds (w.pred x z)) new_z z else new_z

/-- The carry in the end, if the loop ends within so many iterations. -/
def run : ℕ → List (NdArray α) → Option (List (NdArray α))
  | 0, _ => none
  | n + 1, z => if w.iterates holds x z then run n (w.bodyStep holds x y z) else some z

/-- The loop on its operands: the constants of the condition and of the body, and the carry. -/
def lower (n : ℕ) (args : List (NdArray α)) : Option (List (NdArray α)) :=
  w.run holds (args.take w.cond_nconsts) ((args.drop w.cond_nconsts).take w.body_nconsts) n
    (args.drop (w.cond_nconsts + w.body_nconsts))

end While

/-! ## Well-formed equations -/

/-- The shapes of the constants of a loop, of its carry and of its predicate. -/
structure Signature where
  cconsts : List (List ℕ)
  bconsts : List (List ℕ)
  carry : List (List ℕ)
  pred : List ℕ

def Signature.in_avals (sig : Signature) : List (List ℕ) := sig.cconsts ++ sig.bconsts ++ sig.carry

/-- What `_while_typecheck` checks of a loop. -/
structure While.Typed (w : While α) (sig : Signature) : Prop where
  cond_nconsts : w.cond_nconsts = sig.cconsts.length
  body_nconsts : w.body_nconsts = sig.bconsts.length
  cond_in : w.cond_jaxpr.in_avals = sig.cconsts ++ sig.carry
  cond_out : w.cond_jaxpr.out_avals = [sig.pred]
  body_in : w.body_jaxpr.in_avals = sig.bconsts ++ sig.carry
  body_out : w.body_jaxpr.out_avals = sig.carry

/-- The shape of the predicate is a prefix of that of every carry. -/
def Signature.Prefixed (sig : Signature) : Prop := ∀ aval ∈ sig.carry, sig.pred <+: aval

end JaxDas.WhileBatching
