import JaxDas.CutlassFa.Request
import JaxDas.Lib.Tensor
import Mathlib.Logic.Nontrivial.Defs

/-!
# Batching the forward primitive

`_dot_product_attention_fwd_batcher` merges the mapped axis into the batch axis by reshapes: the
bias to a batch of one, the mask not at all, an operand that is not mapped to the batch of the query
nevertheless. The primitive is a parameter, of which only this is known: on operands of its shapes
it computes each element of the batch from that element of its operands.
-/

namespace JaxDas.CutlassFa

variable {α : Type}

/-- The seven operands; `α` are the elements of all but the mask and the lengths. -/
structure Operands (α : Type) where
  query : Tensor α
  key : Tensor α
  value : Tensor α
  bias : Tensor α
  mask : Tensor ℤ
  q_seqlen : Tensor ℤ
  kv_seqlen : Tensor ℤ

structure BatchDims where
  query : Option ℕ
  key : Option ℕ
  value : Option ℕ
  bias : Option ℕ
  mask : Option ℕ
  q_seqlen : Option ℕ
  kv_seqlen : Option ℕ
deriving DecidableEq, Repr

def BatchDims.toList (d : BatchDims) : List (Option ℕ) :=
  [d.query, d.key, d.value, d.bias, d.mask, d.q_seqlen, d.kv_seqlen]

/-- The parameters of the primitive that the batcher looks at. -/
structure Params where
  mask_type : MaskType
  layout : AttentionLayout
  has_bias : Bool

def showDim : Option ℕ → String
  | none => "None"
  | some dim => toString dim

def checkValidBatchDims : List (Option ℕ) → Except PyError Unit
  | [] => .ok ()
  | dim :: bdims =>
      if dim = some 0 ∨ dim = none then checkValidBatchDims bdims
      else .error (.notImplementedError
        ("Currently only support batch_dim in [0, None], but got dim=" ++ showDim dim))

/-- `shape[-3:]` -/
def last3 (shape : List ℕ) : List ℕ := shape.drop (shape.length - 3)

/-- `*_, N, T, _ = shape` or `*_, T, N, _ = shape` -/
def AttentionLayout.lastDims (layout : AttentionLayout) (shape : List ℕ) :
    Except PyError (ℕ × ℕ) :=
  match layout, last3 shape with
  | .BNTH, [N, T, _] => .ok (N, T)
  | .BTNH, [T, N, _] => .ok (N, T)
  | _, _ => .error (.valueError
      ("not enough values to unpack (expected at least 3, got " ++ toString shape.length ++ ")"))

def reshape {β : Type} (t : Tensor β) (shape : List ℕ) : Except PyError (Tensor β) :=
  match t.reshape? shape with
  | some t => .ok t
  | none => .error (.typeError ("cannot reshape array of shape (" ++ showDims ", " t.shape ++
      ") (size " ++ toString (size t.shape) ++ ") into shape (" ++ showDims ", " shape ++
      ") (size " ++ toString (size shape) ++ ")"))

/-- `reshape` under a condition. -/
def reshapeIf {β : Type} (c : Bool) (t : Tensor β) (shape : List ℕ) : Except PyError (Tensor β) :=
  if c then reshape t shape else .ok t

/-- The operands that the primitive is bound with. -/
def mergedOperands (p : Params) (args : Operands α) (batch_dims : BatchDims) :
    Except PyError (Operands α) := do
  let Bs := args.query.shape.take (args.query.shape.length - 3)
  let (N, T) ← p.layout.lastDims args.query.shape
  let (_, S) ← p.layout.lastDims args.key.shape
  let B := size Bs
  let query ← reshape args.query (B :: last3 args.query.shape)
  let key ← reshape args.key (B :: last3 args.key.shape)
  let value ← reshape args.value (B :: last3 key.shape)
  let bias ← reshapeIf (p.has_bias && batch_dims.bias.isSome) args.bias [1, N, T, S]
  let q_seqlen ← reshapeIf (hasPadding p.mask_type) args.q_seqlen [B]
  let kv_seqlen ← reshapeIf (hasPadding p.mask_type) args.kv_seqlen [B]
  .ok { query, key, value, bias, mask := args.mask, q_seqlen, kv_seqlen }

/-- `_dot_product_attention_fwd_batcher` with `is_training` false: the output, and its batch
dimension. -/
def fwdBatcher (prim : Operands α → Tensor α) (p : Params) (args : Operands α)
    (batch_dims : BatchDims) : Except PyError (Tensor α × Option ℕ) := do
  checkValidBatchDims batch_dims.toList
  let merged ← mergedOperands p args batch_dims
  let output ← reshape (prim merged) args.query.shape
  .ok (output, batch_dims.query)

/-! ## What it should do -/

/-- The dimensions of the primitive's operands, but for the batch. -/
structure Sizes where
  N : ℕ
  T : ℕ
  kN : ℕ
  S : ℕ
  H : ℕ

/-- Positions and heads in the order of the layout. -/
def AttentionLayout.rest : AttentionLayout → (N T H : ℕ) → List ℕ
  | .BTNH, N, T, H => [T, N, H]
  | .BNTH, N, T, H => [N, T, H]

def Sizes.queryShape (z : Sizes) (p : Params) : List ℕ := p.layout.rest z.N z.T z.H

def Sizes.keyShape (z : Sizes) (p : Params) : List ℕ := p.layout.rest z.kN z.S z.H

def Sizes.scoreShape (z : Sizes) : List ℕ := [z.N, z.T, z.S]

/-- The shapes that `dot_product_attention` binds the primitive with. -/
structure WellShaped (p : Params) (z : Sizes) (B : ℕ) (ops : Operands α) : Prop where
  query : ops.query.shape = B :: z.queryShape p
  key : ops.key.shape = B :: z.keyShape p
  value : ops.value.shape = B :: z.keyShape p
  bias : ops.bias.shape = B :: z.scoreShape
  mask : ops.mask.shape = B :: z.scoreShape
  lengths : hasPadding p.mask_type → ops.q_seqlen.shape = [B] ∧ ops.kv_seqlen.shape = [B]

/-- What the primitive computes one element of the batch from: the lengths are read with padding
only. -/
structure Element (α : Type) where
  query : Tensor α
  key : Tensor α
  value : Tensor α
  bias : Tensor α
  mask : Tensor ℤ
  lengths : Option (Tensor ℤ × Tensor ℤ)

def Operands.lengths? (ops : Operands α) (p : Params) (j : ℕ) :
    Option (Option (Tensor ℤ × Tensor ℤ)) :=
  if hasPadding p.mask_type then do
    let q_seqlen ← ops.q_seqlen.elem? j
    let kv_seqlen ← ops.kv_seqlen.elem? j
    some (some (q_seqlen, kv_seqlen))
  else some none

def Operands.elem? (ops : Operands α) (p : Params) (j : ℕ) : Option (Element α) := do
  let query ← ops.query.elem? j
  let key ← ops.key.elem? j
  let value ← ops.value.elem? j
  let bias ← ops.bias.elem? j
  let mask ← ops.mask.elem? j
  let lengths ← ops.lengths? p j
  some { query, key, value, bias, mask, lengths }

/-- The primitive computes each element of the batch independently. Its output has the shape of the
query, whatever the other operands are. -/
structure Pointwise (p : Params) (z : Sizes) (prim : Operands α → Tensor α) : Prop where
  shape : ∀ ops, (prim ops).shape = ops.query.shape
  elem : ∃ f : Element α → Tensor α, ∀ B ops, WellShaped p z B ops →
    ∀ j, (prim ops).elem? j = (ops.elem? p j).map f

/-- An operand at an index of the mapped axis. -/
def atIndex {β : Type} (t : Tensor β) (bdim : Option ℕ) (i : ℕ) : Option (Tensor β) :=
  if bdim = some 0 then t.elem? i else some t

def Operands.atIndex (ops : Operands α) (d : BatchDims) (i : ℕ) : Option (Operands α) := do
  let query ← CutlassFa.atIndex ops.query d.query i
  let key ← CutlassFa.atIndex ops.key d.key i
  let value ← CutlassFa.atIndex ops.value d.value i
  let bias ← CutlassFa.atIndex ops.bias d.bias i
  let mask ← CutlassFa.atIndex ops.mask d.mask i
  let q_seqlen ← CutlassFa.atIndex ops.q_seqlen d.q_seqlen i
  let kv_seqlen ← CutlassFa.atIndex ops.kv_seqlen d.kv_seqlen i
  some { query, key, value, bias, mask, q_seqlen, kv_seqlen }

/-- Batching is refused, or the output at each of the `b` indices is that of the primitive on the
operands at that index. -/
def Batches (prim : Operands α → Tensor α) (p : Params) (b : ℕ) (args : Operands α)
    (d : BatchDims) : Prop :=
  (∃ msg, fwdBatcher prim p args d = .error (.notImplementedError msg)) ∨
    ∃ out bdim, fwdBatcher prim p args d = .ok (out, bdim) ∧
      ∀ i < b, CutlassFa.atIndex out bdim i = (args.atIndex d i).map prim

/-- The shape of an operand with a mapped axis of length `b`, if it is mapped. -/
def withAxis (b : ℕ) (bdim : Option ℕ) (shape : List ℕ) : List ℕ :=
  if bdim = some 0 then b :: shape else shape

/-- The operands are those of a batch of `B`, each mapped over an axis of length `b` or not. Without
padding the lengths can be anything. -/
structure Fits (p : Params) (z : Sizes) (b B : ℕ) (args : Operands α) (d : BatchDims) : Prop where
  query : args.query.shape = withAxis b d.query (B :: z.queryShape p)
  key : args.key.shape = withAxis b d.key (B :: z.keyShape p)
  value : args.value.shape = withAxis b d.value (B :: z.keyShape p)
  bias : args.bias.shape = withAxis b d.bias (B :: z.scoreShape)
  mask : args.mask.shape = withAxis b d.mask (B :: z.scoreShape)
  q_seqlen : ∃ s, args.q_seqlen.shape = withAxis b d.q_seqlen s ∧ (hasPadding p.mask_type → s = [B])
  kv_seqlen : ∃ s, args.kv_seqlen.shape = withAxis b d.kv_seqlen s ∧
    (hasPadding p.mask_type → s = [B])

def BatchDims.Valid (d : BatchDims) : Prop := ∀ dim ∈ d.toList, dim = some 0 ∨ dim = none

/-- The batch that an operand is merged to. -/
def lead (b B : ℕ) (bdim : Option ℕ) : ℕ := if bdim = some 0 then b * B else B

/-- When no reshape fails: each operand that is merged has the batch of the query, or nothing in
it; a mapped bias becomes a batch of one. -/
structure Reshapes (p : Params) (z : Sizes) (b B : ℕ) (d : BatchDims) : Prop where
  key : lead b B d.key = lead b B d.query ∨ size (z.keyShape p) = 0
  value : lead b B d.value = lead b B d.query ∨ size (z.keyShape p) = 0
  bias : p.has_bias → d.bias = some 0 → b * B = 1 ∨ size z.scoreShape = 0
  lengths : hasPadding p.mask_type →
    lead b B d.q_seqlen = lead b B d.query ∧ lead b B d.kv_seqlen = lead b B d.query

/-- When the batcher is right: besides, the bias and the mask have the batch of the query although
they are not merged, or there is no output. -/
structure Merges (p : Params) (z : Sizes) (b B : ℕ) (d : BatchDims) : Prop
    extends Reshapes p z b B d where
  scores : (lead b B d.query = B ∧ d.mask = none ∧ (d.bias = some 0 → p.has_bias ∧ B = 1)) ∨
    b = 0 ∨ size (B :: z.queryShape p) = 0

end JaxDas.CutlassFa
