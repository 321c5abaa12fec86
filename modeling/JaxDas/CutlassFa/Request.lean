import JaxDas.Lib.Fallible
import JaxDas.Lib.RowMajor
import Mathlib.Data.Int.Notation

/-!
# What is asked of the attention kernel

`dot_product_attention` of `cutlass_fa_attention_stablehlo.py`: it checks shapes, types and
options, and binds a primitive with all seven operands. Arrays are their types and shapes here.
-/

namespace JaxDas.CutlassFa

inductive PyError where
  | valueError (msg : String)
  | notImplementedError (msg : String)
  | typeError (msg : String)
  | runtimeError (msg : String)
  | keyError (msg : String)
deriving DecidableEq, Repr

inductive DType where
  | bfloat16
  | float16
  | int32
  | int8
  | other (name : String)
deriving DecidableEq, Repr

instance : ToString DType where
  toString
    | .bfloat16 => "bfloat16"
    | .float16 => "float16"
    | .int32 => "int32"
    | .int8 => "int8"
    | .other name => name

/-- An array, as far as the checks look at it. -/
structure Arr where
  dtype : DType
  shape : List ℕ
deriving DecidableEq, Repr

inductive AttentionLayout where
  | BTNH
  | BNTH
deriving DecidableEq, Repr

inductive MaskType where
  | NO_MASK
  | PADDING
  | CAUSAL
  | PADDING_CAUSAL
  | ALIBI
deriving DecidableEq, Repr

/-- The arguments of `dot_product_attention`; `P` are Python's floats. -/
structure Request (P : Type) where
  query : Arr
  key : Arr
  value : Arr
  bias : Option Arr
  mask : Option Arr
  q_seqlen : Option Arr
  kv_seqlen : Option Arr
  scale : P
  mask_type : MaskType
  seed : ℤ
  dropout_rate : P
  qkv_layout : String
  sliding_window_length : Option ℤ
deriving Repr

/-- The operands and parameters of the primitive. -/
structure Bound (P : Type) where
  query : Arr
  key : Arr
  value : Arr
  bias : Arr
  mask : Arr
  q_seqlen : Arr
  kv_seqlen : Arr
  scale : P
  seed : ℤ
  dropout_rate : P
  mask_type : MaskType
  layout : AttentionLayout
  sliding_window_length : Option ℤ
deriving Repr

def hasPadding (mask_type : MaskType) : Bool :=
  mask_type = .PADDING ∨ mask_type = .PADDING_CAUSAL

/-- `a, b, c, d = shape` -/
def unpack4 : List ℕ → Except PyError (ℕ × ℕ × ℕ × ℕ)
  | [a, b, c, d] => .ok (a, b, c, d)
  | shape =>
      if shape.length < 4 then
        .error (.valueError
          ("not enough values to unpack (expected 4, got " ++ toString shape.length ++ ")"))
      else .error (.valueError "too many values to unpack (expected 4)")

/-- Batch, heads, positions and size of a head. -/
structure Dims where
  B : ℕ
  N : ℕ
  T : ℕ
  H : ℕ
deriving DecidableEq, Repr

/-- `B, N, T, H = shape` or `B, T, N, H = shape` -/
def AttentionLayout.unpack : AttentionLayout → List ℕ → Except PyError Dims
  | .BNTH, shape => do
      let (B, N, T, H) ← unpack4 shape
      .ok ⟨B, N, T, H⟩
  | .BTNH, shape => do
      let (B, T, N, H) ← unpack4 shape
      .ok ⟨B, N, T, H⟩

/-- `upper` is `str.upper`. -/
def normalizeLayout (upper : String → String) (layout : String) : Except PyError AttentionLayout :=
  let layout_upper := upper layout
  if layout_upper = "BSNH" ∨ layout_upper = "BTNH" then .ok .BTNH
  else if layout_upper = "BNSH" ∨ layout_upper = "BNTH" then .ok .BNTH
  else .error (.valueError s!"Unsupported qkv_layout: {layout}")

/-- Go on if the condition holds. -/
def require (c : Prop) [Decidable c] (e : PyError) : Except PyError Unit :=
  if c then .ok () else .error e

/-- The message has the second value twice. -/
def checkEq {α : Type} [DecidableEq α] [ToString α] (a b c : α) (msg : String) :
    Except PyError Unit :=
  require (a = b ∧ b = c) (.valueError s!"{msg} must be same, got {a}, {b}, {b}")

def checkBias (bias : Option Arr) (qT vS : ℕ) : Except PyError Unit :=
  match bias with
  | none => .ok ()
  | some bias => do
      let (_, _, bT, bS) ← unpack4 bias.shape
      require (bT = qT ∧ bS = vS)
        (.valueError s!"Bias must have same seq length as QKV, got {bT} and {bS}")

/-- The checks of `q_seqlen` and of `kv_seqlen`, with the names their messages have for them. -/
def checkSeqlen (name rankName : String) (seqlen : Option Arr) (qB : ℕ) : Except PyError Unit :=
  match seqlen with
  | none => .ok ()
  | some ⟨dtype, shape⟩ => do
      require (dtype = .int32) (.valueError s!"{name} must have int32 datatype, got {dtype}")
      let rank := shape.length
      require (rank = 1) (.valueError s!"{rankName} must have a rank of 1, got {rank}")
      let b := shape.getD 0 0
      require (b = qB) (.valueError s!"{name} must have same batch as Q, got {b}")

def checkLayout (query key value : Arr) (bias q_seqlen kv_seqlen : Option Arr)
    (layout : AttentionLayout) : Except PyError Unit := do
  let q_rank := query.shape.length
  require (q_rank = 4) (.valueError s!"Q must have a rank of 4, got {q_rank}")
  checkEq q_rank key.shape.length value.shape.length "QKV rank"
  let q_dtype := query.dtype
  require (q_dtype = .bfloat16 ∨ q_dtype = .float16)
    (.notImplementedError s!"Q must be fp16 or bf16, got {q_dtype}")
  checkEq q_dtype key.dtype value.dtype "QKV dtype"
  let q ← layout.unpack query.shape
  let k ← layout.unpack key.shape
  let v ← layout.unpack value.shape
  checkEq q.B k.B v.B "QKV batch"
  checkEq q.H k.H v.H "QKV dim_per_head"
  let kN := k.N
  let vN := v.N
  require (kN = vN) (.valueError s!"KV must have same number of heads, got {kN} vs {vN}")
  let kS := k.T
  let vS := v.T
  require (kS = vS) (.valueError s!"KV must have same seq length, got {kS} vs {vS}")
  checkBias bias q.T vS
  checkSeqlen "q_seqlen" "q_seqlen" q_seqlen q.B
  checkSeqlen "kv_seqlen" "kv_seq_rank" kv_seqlen q.B

/-- Dimensions, as a type or a tuple of at least two shows them. -/
def showDims (sep : String) (shape : List ℕ) : String := sep.intercalate (shape.map toString)

def Arr.strShort (arr : Arr) : String := toString arr.dtype ++ "[" ++ showDims "," arr.shape ++ "]"

/-- `jnp.broadcast_to` -/
def broadcastTo (arr : Arr) (shape : List ℕ) : Except PyError Arr :=
  if arr.shape = shape then .ok arr
  else if shape.length < arr.shape.length then
    .error (.valueError ("Cannot broadcast to shape with fewer dimensions: arr_shape=(" ++
      showDims ", " arr.shape ++ ") shape=(" ++ showDims ", " shape ++ ")"))
  else if (arr.shape.zip (shape.drop (shape.length - arr.shape.length))).all
      fun (arr_d, shape_d) => arr_d = 1 ∨ arr_d = shape_d then .ok { arr with shape := shape }
  else .error (.valueError ("Incompatible types for broadcasting: input type=" ++
    arr.strShort ++ " and requested type=" ++ { arr with shape := shape : Arr }.strShort))

/-- `arr.reshape((1,) * (4 - len(arr.shape)) + arr.shape)` -/
def atLeast4D (arr : Arr) : Arr :=
  { arr with shape := List.replicate (4 - arr.shape.length) 1 ++ arr.shape }

/-- With `is_training` false. -/
def checkIsFlashAttention (query key : Arr) (layout : AttentionLayout) : Except PyError Unit := do
  let ⟨_, _, T, H⟩ ← layout.unpack query.shape
  let ⟨_, _, S, _⟩ ← layout.unpack key.shape
  require (H ≤ 128 ∧ H % 8 = 0)
    (.notImplementedError s!"Unsupported sequence length Q {T}, KV {S} and head dim {H}.")

/-- `jnp.broadcast_to(arr, shape).astype(dtype)`, or a new array where there is none. -/
def fullOperand (arr : Option Arr) (shape : List ℕ) (dtype : DType) : Except PyError Arr :=
  match arr with
  | none => .ok ⟨dtype, shape⟩
  | some arr => do
      let arr ← broadcastTo arr shape
      .ok { arr with dtype := dtype }

variable {P : Type}

/-- The window, if there is one, is not empty. -/
def checkWindow (sliding_window_length : Option ℤ) : Except PyError Unit :=
  match sliding_window_length with
  | none => .ok ()
  | some w => require (0 < w) (.valueError s!"Require sliding_window_length > 0, got {w}")

/-- What the primitive is bound with. Whether the gradient of the bias is wanted is left out: no
inference looks at it. -/
def dotProductAttention (upper : String → String) (r : Request P) : Except PyError (Bound P) := do
  let layout ← normalizeLayout upper r.qkv_layout
  require (hasPadding r.mask_type → r.q_seqlen.isSome ∧ r.kv_seqlen.isSome)
    (.valueError "Require q_seqlen and kv_seqlen to generate padding mask")
  checkWindow r.sliding_window_length
  let bias := r.bias.map atLeast4D
  let mask := r.mask.map atLeast4D
  checkLayout r.query r.key r.value bias r.q_seqlen r.kv_seqlen layout
  let q ← layout.unpack r.query.shape
  let k ← layout.unpack r.key.shape
  let bias ← fullOperand bias [q.B, q.N, q.T, k.T] r.query.dtype
  let mask ← fullOperand mask [q.B, q.N, q.T, k.T] .int8
  checkIsFlashAttention r.query r.key layout
  .ok { query := r.query, key := r.key, value := r.value, bias, mask,
        q_seqlen := r.q_seqlen.getD ⟨.int32, [0]⟩, kv_seqlen := r.kv_seqlen.getD ⟨.int32, [0]⟩,
        scale := r.scale, seed := r.seed, dropout_rate := r.dropout_rate,
        mask_type := r.mask_type, layout, sliding_window_length := r.sliding_window_length }

end JaxDas.CutlassFa
