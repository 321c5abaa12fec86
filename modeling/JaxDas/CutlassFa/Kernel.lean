import JaxDas.CutlassFa.Request
import Mathlib.Algebra.Order.Ring.Int

/-!
# How the kernel is called

The lowering of the primitive to a custom call, the descriptor it packs, and `cutlassFaFwd_` of
`cutlass_fa_kernel.cc`, which unpacks it and calls `mha_masked_fwd_bias`.
-/

namespace JaxDas.CutlassFa

/-- The largest `int`. -/
def intMax : ℤ := 2147483647

/-- How the `int` parameters of the extension modules take Python's integers. -/
def toInt (x : ℤ) : Except PyError ℤ :=
  if -intMax - 1 ≤ x ∧ x ≤ intMax then .ok x
  else .error (.typeError "incompatible function arguments")

/-- The product of two `int`s, which is not defined when it overflows. -/
def intMul (x y : ℤ) : Option ℤ :=
  if -intMax - 1 ≤ x * y ∧ x * y ≤ intMax then some (x * y) else none

structure Descriptor where
  batch : ℤ
  seq : ℤ
  head : ℤ
  dims : ℤ
  data_type : ℤ
  layout : ℤ
  workspace_size : ℤ
deriving DecidableEq, Repr

/-- The seven names of the primitive's operands and the two of the custom call's results. -/
inductive Buffer where
  | query
  | key
  | value
  | bias
  | mask
  | q_seqlen
  | kv_seqlen
  | output
  | workspace
deriving DecidableEq, Repr

structure CustomCall where
  operands : List Buffer
  results : List Buffer
  output_shape : List ℕ
  output_layout : List ℕ
  output_transpose_perm : List ℕ
  descriptor : Descriptor
deriving Repr

/-- What the plugin computes outside of this code: the size of the workspace. -/
structure Fa where
  workspaceSize : ℤ → ℤ → ℤ → ℤ → Except PyError ℕ

variable {P F : Type}

def requireCutlassFa : Option Fa → Except PyError Fa
  | some fa => .ok fa
  | none => .error (.runtimeError ("jax_rocm plugin does not provide cutlass_fa; rebuild and " ++
      "install jax-rocm plugin wheel with DTK flash attention support."))

def elementTypeToBackendConfigType : DType → Except PyError String
  | .bfloat16 => .ok "BF16"
  | .float16 => .ok "F16"
  | dtype => .error (.keyError (toString dtype))

/-- `AttentionLayout.value` -/
def AttentionLayout.value : AttentionLayout → ℤ
  | .BTNH => 0
  | .BNTH => 1

/-- `fa.compute_cutlass_workspace_reserve_space_sizes` -/
def computeWorkspace (fa : Fa) (B T N H : ℤ) : Except PyError ℕ := do
  let B ← toInt B
  let T ← toInt T
  let N ← toInt N
  let H ← toInt H
  fa.workspaceSize B T N H

/-- `fa.build_cutlass_fa_descriptor` -/
def buildDescriptor (batch seq head dims data_type layout workspace_size : ℤ) :
    Except PyError Descriptor := do
  let batch ← toInt batch
  let seq ← toInt seq
  let head ← toInt head
  let dims ← toInt dims
  let data_type ← toInt data_type
  let layout ← toInt layout
  let workspace_size ← toInt workspace_size
  .ok ⟨batch, seq, head, dims, data_type, layout, workspace_size⟩

/-- `_dot_product_attention_fwd_cuda_lowering` with `is_training` false. -/
def lowering (fa : Option Fa) (b : Bound P) : Except PyError CustomCall := do
  let ⟨B, N, T, H⟩ ← b.layout.unpack b.query.shape
  let ⟨_, _, S, _⟩ ← b.layout.unpack b.key.shape
  let fa ← requireCutlassFa fa
  require (T = S) (.valueError ("Cutlass flash attention currently requires query and key/value " ++
    s!"sequence lengths to match, got {T} and {S}."))
  let workspace_size ← computeWorkspace fa B T N H
  let element_type ← elementTypeToBackendConfigType b.query.dtype
  let descriptor ← buildDescriptor B T N H (if element_type = "BF16" then 0 else 1) b.layout.value
    workspace_size
  .ok { operands := [.query, .key, .value, .bias, .mask]
        results := [.output, .workspace]
        output_shape := [B, N, T, H]
        output_layout := if b.layout = .BNTH then [3, 2, 1, 0] else [3, 1, 2, 0]
        output_transpose_perm := if b.layout = .BNTH then [0, 1, 2, 3] else [0, 2, 1, 3]
        descriptor }

/-- The strides of batch, position, head and element of a head. -/
structure Strides where
  b : ℤ
  s : ℤ
  h : ℤ
  d : ℤ
deriving DecidableEq, Repr

/-- The strides of batch, head, position of the query and position of the key. -/
structure ScoreStrides where
  b : ℤ
  h : ℤ
  q : ℤ
  k : ℤ
deriving DecidableEq, Repr

/-- The arguments of `mha_masked_fwd_bias`, but for the stream; `F` are floats. A pointer is the
number of a buffer. -/
structure MhaArgs (F : Type) where
  cu_q : ℕ
  cu_k : ℕ
  cu_v : ℕ
  cu_out : ℕ
  cu_alibi_slopes : Option ℕ
  cu_bias : ℕ
  cu_mask : ℕ
  rng_state : Option ℕ
  workspace_ptr : ℕ
  batch_size : ℤ
  seqlen_q : ℤ
  seqlen_kv : ℤ
  num_heads_q : ℤ
  num_heads_kv : ℤ
  head_size_q : ℤ
  head_size_kv : ℤ
  q : Strides
  k : Strides
  v : Strides
  o : Strides
  a_stride_b : ℤ
  a_stride_h : ℤ
  bias : ScoreStrides
  mask : ScoreStrides
  p_dropout : F
  softmax_scale : F
  is_causal : Bool
  window_size_left : ℤ
  window_size_right : ℤ
  softcap : F
  return_softmax : Bool
  seed : ℤ
  is_bf16 : Bool
  is_bhsd : Bool
deriving Repr

/-- What the kernel and the request do with floating point numbers. -/
structure Floats (P F : Type) where
  /-- A Python float as a `float`. -/
  float : P → F
  /-- `0.0f` -/
  zero : F
  /-- `1.f / std::sqrt(float(d))` -/
  recipSqrt : ℤ → F

/-- `cutlassFaFwd_`, up to its one call, once the library is open. -/
def cutlassFaFwd (fl : Floats P F) (d : Descriptor) : Option (MhaArgs F) := do
  let sh ← intMul d.seq d.head
  let s_b ← intMul sh d.dims
  let s_s ← intMul d.head d.dims
  let s_h := d.dims
  let s_d := 1
  let hs ← intMul d.head d.seq
  let bias_s_b ← intMul hs d.seq
  let bias_s_h ← intMul d.seq d.seq
  let bias_s_q := d.seq
  let bias_s_k := 1
  let mask_s_b ← intMul hs d.seq
  let mask_s_h ← intMul d.seq d.seq
  let mask_s_q := d.seq
  let mask_s_k := 1
  some { cu_q := 0, cu_k := 1, cu_v := 2, cu_out := 5, cu_alibi_slopes := none, cu_bias := 3,
         cu_mask := 4, rng_state := none, workspace_ptr := 6
         batch_size := d.batch, seqlen_q := d.seq, seqlen_kv := d.seq
         num_heads_q := d.head, num_heads_kv := d.head
         head_size_q := d.dims, head_size_kv := d.dims
         q := ⟨s_b, s_s, s_h, s_d⟩, k := ⟨s_b, s_s, s_h, s_d⟩, v := ⟨s_b, s_s, s_h, s_d⟩
         o := ⟨s_b, s_s, s_h, s_d⟩
         a_stride_b := 1, a_stride_h := 1
         bias := ⟨bias_s_b, bias_s_h, bias_s_q, bias_s_k⟩
         mask := ⟨mask_s_b, mask_s_h, mask_s_q, mask_s_k⟩
         p_dropout := fl.zero, softmax_scale := fl.recipSqrt d.dims, is_causal := false
         window_size_left := -1, window_size_right := -1, softcap := fl.zero
         return_softmax := false, seed := 0, is_bf16 := true, is_bhsd := false }

/-- From the request to the custom call. -/
def callKernel (upper : String → String) (fa : Option Fa) (r : Request P) :
    Except PyError CustomCall := do
  let b ← dotProductAttention upper r
  lowering fa b

end JaxDas.CutlassFa
