import JaxDas.CutlassFa.Kernel
import Mathlib.Algebra.Order.Field.Rat
import Mathlib.Data.Nat.Sqrt
import Mathlib.Data.Rat.Defs
import Mathlib.Tactic.NormNum
import Mathlib.Tactic.Ring

/-!
# Which requests the kernel's arguments describe

The front end accepts two element types, two layouts, any scale, five kinds of masks, dropout, a
window and any number of heads of the keys. The call has one of each: what is asked for is dropped
on the way, not refused.
-/

namespace JaxDas.CutlassFa

variable {P F : Type}

def Strides.offset (s : Strides) (b t n h : ℕ) : ℤ := b * s.b + t * s.s + n * s.h + h * s.d

def ScoreStrides.offset (s : ScoreStrides) (b n t k : ℕ) : ℤ :=
  b * s.b + n * s.h + t * s.q + k * s.k

/-- Where the element of a head is in an array of this layout. -/
def AttentionLayout.index : AttentionLayout → ℕ → ℕ → ℕ → ℕ → List ℕ
  | .BTNH, b, t, n, h => [b, t, n, h]
  | .BNTH, b, t, n, h => [b, n, t, h]

def AttentionLayout.shape : AttentionLayout → Dims → List ℕ
  | .BTNH, d => [d.B, d.T, d.N, d.H]
  | .BNTH, d => [d.B, d.N, d.T, d.H]

/-- The strides lead to every element of an operand. -/
def Addresses (layout : AttentionLayout) (d : Dims) (s : Strides) : Prop :=
  ∀ b < d.B, ∀ t < d.T, ∀ n < d.N, ∀ h < d.H,
    s.offset b t n h = rowMajor (layout.shape d) (layout.index b t n h)

/-- They do so for a bias or a mask. -/
def ScoreAddresses (B N T S : ℕ) (s : ScoreStrides) : Prop :=
  ∀ b < B, ∀ n < N, ∀ t < T, ∀ k < S,
    s.offset b n t k = rowMajor [B, N, T, S] [b, n, t, k]

def CustomCall.buffers (call : CustomCall) : List Buffer := call.operands ++ call.results

def isCausal (mask_type : MaskType) : Bool :=
  mask_type = .CAUSAL ∨ mask_type = .PADDING_CAUSAL

/-- The positions that a window lets a query see, to its left and to its right; `-1` is no limit. -/
def window : Option ℤ → ℤ × ℤ
  | none => (-1, -1)
  | some w => (w - 1, 0)

/-- The layout of a request and the dimensions of its query, key and value. -/
structure Request.Reads (r : Request P) (upper : String → String) (layout : AttentionLayout)
    (q k v : Dims) : Prop where
  normalized : normalizeLayout upper r.qkv_layout = .ok layout
  query : layout.unpack r.query.shape = .ok q
  key : layout.unpack r.key.shape = .ok k
  value : layout.unpack r.value.shape = .ok v

/-- The kernel's arguments ask for the attention that the request asks for. -/
structure Describes (fl : Floats P F) (r : Request P) (layout : AttentionLayout) (q k v : Dims)
    (call : CustomCall) (args : MhaArgs F) : Prop where
  pointers : [args.cu_q, args.cu_k, args.cu_v, args.cu_bias, args.cu_mask, args.cu_out,
    args.workspace_ptr].map (call.buffers[·]?) =
      [some .query, some .key, some .value, some .bias, some .mask, some .output, some .workspace]
  sizes : args.batch_size = q.B ∧ args.seqlen_q = q.T ∧ args.seqlen_kv = k.T ∧
    args.num_heads_q = q.N ∧ args.num_heads_kv = k.N ∧ args.head_size_q = q.H ∧
    args.head_size_kv = k.H
  query : Addresses layout q args.q
  key : Addresses layout k args.k
  value : Addresses layout v args.v
  bias : ScoreAddresses q.B q.N q.T k.T args.bias
  mask : ScoreAddresses q.B q.N q.T k.T args.mask
  /-- The transposed result has its element where the kernel wrote it. -/
  output : ∀ b < q.B, ∀ t < q.T, ∀ n < q.N, ∀ h < q.H, args.o.offset b t n h =
    layoutOffset call.output_shape call.output_layout
      (transposeIndex call.output_transpose_perm (layout.index b t n h))
  elementType : args.is_bf16 = decide (r.query.dtype = .bfloat16)
  scale : args.softmax_scale = fl.float r.scale
  dropout : args.p_dropout = fl.float r.dropout_rate
  causal : args.is_causal = isCausal r.mask_type
  /-- No argument has the lengths of the sequences. -/
  padding : hasPadding r.mask_type = false
  alibi : args.cu_alibi_slopes.isSome = decide (r.mask_type = .ALIBI)
  window : (args.window_size_left, args.window_size_right) = window r.sliding_window_length

/-- The products that the kernel's strides are made of are `int`s. -/
structure NoOverflow (q : Dims) : Prop where
  positions : (q.T * q.N : ℕ) ≤ intMax
  batches : (q.T * q.N * q.H : ℕ) ≤ intMax
  heads : (q.N * q.H : ℕ) ≤ intMax
  rows : (q.N * q.T : ℕ) ≤ intMax
  scores : (q.N * q.T * q.T : ℕ) ≤ intMax
  squares : (q.T * q.T : ℕ) ≤ intMax

/-- The one request that the call is written for. -/
structure Honoured (fl : Floats P F) (r : Request P) (layout : AttentionLayout) (q k : Dims) :
    Prop where
  elementType : r.query.dtype = .bfloat16
  scale : fl.float r.scale = fl.recipSqrt q.H
  dropout : fl.float r.dropout_rate = fl.zero
  maskType : r.mask_type = .NO_MASK
  noWindow : r.sliding_window_length = none
  heads : k.N = q.N
  /-- Or the two layouts are the same, or there is nothing in it. -/
  order : layout = .BTNH ∨ q.B = 0 ∨ q.N ≤ 1 ∨ q.T ≤ 1 ∨ q.H = 0
  noOverflow : NoOverflow q

/-! ## What acceptance says -/

theorem require_ok {c : Prop} [Decidable c] {e : PyError} {u : Unit}
    (h : require c e = .ok u) : c := by
  unfold require at h
  split at h
  · assumption
  · exact nomatch h

theorem unpack_shape {layout : AttentionLayout} {shape : List ℕ} {d : Dims}
    (h : layout.unpack shape = .ok d) : shape = layout.shape d := by
  cases layout with
  | BTNH =>
      obtain ⟨⟨B, T, N, H⟩, h4, hd⟩ := bind_ok.mp h
      unfold unpack4 at h4
      split at h4
      · injection h4 with h4; injection hd with hd
        cases h4; cases hd; rfl
      · split at h4 <;> exact nomatch h4
  | BNTH =>
      obtain ⟨⟨B, N, T, H⟩, h4, hd⟩ := bind_ok.mp h
      unfold unpack4 at h4
      split at h4
      · injection h4 with h4; injection hd with hd
        cases h4; cases hd; rfl
      · split at h4 <;> exact nomatch h4

theorem toInt_ok {x y : ℤ} (h : toInt x = .ok y) : y = x ∧ x ≤ intMax := by
  unfold toInt at h
  split at h
  · injection h with h
    exact ⟨h.symm, by omega⟩
  · exact nomatch h

/-- The key and the value have one shape, the batch and the size of a head of the query. -/
theorem checkLayout_ok {query key value : Arr} {bias q_seqlen kv_seqlen : Option Arr}
    {layout : AttentionLayout} {u : Unit} {q k v : Dims}
    (h : checkLayout query key value bias q_seqlen kv_seqlen layout = .ok u)
    (hq : layout.unpack query.shape = .ok q) (hk : layout.unpack key.shape = .ok k)
    (hv : layout.unpack value.shape = .ok v) : k.B = q.B ∧ k.H = q.H ∧ k = v := by
  obtain ⟨_, _, h⟩ := bind_ok.mp h
  obtain ⟨_, _, h⟩ := bind_ok.mp h
  obtain ⟨_, _, h⟩ := bind_ok.mp h
  obtain ⟨_, _, h⟩ := bind_ok.mp h
  rw [hq, hk, hv, ok_bind, ok_bind, ok_bind] at h
  obtain ⟨_, hB, h⟩ := bind_ok.mp h
  obtain ⟨_, hH, h⟩ := bind_ok.mp h
  obtain ⟨_, hN, h⟩ := bind_ok.mp h
  obtain ⟨_, hS, -⟩ := bind_ok.mp h
  have hB := require_ok hB
  have hH := require_ok hH
  have hN := require_ok hN
  have hS := require_ok hS
  refine ⟨hB.1.symm, hH.1.symm, ?_⟩
  cases k; cases v
  simp only [Dims.mk.injEq]
  exact ⟨hB.2, hN, hS, hH.2⟩

/-- The request is handed on as it is. -/
theorem dotProductAttention_ok {upper : String → String} {r : Request P} {b : Bound P}
    {layout : AttentionLayout} {q k v : Dims} (hr : r.Reads upper layout q k v)
    (h : dotProductAttention upper r = .ok b) :
    (b.query = r.query ∧ b.key = r.key ∧ b.layout = layout) ∧ k.B = q.B ∧ k.H = q.H ∧ k = v := by
  rw [dotProductAttention, hr.normalized, ok_bind] at h
  obtain ⟨_, _, h⟩ := bind_ok.mp h
  obtain ⟨_, _, h⟩ := bind_ok.mp h
  obtain ⟨_, hcheck, h⟩ := bind_ok.mp h
  obtain ⟨_, _, h⟩ := bind_ok.mp h
  obtain ⟨_, _, h⟩ := bind_ok.mp h
  obtain ⟨_, _, h⟩ := bind_ok.mp h
  obtain ⟨_, _, h⟩ := bind_ok.mp h
  obtain ⟨_, _, h⟩ := bind_ok.mp h
  injection h with h
  exact ⟨h ▸ ⟨rfl, rfl, rfl⟩, checkLayout_ok hcheck hr.query hr.key hr.value⟩

/-- The custom call of an accepted request. -/
def callOf (layout : AttentionLayout) (q : Dims) (data_type workspace_size : ℤ) : CustomCall where
  operands := [.query, .key, .value, .bias, .mask]
  results := [.output, .workspace]
  output_shape := [q.B, q.N, q.T, q.H]
  output_layout := if layout = .BNTH then [3, 2, 1, 0] else [3, 1, 2, 0]
  output_transpose_perm := if layout = .BNTH then [0, 1, 2, 3] else [0, 2, 1, 3]
  descriptor := ⟨q.B, q.T, q.N, q.H, data_type, layout.value, workspace_size⟩

/-- Besides: the positions of the query are as many as those of the key. -/
theorem lowering_ok {fa : Option Fa} {b : Bound P} {call : CustomCall} {q k : Dims}
    (h : lowering fa b = .ok call) (hq : b.layout.unpack b.query.shape = .ok q)
    (hk : b.layout.unpack b.key.shape = .ok k) :
    k.T = q.T ∧ ∃ data_type workspace_size,
      call = callOf b.layout q data_type workspace_size := by
  cases q
  cases k
  simp only [lowering, hq, hk, ok_bind] at h
  obtain ⟨_, _, h⟩ := bind_ok.mp h
  obtain ⟨_, hT, h⟩ := bind_ok.mp h
  obtain ⟨_, _, h⟩ := bind_ok.mp h
  obtain ⟨_, _, h⟩ := bind_ok.mp h
  obtain ⟨d, hd, h⟩ := bind_ok.mp h
  obtain ⟨_, hbatch, hd⟩ := bind_ok.mp hd
  obtain ⟨_, hseq, hd⟩ := bind_ok.mp hd
  obtain ⟨_, hhead, hd⟩ := bind_ok.mp hd
  obtain ⟨_, hdims, hd⟩ := bind_ok.mp hd
  obtain ⟨data_type, _, hd⟩ := bind_ok.mp hd
  obtain ⟨_, hlayout, hd⟩ := bind_ok.mp hd
  obtain ⟨workspace_size, _, hd⟩ := bind_ok.mp hd
  injection hd with hd
  injection h with h
  rw [(toInt_ok hbatch).1, (toInt_ok hseq).1, (toInt_ok hhead).1, (toInt_ok hdims).1,
    (toInt_ok hlayout).1] at hd
  refine ⟨(require_ok hT).symm, data_type, workspace_size, ?_⟩
  rw [← h, ← hd]
  rfl

/-! ## What the kernel is given -/

theorem intMul_natCast {x y : ℕ} {z : ℤ} :
    intMul x y = some z ↔ ((x * y : ℕ) : ℤ) ≤ intMax ∧ z = (x * y : ℕ) := by
  have hle : -intMax - 1 ≤ ((x * y : ℕ) : ℤ) := by unfold intMax; omega
  simp only [intMul, ← Nat.cast_mul, hle, true_and]
  constructor
  · intro h
    split at h
    · injection h with h
      exact ⟨‹_›, h.symm⟩
    · exact nomatch h
  · rintro ⟨hxy, rfl⟩
    exact if_pos hxy

/-- The strides of an operand, as the kernel takes them. -/
def stridesOf (q : Dims) : Strides :=
  ⟨(q.T * q.N * q.H : ℕ), (q.N * q.H : ℕ), q.H, 1⟩

def scoreStridesOf (q : Dims) : ScoreStrides :=
  ⟨(q.N * q.T * q.T : ℕ), (q.T * q.T : ℕ), q.T, 1⟩

/-- The arguments depend on the dimensions of the query alone. -/
def argsOf (fl : Floats P F) (q : Dims) : MhaArgs F where
  cu_q := 0
  cu_k := 1
  cu_v := 2
  cu_out := 5
  cu_alibi_slopes := none
  cu_bias := 3
  cu_mask := 4
  rng_state := none
  workspace_ptr := 6
  batch_size := q.B
  seqlen_q := q.T
  seqlen_kv := q.T
  num_heads_q := q.N
  num_heads_kv := q.N
  head_size_q := q.H
  head_size_kv := q.H
  q := stridesOf q
  k := stridesOf q
  v := stridesOf q
  o := stridesOf q
  a_stride_b := 1
  a_stride_h := 1
  bias := scoreStridesOf q
  mask := scoreStridesOf q
  p_dropout := fl.zero
  softmax_scale := fl.recipSqrt q.H
  is_causal := false
  window_size_left := -1
  window_size_right := -1
  softcap := fl.zero
  return_softmax := false
  seed := 0
  is_bf16 := true
  is_bhsd := false

theorem cutlassFaFwd_eq (fl : Floats P F) (layout : AttentionLayout) (q : Dims)
    (data_type workspace_size : ℤ) (args : MhaArgs F) :
    cutlassFaFwd fl (callOf layout q data_type workspace_size).descriptor = some args ↔
      NoOverflow q ∧ args = argsOf fl q := by
  constructor
  · intro h
    obtain ⟨_, hsh, h⟩ := Option.bind_eq_some_iff.mp h
    obtain ⟨hpos, rfl⟩ := intMul_natCast.mp hsh
    obtain ⟨_, hb, h⟩ := Option.bind_eq_some_iff.mp h
    obtain ⟨hbatch, rfl⟩ := intMul_natCast.mp hb
    obtain ⟨_, hs, h⟩ := Option.bind_eq_some_iff.mp h
    obtain ⟨hhead, rfl⟩ := intMul_natCast.mp hs
    obtain ⟨_, hr, h⟩ := Option.bind_eq_some_iff.mp h
    obtain ⟨hrow, rfl⟩ := intMul_natCast.mp hr
    obtain ⟨_, hscore, h⟩ := Option.bind_eq_some_iff.mp h
    obtain ⟨hscores, rfl⟩ := intMul_natCast.mp hscore
    obtain ⟨_, hsq, h⟩ := Option.bind_eq_some_iff.mp h
    obtain ⟨hsquare, rfl⟩ := intMul_natCast.mp hsq
    obtain ⟨_, hscore', h⟩ := Option.bind_eq_some_iff.mp h
    obtain ⟨-, rfl⟩ := intMul_natCast.mp hscore'
    obtain ⟨_, hsq', h⟩ := Option.bind_eq_some_iff.mp h
    obtain ⟨-, rfl⟩ := intMul_natCast.mp hsq'
    injection h with h
    exact ⟨⟨hpos, hbatch, hhead, hrow, hscores, hsquare⟩, h.symm⟩
  · rintro ⟨hno, rfl⟩
    have hsh := intMul_natCast.mpr ⟨hno.positions, rfl⟩
    have hb := intMul_natCast.mpr ⟨hno.batches, rfl⟩
    have hs := intMul_natCast.mpr ⟨hno.heads, rfl⟩
    have hr := intMul_natCast.mpr ⟨hno.rows, rfl⟩
    have hscore := intMul_natCast.mpr ⟨hno.scores, rfl⟩
    have hsq := intMul_natCast.mpr ⟨hno.squares, rfl⟩
    simp only [cutlassFaFwd, callOf, hsh, hb, hs, hr, hscore, hsq, Option.bind_eq_bind,
      Option.bind_some]
    rfl

/-! ## Where the strides lead -/

/-- The strides are those of positions before heads. -/
theorem addresses_BTNH (q : Dims) : Addresses .BTNH q (stridesOf q) := by
  intro b _ t _ n _ h _
  simp only [Strides.offset, stridesOf, AttentionLayout.shape, AttentionLayout.index, rowMajor, size]
  push_cast
  ring

/-- With heads before positions they lead to the right element when the order does not matter. -/
theorem addresses_BNTH_iff (q : Dims) :
    Addresses .BNTH q (stridesOf q) ↔ q.B = 0 ∨ q.N ≤ 1 ∨ q.T ≤ 1 ∨ q.H = 0 := by
  have hoffset : ∀ b t n h : ℕ, (stridesOf q).offset b t n h =
      ((b * q.T * q.N * q.H + (t * q.N + n) * q.H + h : ℕ) : ℤ) := by
    intro b t n h
    simp only [Strides.offset, stridesOf]
    push_cast
    ring
  have hrow : ∀ b t n h : ℕ, rowMajor (AttentionLayout.BNTH.shape q)
      (AttentionLayout.BNTH.index b t n h) = b * q.T * q.N * q.H + (n * q.T + t) * q.H + h := by
    intro b t n h
    simp only [AttentionLayout.shape, AttentionLayout.index, rowMajor, size]
    ring
  constructor
  · intro haddr
    by_contra hne
    simp only [not_or, not_le] at hne
    obtain ⟨hB, hN, hT, hH⟩ := hne
    have hH' : 0 < q.H := by omega
    -- the second position of the first head
    have h := haddr 0 (by omega) 1 hT 0 (by omega) 0 (by omega)
    rw [hoffset, hrow] at h
    have h : q.N * q.H = 1 * q.H := by
      have h := Int.ofNat.inj h
      simpa using h
    have := Nat.eq_of_mul_eq_mul_right hH' h
    omega
  · intro h b hb t ht n hn h' hh
    rw [hoffset, hrow]
    have horder : t * q.N + n = n * q.T + t := by
      rcases h with h | h | h | h
      · omega
      · obtain rfl : n = 0 := by omega
        obtain hN : q.N = 1 := by omega
        rw [hN]; omega
      · obtain rfl : t = 0 := by omega
        obtain hT : q.T = 1 := by omega
        rw [hT]; omega
      · omega
    rw [horder]

theorem addresses_iff (layout : AttentionLayout) (q : Dims) :
    Addresses layout q (stridesOf q) ↔
      layout = .BTNH ∨ q.B = 0 ∨ q.N ≤ 1 ∨ q.T ≤ 1 ∨ q.H = 0 := by
  cases layout with
  | BTNH => exact iff_of_true (addresses_BTNH q) (.inl rfl)
  | BNTH => exact (addresses_BNTH_iff q).trans (by simp)

theorem scoreAddresses (q : Dims) : ScoreAddresses q.B q.N q.T q.T (scoreStridesOf q) := by
  intro b _ n _ t _ k _
  simp only [ScoreStrides.offset, scoreStridesOf, rowMajor, size]
  push_cast
  ring

/-- The result is stored as the query is. -/
theorem layoutOffset_output (layout : AttentionLayout) (q : Dims) (data_type workspace_size : ℤ)
    (b t n h : ℕ) :
    let call := callOf layout q data_type workspace_size
    layoutOffset call.output_shape call.output_layout
        (transposeIndex call.output_transpose_perm (layout.index b t n h)) =
      rowMajor (layout.shape q) (layout.index b t n h) := by
  cases layout <;> rfl

/-! ## The requests that are honoured -/

/-- Of the requests that are accepted, the arguments of the kernel describe these. -/
theorem kernel_describes_iff (upper : String → String) (fa : Option Fa) (fl : Floats P F)
    (r : Request P) (layout : AttentionLayout) (q k v : Dims) (call : CustomCall)
    (hr : r.Reads upper layout q k v) (h : callKernel upper fa r = .ok call) :
    (∃ args, cutlassFaFwd fl call.descriptor = some args ∧
      Describes fl r layout q k v call args) ↔ Honoured fl r layout q k := by
  obtain ⟨b, hb, hl⟩ := bind_ok.mp h
  obtain ⟨⟨hbq, hbk, rfl⟩, hB, hH, rfl⟩ := dotProductAttention_ok hr hb
  obtain ⟨hT, data_type, workspace_size, rfl⟩ :=
    lowering_ok hl (hbq ▸ hr.query) (hbk ▸ hr.key)
  constructor
  · rintro ⟨args, hargs, hd⟩
    obtain ⟨hno, rfl⟩ := (cutlassFaFwd_eq fl _ q _ _ args).mp hargs
    have hmask : r.mask_type = .NO_MASK := by
      have hc := hd.causal
      have hp := hd.padding
      have ha := hd.alibi
      cases hm : r.mask_type <;> simp [hm, argsOf, isCausal, hasPadding] at hc hp ha ⊢
    have hwindow : r.sliding_window_length = none := by
      have hw := hd.window
      cases hs : r.sliding_window_length with
      | none => rfl
      | some w => simp [hs, argsOf, window] at hw
    exact {
      elementType := (decide_eq_true_iff.mp hd.elementType.symm)
      scale := hd.scale.symm
      dropout := hd.dropout.symm
      maskType := hmask
      noWindow := hwindow
      heads := by have := hd.sizes.2.2.2.2.1; simp only [argsOf] at this; omega
      order := (addresses_iff _ q).mp hd.query
      noOverflow := hno }
  · intro hh
    refine ⟨argsOf fl q, (cutlassFaFwd_eq fl _ q _ _ _).mpr ⟨hh.noOverflow, rfl⟩, ?_⟩
    obtain rfl : k = q := by
      cases k; cases q
      have := hh.heads
      simp_all
    have haddr := (addresses_iff b.layout k).mpr hh.order
    exact {
      pointers := rfl
      sizes := ⟨rfl, rfl, rfl, rfl, rfl, rfl, rfl⟩
      query := haddr
      key := haddr
      value := haddr
      bias := scoreAddresses k
      mask := scoreAddresses k
      output := fun i hi t ht n hn h hh => by
        rw [layoutOffset_output]
        exact haddr i hi t ht n hn h hh
      elementType := (decide_eq_true hh.elementType).symm
      scale := hh.scale.symm
      dropout := hh.dropout.symm
      causal := by rw [hh.maskType]; rfl
      padding := by rw [hh.maskType]; rfl
      alibi := by rw [hh.maskType]; rfl
      window := by rw [hh.noWindow]; rfl }

/-- Fractions for floats, with the roots of square numbers. -/
def exactFloats : Floats ℚ ℚ := ⟨id, 0, fun d => 1 / (Nat.sqrt d.toNat : ℚ)⟩

theorem recipSqrt_64 : exactFloats.recipSqrt 64 = 1 / 8 := by
  have h : Nat.sqrt 64 = 8 := Nat.sqrt_eq 8
  change 1 / ((Nat.sqrt 64 : ℕ) : ℚ) = 1 / 8
  rw [h]
  norm_num

def smallDims : Dims := ⟨1, 1, 2, 64⟩

/-- Two positions, one head. -/
def smallRequest (mask_type : MaskType) : Request ℚ where
  query := ⟨.bfloat16, [1, 2, 1, 64]⟩
  key := ⟨.bfloat16, [1, 2, 1, 64]⟩
  value := ⟨.bfloat16, [1, 2, 1, 64]⟩
  bias := none
  mask := none
  q_seqlen := none
  kv_seqlen := none
  scale := 1 / 8
  mask_type
  seed := 42
  dropout_rate := 0
  qkv_layout := "BTNH"
  sliding_window_length := none

def plugin : Fa := ⟨fun _ _ _ _ => .ok 0⟩

theorem kernel_describes_small :
    ∃ args, cutlassFaFwd exactFloats (callOf .BTNH smallDims 0 0).descriptor = some args ∧
      Describes exactFloats (smallRequest .NO_MASK) .BTNH smallDims smallDims smallDims
        (callOf .BTNH smallDims 0 0) args :=
  (kernel_describes_iff id (some plugin) exactFloats (smallRequest .NO_MASK) .BTNH smallDims
    smallDims smallDims _ ⟨rfl, rfl, rfl, rfl⟩ rfl).mpr {
      elementType := rfl
      scale := recipSqrt_64.symm
      dropout := rfl
      maskType := rfl
      noWindow := rfl
      heads := rfl
      order := .inl rfl
      noOverflow := ⟨by decide, by decide, by decide, by decide, by decide, by decide⟩ }

/-- A causal mask is accepted and dropped. -/
theorem causal_dropped :
    callKernel id (some plugin) (smallRequest .CAUSAL) = .ok (callOf .BTNH smallDims 0 0) ∧
      ¬ ∃ args, cutlassFaFwd exactFloats (callOf .BTNH smallDims 0 0).descriptor = some args ∧
        Describes exactFloats (smallRequest .CAUSAL) .BTNH smallDims smallDims smallDims
          (callOf .BTNH smallDims 0 0) args := by
  refine ⟨rfl, ?_⟩
  rintro ⟨args, hargs, hd⟩
  obtain ⟨-, rfl⟩ := (cutlassFaFwd_eq exactFloats _ smallDims _ _ args).mp hargs
  exact absurd hd.causal (by decide)

end JaxDas.CutlassFa
