import JaxDas.CutlassFa.Kernel
import JaxDas.MiopenMha.Calls
import Mathlib.Tactic.Linarith
import Mathlib.Tactic.Ring

/-!
# Strides and sizes of the attention kernels

All sizes are `int`, and their products are formed before they are widened to `std::size_t`. A
product that does not fit an `int` is not defined.
-/

namespace JaxDas.MiopenMha

open CutlassFa

/-- The dimensions and strides of a tensor, in the order batch, head, position, element. -/
structure TensorDims where
  dims : List ℤ
  strides : List ℤ
deriving DecidableEq, Repr

/-- The six tensors of the problem, of both functions. -/
def tensorDims (batch seq head dims : ℤ) : Option (Tensor → TensorDims) := do
  let hs ← intMul head seq
  let q_stride_b ← intMul hs dims
  let q_stride_s ← intMul head dims
  let bias_stride_b ← intMul hs seq
  let bias_stride_h ← intMul seq seq
  let qkvo : TensorDims := ⟨[batch, head, seq, dims], [q_stride_b, dims, q_stride_s, 1]⟩
  let scores : TensorDims := ⟨[batch, head, seq, seq], [bias_stride_b, bias_stride_h, seq, 1]⟩
  some fun
    | .q => qkvo
    | .k => qkvo
    | .v => qkvo
    | .paddingmask => scores
    | .bias => scores
    | .o => qkvo

/-- `workspace_size += (4 - workspace_size % 4) % 4` -/
def roundUp (workspace_size : UInt64) : UInt64 :=
  workspace_size + (4 - workspace_size % 4) % 4

/-- A `size_t` as an `int`. -/
def sizeToInt (n : UInt64) : ℤ :=
  let low : ℤ := n.toNat % 2 ^ 32
  if low < 2 ^ 31 then low else low - 2 ^ 32

/-- The result of the workspace query. -/
def workspaceSize (lib : Library) : Except Status ℤ :=
  match (workspaceQuery lib).2 with
  | .error e => .error e
  | .ok () => .ok (sizeToInt (roundUp lib.workspace_size))

/-! ## Exact products -/

/-- The strides are the products of the sizes, and the workspace has the size of the library,
rounded up to a multiple of four. -/
structure Exact {P F : Type} (fl : Floats P F) (d : Descriptor) (workspace_size : UInt64) :
    Prop where
  cutlass : ∃ a, cutlassFaFwd fl d = some a ∧
    (∀ s ∈ [a.q, a.k, a.v, a.o], s = ⟨d.seq * d.head * d.dims, d.head * d.dims, d.dims, 1⟩) ∧
    ∀ s ∈ [a.bias, a.mask], s = ⟨d.head * d.seq * d.seq, d.seq * d.seq, d.seq, 1⟩
  miopen : ∃ t, tensorDims d.batch d.seq d.head d.dims = some t ∧
    (∀ i ∈ [.q, .k, .v, .o],
      (t i).strides = [d.head * d.seq * d.dims, d.dims, d.head * d.dims, 1]) ∧
    ∀ i ∈ [.bias, .paddingmask],
      (t i).strides = [d.head * d.seq * d.seq, d.seq * d.seq, d.seq, 1]
  workspace : ∀ lib n, lib.workspace_size = workspace_size → workspaceSize lib = .ok n →
    n = ((workspace_size.toNat + 3) / 4 * 4 : ℕ)

theorem intMul_eq_some {x y z : ℤ} (hx : 0 < x) (hy : 0 < y) :
    intMul x y = some z ↔ x * y ≤ intMax ∧ z = x * y := by
  have hpos := Int.mul_pos hx hy
  have hmin : -intMax - 1 ≤ x * y := by
    rw [intMax]
    omega
  rw [intMul]
  constructor
  · intro h
    split at h
    · next hfits => exact ⟨hfits.2, (Option.some.inj h).symm⟩
    · cases h
  · rintro ⟨hmax, rfl⟩
    exact if_pos ⟨hmin, hmax⟩

theorem le_mul_of_pos {x y : ℤ} (hx : 0 < x) (hy : 0 < y) : x ≤ x * y ∧ y ≤ x * y :=
  ⟨by nlinarith, by nlinarith⟩

theorem sizeToInt_roundUp_iff (n : UInt64) :
    sizeToInt (roundUp n) = ((n.toNat + 3) / 4 * 4 : ℕ) ↔ n.toNat ≤ 2147483644 := by
  have hlt := n.toNat_lt
  have hround : (roundUp n).toNat = ((n.toNat + 3) / 4 * 4) % 2 ^ 64 := by
    have h4 : (4 : UInt64).toNat = 4 := rfl
    have hmod : n.toNat % 4 < 4 := Nat.mod_lt _ (by decide)
    simp only [roundUp, UInt64.toNat_add, UInt64.toNat_mod, UInt64.toNat_sub, h4]
    omega
  unfold sizeToInt
  rw [hround]
  dsimp only
  split <;> omega

section

variable {d : Descriptor} (hseq : 0 < d.seq) (hhead : 0 < d.head) (hdims : 0 < d.dims)

include hseq hhead hdims

theorem strides_fit {t : Tensor → TensorDims}
    (h : tensorDims d.batch d.seq d.head d.dims = some t) :
    d.head * d.seq * d.dims ≤ intMax ∧ d.head * d.seq * d.seq ≤ intMax := by
  obtain ⟨_, hhs, h⟩ := Option.bind_eq_some_iff.mp h
  obtain ⟨-, rfl⟩ := (intMul_eq_some hhead hseq).mp hhs
  obtain ⟨_, hb, h⟩ := Option.bind_eq_some_iff.mp h
  obtain ⟨hqkvo, -⟩ := (intMul_eq_some (Int.mul_pos hhead hseq) hdims).mp hb
  obtain ⟨_, -, h⟩ := Option.bind_eq_some_iff.mp h
  obtain ⟨_, hb, -⟩ := Option.bind_eq_some_iff.mp h
  exact ⟨hqkvo, ((intMul_eq_some (Int.mul_pos hhead hseq) hseq).mp hb).1⟩

/-- All products fit if the two largest do. -/
theorem products_fit (hqkvo : d.head * d.seq * d.dims ≤ intMax)
    (hscores : d.head * d.seq * d.seq ≤ intMax) :
    intMul d.head d.seq = some (d.head * d.seq) ∧ intMul d.seq d.head = some (d.seq * d.head) ∧
      intMul (d.head * d.seq) d.dims = some (d.head * d.seq * d.dims) ∧
      intMul (d.seq * d.head) d.dims = some (d.seq * d.head * d.dims) ∧
      intMul d.head d.dims = some (d.head * d.dims) ∧
      intMul (d.head * d.seq) d.seq = some (d.head * d.seq * d.seq) ∧
      intMul d.seq d.seq = some (d.seq * d.seq) := by
  have hhs := Int.mul_pos hhead hseq
  have hsh := Int.mul_pos hseq hhead
  have hpositions := (le_mul_of_pos hhs hdims).1
  have hrow := (le_mul_of_pos hseq (Int.mul_pos hhead hdims)).2
  have hsquare := (le_mul_of_pos hhead (Int.mul_pos hseq hseq)).2
  have hcomm : d.seq * d.head = d.head * d.seq := Int.mul_comm _ _
  have hassoc : d.seq * (d.head * d.dims) = d.head * d.seq * d.dims := by ring
  have hassoc' : d.head * (d.seq * d.seq) = d.head * d.seq * d.seq := by ring
  refine ⟨(intMul_eq_some hhead hseq).mpr ⟨?_, rfl⟩, (intMul_eq_some hseq hhead).mpr ⟨?_, rfl⟩,
    (intMul_eq_some hhs hdims).mpr ⟨hqkvo, rfl⟩, (intMul_eq_some hsh hdims).mpr ⟨?_, rfl⟩,
    (intMul_eq_some hhead hdims).mpr ⟨?_, rfl⟩, (intMul_eq_some hhs hseq).mpr ⟨hscores, rfl⟩,
    (intMul_eq_some hseq hseq).mpr ⟨?_, rfl⟩⟩
  · exact hpositions.trans hqkvo
  · exact hcomm ▸ hpositions.trans hqkvo
  · exact hcomm ▸ hqkvo
  · exact (hassoc ▸ hrow).trans hqkvo
  · exact (hassoc' ▸ hsquare).trans hscores

theorem exact_iff {P F : Type} (fl : Floats P F) (workspace_size : UInt64) :
    Exact fl d workspace_size ↔ d.head * d.seq * d.dims ≤ intMax ∧
      d.head * d.seq * d.seq ≤ intMax ∧ workspace_size.toNat ≤ 2147483644 := by
  constructor
  · intro h
    obtain ⟨t, ht, -⟩ := h.miopen
    obtain ⟨hqkvo, hscores⟩ := strides_fit hseq hhead hdims ht
    have hsize := h.workspace { noFailure with workspace_size } _ rfl rfl
    exact ⟨hqkvo, hscores, (sizeToInt_roundUp_iff _).mp hsize⟩
  · rintro ⟨hqkvo, hscores, hsize⟩
    obtain ⟨hhs, hsh, hqb, hqb', hrow, hsb, hsquare⟩ :=
      products_fit hseq hhead hdims hqkvo hscores
    refine ⟨?_, ?_, ?_⟩
    · simp only [cutlassFaFwd, hhs, hsh, hqb', hrow, hsb, hsquare, Option.bind_eq_bind,
        Option.bind_some]
      exact ⟨_, rfl, by simp, by simp⟩
    · simp only [tensorDims, hhs, hqb, hrow, hsb, hsquare, Option.bind_eq_bind, Option.bind_some]
      exact ⟨_, rfl, by simp, by simp⟩
    · intro lib n hlib hn
      unfold workspaceSize at hn
      split at hn
      · cases hn
      · rw [← Except.ok.inj hn, hlib]
        exact (sizeToInt_roundUp_iff _).mpr hsize

end

/-- One head of a sequence of 46340 positions is the longest whose scores can be addressed. -/
theorem exact_long :
    Exact (⟨id, (), fun _ => ()⟩ : Floats Unit Unit) ⟨1, 46340, 1, 128, 0, 0, 0⟩ 1000 ↔
      (1 * 46340 * 128 : ℤ) ≤ intMax ∧ (1 * 46340 * 46340 : ℤ) ≤ intMax ∧
        (1000 : UInt64).toNat ≤ 2147483644 :=
  exact_iff (by decide) (by decide) (by decide) _ _

theorem not_exact_longer :
    ¬ Exact (⟨id, (), fun _ => ()⟩ : Floats Unit Unit) ⟨1, 46341, 1, 128, 0, 0, 0⟩ 1000 := by
  intro h
  obtain ⟨t, ht, -⟩ := h.miopen
  obtain ⟨-, hscores⟩ := strides_fit (by decide) (by decide) (by decide) ht
  exact absurd hscores (by decide)

end JaxDas.MiopenMha
