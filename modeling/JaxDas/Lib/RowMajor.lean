import Mathlib.Tactic.Common
import Mathlib.Data.List.GetD
import Mathlib.Data.Nat.Notation

/-!
# Arrays in memory

Where the element with a given index lies in an array that is stored row by row, and in one whose
dimensions are stored in another order, given from the most minor one to the most major.
-/

namespace JaxDas

/-- The number of elements of an array. -/
def size : List ℕ → ℕ
  | [] => 1
  | d :: dims => d * size dims

/-- The offset of an element in an array stored row by row. -/
def rowMajor : List ℕ → List ℕ → ℕ
  | _ :: dims, i :: idx => i * size dims + rowMajor dims idx
  | _, _ => 0

/-- `xs[p[0]], xs[p[1]], ...` -/
def pick (perm xs : List ℕ) : List ℕ := perm.map fun k => xs.getD k 0

/-- The offset of an element in an array whose dimensions `minorToMajor` lists. -/
def layoutOffset (dims minorToMajor idx : List ℕ) : ℕ :=
  rowMajor (pick minorToMajor.reverse dims) (pick minorToMajor.reverse idx)

/-- The index in the operand of a transpose, from an index in its result, whose dimension `k` is the
operand's dimension `perm[k]`. -/
def transposeIndex (perm idx : List ℕ) : List ℕ :=
  (List.range perm.length).map fun k => idx.getD (perm.idxOf k) 0

/-- The default layout of an array is row by row. -/
theorem layoutOffset_default (dims idx : List ℕ) (h : idx.length = dims.length) :
    layoutOffset dims (List.range dims.length).reverse idx = rowMajor dims idx := by
  have hpick : ∀ xs : List ℕ, pick (List.range xs.length) xs = xs := by
    intro xs
    refine List.ext_getElem (by simp [pick]) fun k hk _ => ?_
    simp only [pick, List.getElem_map, List.getElem_range]
    exact List.getD_eq_getElem xs 0 (by simpa [pick] using hk)
  have hidx : pick (List.range dims.length) idx = idx := h ▸ hpick idx
  rw [layoutOffset, List.reverse_reverse, hpick dims, hidx]

end JaxDas
