import JaxDas.Lib.BasicIndexing
import Mathlib.Algebra.BigOperators.Group.Finset.Basic
import Mathlib.Algebra.BigOperators.Intervals
import Mathlib.Algebra.Ring.Basic
import Mathlib.Tactic.Ring

/-!
# Pairings of arrays

Arrays over a commutative ring are vectors: they are added and paired element by element, and lists
of arrays are paired one by one. The pairing of stacked arrays is the sum over their parts.
-/

namespace JaxDas

open Finset

variable {R : Type} [CommRing R]

namespace NdArray

/-- The element at an index, or 0 outside of the array. -/
def entry (x : NdArray R) (idx : List ℕ) : R := (x.get? idx).getD 0

def dot (x y : NdArray R) : R := ((multiIndices x.shape).map fun i => x.entry i * y.entry i).sum

def zeros (shape : List ℕ) : NdArray R := ofFn shape fun _ => 0

def add (x y : NdArray R) : NdArray R := ofFn x.shape fun i => x.entry i + y.entry i

theorem entry_ofFn {shape idx : List ℕ} (f : List ℕ → R) (h : Within shape idx) :
    (ofFn shape f).entry idx = f idx := by rw [entry, ofFn_get? f h, Option.getD_some]

theorem dot_zeros (shape : List ℕ) (y : NdArray R) : dot (zeros shape) y = 0 := by
  refine List.sum_eq_zero fun a ha => ?_
  obtain ⟨i, hi, rfl⟩ := List.mem_map.mp ha
  have hentry : (zeros shape : NdArray R).entry i = 0 := entry_ofFn _ (mem_multiIndices.mp hi)
  rw [hentry, zero_mul]

theorem dot_add {x x' : NdArray R} (h : x.shape = x'.shape) (y : NdArray R) :
    dot (add x x') y = dot x y + dot x' y := by
  have hshape : (add x x').shape = x.shape := rfl
  rw [dot, dot, dot, hshape, ← h, ← List.sum_map_add]
  refine congrArg List.sum (List.map_congr_left fun i hi => ?_)
  rw [add, entry_ofFn _ (mem_multiIndices.mp hi), add_mul]

theorem entry_slice {x : NdArray R} {n b : ℕ} {shape : List ℕ} (hx : x.shape = n :: shape) (hb : b < n)
    (idx : List ℕ) : (x.slice 0 b).entry idx = x.entry (b :: idx) := by
  have h : (x.slice 0 b).get? idx = x.get? (b :: idx) :=
    slice_get? (k := 0) hx (Nat.zero_le _) hb idx
  rw [entry, h, entry]

theorem sum_map_flatMap {A : Type} (g : ℕ → List A) (f : A → R) : ∀ n : ℕ,
    (((List.range n).flatMap g).map f).sum = ∑ i ∈ range n, ((g i).map f).sum
  | 0 => rfl
  | n + 1 => by
      rw [List.range_succ, List.flatMap_append, List.map_append, List.sum_append,
        sum_map_flatMap g f n, sum_range_succ, List.flatMap_singleton]

theorem dot_slices {x y : NdArray R} {n : ℕ} {shape : List ℕ} (hx : x.shape = n :: shape)
    (hy : y.shape = n :: shape) : dot x y = ∑ i ∈ range n, dot (x.slice 0 i) (y.slice 0 i) := by
  have hindices : multiIndices (n :: shape) =
      (List.range n).flatMap fun i => (multiIndices shape).map (i :: ·) := rfl
  rw [dot, hx, hindices, sum_map_flatMap]
  refine sum_congr rfl fun i hi => ?_
  have hi := mem_range.mp hi
  have hshape : (x.slice 0 i).shape = shape := slice_shape (k := 0) hx (Nat.zero_le _) hi
  rw [dot, hshape, List.map_map]
  refine congrArg List.sum (List.map_congr_left fun idx _ => ?_)
  rw [Function.comp_apply, entry_slice hx hi, entry_slice hy hi]

end NdArray

/-- The sum of the pairings of the arrays of two lists. -/
def dotAll (xs ys : List (NdArray R)) : R := (List.zipWith NdArray.dot xs ys).sum

@[simp] theorem dotAll_nil (ys : List (NdArray R)) : dotAll [] ys = 0 := rfl

theorem dotAll_cons (x y : NdArray R) (xs ys : List (NdArray R)) :
    dotAll (x :: xs) (y :: ys) = x.dot y + dotAll xs ys := List.sum_cons

theorem dotAll_append : ∀ {xs ys : List (NdArray R)} (xs' ys' : List (NdArray R)),
    xs.length = ys.length → dotAll (xs ++ xs') (ys ++ ys') = dotAll xs ys + dotAll xs' ys'
  | [], [], xs', ys', _ => by rw [dotAll_nil, zero_add]; rfl
  | x :: xs, y :: ys, xs', ys', h => by
      rw [List.cons_append, List.cons_append, dotAll_cons, dotAll_cons,
        dotAll_append xs' ys' (Nat.succ.inj h), add_assoc]

theorem dotAll_zeros : ∀ (avals : List (List ℕ)) (ys : List (NdArray R)),
    dotAll (avals.map NdArray.zeros) ys = 0
  | [], _ => rfl
  | _ :: _, [] => rfl
  | aval :: avals, y :: ys => by
      rw [List.map_cons, dotAll_cons, NdArray.dot_zeros, dotAll_zeros avals ys, zero_add]

theorem dotAll_add : ∀ {xs xs' : List (NdArray R)} (ys : List (NdArray R)),
    xs.map NdArray.shape = xs'.map NdArray.shape →
    dotAll (List.zipWith NdArray.add xs xs') ys = dotAll xs ys + dotAll xs' ys
  | [], [], ys, _ => by rw [dotAll_nil, zero_add]; rfl
  | x :: xs, x' :: xs', [], _ => by simp [dotAll]
  | x :: xs, x' :: xs', y :: ys, h => by
      rw [List.map_cons, List.map_cons, List.cons.injEq] at h
      rw [List.zipWith_cons_cons, dotAll_cons, dotAll_cons, dotAll_cons, NdArray.dot_add h.1,
        dotAll_add ys h.2]
      ring

end JaxDas
