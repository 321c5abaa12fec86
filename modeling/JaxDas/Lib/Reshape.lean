import JaxDas.Lib.NdArray
import Mathlib.Data.List.Nodup

/-!
# Reshaping and transposing arrays

A reshape keeps the row-major number of every element. A transpose names the dimensions of the
result by those of the operand.
-/

namespace JaxDas

/-- Digits in a concatenation of bases. -/
theorem rowMajor_append : ∀ {ds is : List ℕ} (es js : List ℕ), is.length = ds.length →
    rowMajor (ds ++ es) (is ++ js) = rowMajor ds is * size es + rowMajor es js
  | [], [], es, js, _ => by simp [rowMajor]
  | d :: ds, i :: is, es, js, h => by
      simp only [List.cons_append, rowMajor]
      rw [rowMajor_append es js (Nat.succ.inj h), size_append, Nat.add_mul, Nat.mul_assoc,
        Nat.add_assoc]

namespace NdArray

variable {α : Type}

/-- The array with its elements in the same row-major order. -/
def reshape (x : NdArray α) (shape : List ℕ) (h : size shape = size x.shape) : NdArray α where
  shape := shape
  get? idx :=
    if Within shape idx then (multiIndices x.shape)[rowMajor shape idx]?.bind x.get? else none
  within idx := by
    split
    · next hidx =>
        obtain ⟨i, hi, hnum⟩ := exists_rowMajor (h ▸ rowMajor_lt hidx)
        rw [← hnum, getElem?_multiIndices hi, Option.bind_some, x.within]
        exact ⟨fun _ => hidx, fun _ => hi⟩
    · next hidx => simpa using hidx

/-- Two arrays with the same elements in row-major order. -/
structure SameOrder (x y : NdArray α) : Prop where
  size_eq : size x.shape = size y.shape
  get?_eq : ∀ i j, Within x.shape i → Within y.shape j →
    rowMajor x.shape i = rowMajor y.shape j → y.get? j = x.get? i

theorem SameOrder.refl (x : NdArray α) : SameOrder x x where
  size_eq := rfl
  get?_eq i j hi hj h := by rw [rowMajor_inj hi hj h]

theorem SameOrder.trans {x y z : NdArray α} (h : SameOrder x y) (h' : SameOrder y z) :
    SameOrder x z where
  size_eq := h.size_eq.trans h'.size_eq
  get?_eq i j hi hj hnum := by
    have hlt : rowMajor x.shape i < size y.shape := h.size_eq ▸ rowMajor_lt hi
    obtain ⟨k, hk, hnum'⟩ := exists_rowMajor hlt
    rw [h'.get?_eq k j hk hj (hnum'.trans hnum), h.get?_eq i k hi hk hnum'.symm]

theorem reshape_sameOrder (x : NdArray α) {shape : List ℕ} (h : size shape = size x.shape) :
    SameOrder x (x.reshape shape h) where
  size_eq := h.symm
  get?_eq i j hi hj hnum := by
    have hget : (x.reshape shape h).get? j =
        (multiIndices x.shape)[rowMajor shape j]?.bind x.get? := if_pos hj
    rw [hget, show rowMajor shape j = rowMajor x.shape i from hnum.symm, getElem?_multiIndices hi]
    rfl

/-! ## Transposes -/

theorem within_pick {perm shape idx : List ℕ} (hperm : perm.Perm (List.range shape.length)) :
    Within (JaxDas.pick perm shape) idx → Within shape (transposeIndex perm idx) := by
  intro h
  have hlen : perm.length = shape.length := by rw [hperm.length_eq, List.length_range]
  refine List.forall₂_iff_get.mpr ⟨by simp [transposeIndex, hlen], fun k hk hk' => ?_⟩
  have hmem : k ∈ perm := hperm.mem_iff.mpr (List.mem_range.mpr (by simpa using hk'))
  have hpos := List.idxOf_lt_length_of_mem hmem
  have hidx : perm.idxOf k < idx.length := by
    rw [List.Forall₂.length_eq h, JaxDas.pick, List.length_map]
    exact hpos
  have hlt := List.Forall₂.get h hidx (by rw [JaxDas.pick, List.length_map]; exact hpos)
  simp only [List.get_eq_getElem, JaxDas.pick, List.getElem_map, List.getElem_idxOf hpos] at hlt
  simp only [List.get_eq_getElem, transposeIndex, List.getElem_map, List.getElem_range]
  rw [List.getD_eq_getElem _ _ hidx]
  rwa [List.getD_eq_getElem _ _ hk'] at hlt

/-- `lax.transpose`: the dimension `k` of the result is the dimension `perm[k]`. -/
def transpose (x : NdArray α) (perm : List ℕ) (h : perm.Perm (List.range x.shape.length)) :
    NdArray α where
  shape := JaxDas.pick perm x.shape
  get? idx :=
    if Within (JaxDas.pick perm x.shape) idx then x.get? (transposeIndex perm idx) else none
  within idx := by
    split
    · next hidx =>
        rw [x.within]
        exact ⟨fun _ => hidx, fun _ => within_pick h hidx⟩
    · next hidx => simpa using hidx

theorem transpose_get? (x : NdArray α) {perm idx : List ℕ}
    (h : perm.Perm (List.range x.shape.length)) (hidx : Within (JaxDas.pick perm x.shape) idx) :
    (x.transpose perm h).get? idx = x.get? (transposeIndex perm idx) := if_pos hidx

end NdArray

/-! ## Dimensions with names -/

section

variable {A : Type} [DecidableEq A] {l r : List A}

theorem map_idxOf_self (hl : l.Nodup) : l.map (fun a => l.idxOf a) = List.range l.length := by
  refine List.ext_getElem (by simp) fun k hk _ => ?_
  simp only [List.getElem_map, List.getElem_range]
  exact hl.idxOf_getElem k (by simpa using hk)

theorem perm_idxOf (hl : l.Nodup) (h : r.Perm l) :
    (r.map fun a => l.idxOf a).Perm (List.range l.length) :=
  map_idxOf_self hl ▸ h.map _

theorem getD_idxOf (f : A → ℕ) {a : A} (ha : a ∈ l) : (l.map f).getD (l.idxOf a) 0 = f a := by
  have hpos := List.idxOf_lt_length_of_mem ha
  rw [List.getD_eq_getElem _ _ (by simpa using hpos), List.getElem_map, List.getElem_idxOf hpos]

theorem pick_idxOf (f : A → ℕ) (h : r ⊆ l) :
    pick (r.map fun a => l.idxOf a) (l.map f) = r.map f := by
  rw [pick, List.map_map]
  exact List.map_congr_left fun a ha => getD_idxOf f (h ha)

/-- A name is where its position is in the list of positions. -/
theorem idxOf_map_idxOf {a : A} (ha : a ∈ l) : ∀ r : List A,
    (r.map fun b => l.idxOf b).idxOf (l.idxOf a) = r.idxOf a
  | [] => rfl
  | b :: r => by
      by_cases hb : b = a
      · rw [hb, List.map_cons, List.idxOf_cons_self, List.idxOf_cons_self]
      · have hne : l.idxOf b ≠ l.idxOf a := fun heq => hb ((List.idxOf_inj ha).mp heq.symm).symm
        rw [List.map_cons, List.idxOf_cons_ne _ hne, List.idxOf_cons_ne _ hb, idxOf_map_idxOf ha r]

theorem transposeIndex_idxOf (hl : l.Nodup) (h : r.Perm l) (f : A → ℕ) :
    transposeIndex (r.map fun a => l.idxOf a) (r.map f) = l.map f := by
  rw [transposeIndex, List.length_map, h.length_eq, ← map_idxOf_self hl, List.map_map]
  refine List.map_congr_left fun a ha => ?_
  rw [Function.comp_apply, idxOf_map_idxOf ha]
  exact getD_idxOf f (h.mem_iff.mpr ha)

end

/-! ## Grouped dimensions

Several dimensions as one, whose size is their product. -/

section

variable {A : Type} {f v : A → ℕ}

def groupSize (f : A → ℕ) (group : List A) : ℕ := size (group.map f)

def groupIndex (f v : A → ℕ) (group : List A) : ℕ := rowMajor (group.map f) (group.map v)

theorem within_map {l : List A} (h : ∀ a ∈ l, v a < f a) : Within (l.map f) (l.map v) := by
  unfold Within
  rw [List.forall₂_map_left_iff, List.forall₂_map_right_iff, List.forall₂_same]
  exact h

theorem size_groups : ∀ gs : List (List A), size (gs.map (groupSize f)) = size (gs.flatten.map f)
  | [] => rfl
  | g :: gs => by
      rw [List.map_cons, List.flatten_cons, List.map_append, size_append, size, size_groups gs]
      rfl

theorem within_groups {gs : List (List A)} (h : ∀ a ∈ gs.flatten, v a < f a) :
    Within (gs.map (groupSize f)) (gs.map (groupIndex f v)) :=
  within_map fun _ hg => rowMajor_lt (within_map fun a ha => h a (List.mem_flatten_of_mem hg ha))

/-- Grouping the dimensions keeps the row-major number. -/
theorem rowMajor_groups : ∀ gs : List (List A),
    rowMajor (gs.map (groupSize f)) (gs.map (groupIndex f v)) =
      rowMajor (gs.flatten.map f) (gs.flatten.map v)
  | [] => rfl
  | g :: gs => by
      rw [List.map_cons, List.map_cons, List.flatten_cons, List.map_append, List.map_append,
        rowMajor_append _ _ (by simp), rowMajor, size_groups, rowMajor_groups gs]
      rfl

end

end JaxDas
