import JaxDas.Lib.MixedRadix
import Mathlib.Data.List.InsertIdx

/-!
# Arrays by index

An array is a shape and an element for every index of the shape. `slice` is the array at one
position of an axis, `stack` puts arrays along a new axis; the other operations are made of these
two, or act on each element.
-/

namespace JaxDas

instance (ds idx : List ℕ) : Decidable (Within ds idx) := inferInstanceAs (Decidable (List.Forall₂ _ _ _))

theorem within_insertIdx {n b : ℕ} (hb : b < n) : ∀ {k : ℕ} {shape idx : List ℕ},
    k ≤ shape.length → (Within (shape.insertIdx k n) (idx.insertIdx k b) ↔ Within shape idx)
  | 0, shape, idx, _ => by
      rw [List.insertIdx_zero, List.insertIdx_zero]
      unfold Within
      rw [List.forall₂_cons]
      exact and_iff_right hb
  | k + 1, [], idx, hk => absurd hk (by simp)
  | k + 1, d :: shape, [], _ => by
      rw [List.insertIdx_succ_nil, List.insertIdx_succ_cons]
      exact iff_of_false nofun nofun
  | k + 1, d :: shape, i :: idx, hk => by
      have ih := @within_insertIdx n b hb k shape idx (Nat.le_of_succ_le_succ hk)
      rw [List.insertIdx_succ_cons, List.insertIdx_succ_cons]
      unfold Within at ih ⊢
      rw [List.forall₂_cons, List.forall₂_cons, ih]

theorem insertIdx_eraseIdx_of_getElem? {k i : ℕ} {idx : List ℕ} (h : idx[k]? = some i) :
    (idx.eraseIdx k).insertIdx k i = idx := by
  obtain ⟨hk, rfl⟩ := List.getElem?_eq_some_iff.mp h
  exact List.insertIdx_eraseIdx_getElem hk

theorem within_insertIdx_iff {n k : ℕ} {shape idx : List ℕ} (hk : k ≤ shape.length) :
    Within (shape.insertIdx k n) idx ↔
      ∃ i, idx[k]? = some i ∧ i < n ∧ Within shape (idx.eraseIdx k) := by
  constructor
  · intro h
    have hlen : idx.length = shape.length + 1 := by
      rw [h.length_eq, List.length_insertIdx_of_le_length hk]
    have hget : idx[k]? = some idx[k] := List.getElem?_eq_getElem (by omega)
    have hlt : idx[k] < n := by
      have := List.Forall₂.get h (by omega) (by rw [List.length_insertIdx_of_le_length hk]; omega)
        (i := k)
      simpa using this
    refine ⟨idx[k], hget, hlt, ?_⟩
    rw [← insertIdx_eraseIdx_of_getElem? hget] at h
    exact (within_insertIdx hlt hk).mp h
  · rintro ⟨i, hget, hlt, h⟩
    rw [← insertIdx_eraseIdx_of_getElem? hget]
    exact (within_insertIdx hlt hk).mpr h

theorem take_insertIdx (b : ℕ) : ∀ {k m : ℕ} {idx : List ℕ}, k ≤ m →
    (idx.insertIdx k b).take (m + 1) = (idx.take m).insertIdx k b
  | 0, m, idx, _ => rfl
  | k + 1, m, [], _ => by simp
  | k + 1, m, i :: idx, h => by
      obtain ⟨m, rfl⟩ : ∃ j, m = j + 1 := ⟨m - 1, by omega⟩
      rw [List.insertIdx_succ_cons, List.take_succ_cons, List.take_succ_cons,
        List.insertIdx_succ_cons, take_insertIdx b (by omega)]

/-- An array. -/
@[ext]
structure NdArray (α : Type) where
  shape : List ℕ
  get? : List ℕ → Option α
  within : ∀ idx, (get? idx).isSome ↔ Within shape idx

namespace NdArray

variable {α : Type}

/-- The array at the position `b` of the axis `k`. -/
def slice (x : NdArray α) (k b : ℕ) : NdArray α :=
  if h : b < x.shape.getD k 0 then
    { shape := x.shape.eraseIdx k
      get? := fun idx => x.get? (idx.insertIdx k b)
      within := by
        intro idx
        have hk : k < x.shape.length := by
          by_contra hk
          rw [List.getD_eq_default _ _ (by omega)] at h
          omega
        have hle : k ≤ (x.shape.eraseIdx k).length := by
          rw [List.length_eraseIdx_of_lt hk]
          omega
        rw [x.within, ← within_insertIdx h hle, List.getD_eq_getElem _ _ hk,
          List.insertIdx_eraseIdx_getElem hk] }
  else x

/-- Arrays of one shape along a new axis `k`. -/
def stack (shape : List ℕ) (k n : ℕ) (f : ℕ → NdArray α) (hk : k ≤ shape.length)
    (hf : ∀ i < n, (f i).shape = shape) : NdArray α where
  shape := shape.insertIdx k n
  get? := fun idx =>
    match idx[k]? with
    | some i => if i < n then (f i).get? (idx.eraseIdx k) else none
    | none => none
  within := by
    intro idx
    rw [within_insertIdx_iff hk]
    cases hget : idx[k]? with
    | none => simp
    | some i =>
        by_cases hi : i < n
        · simp [hi, (f i).within, hf i hi]
        · simp [hi]

section slice

variable {x : NdArray α} {shape : List ℕ} {k n b : ℕ}

theorem getD_insertIdx (hk : k ≤ shape.length) : (shape.insertIdx k n).getD k 0 = n := by
  rw [List.getD_eq_getElem?_getD, List.getElem?_insertIdx_self, if_pos hk]
  rfl

theorem slice_shape (hx : x.shape = shape.insertIdx k n) (hk : k ≤ shape.length) (hb : b < n) :
    (x.slice k b).shape = shape := by
  have h : b < x.shape.getD k 0 := by rwa [hx, getD_insertIdx hk]
  rw [slice, dif_pos h]
  change x.shape.eraseIdx k = shape
  rw [hx, List.eraseIdx_insertIdx_self]

theorem slice_get? (hx : x.shape = shape.insertIdx k n) (hk : k ≤ shape.length) (hb : b < n)
    (idx : List ℕ) : (x.slice k b).get? idx = x.get? (idx.insertIdx k b) := by
  have h : b < x.shape.getD k 0 := by rwa [hx, getD_insertIdx hk]
  rw [slice, dif_pos h]

/-- Nothing is at an index outside of the shape. -/
theorem get?_eq_none {idx : List ℕ} (h : ¬ Within x.shape idx) : x.get? idx = none := by
  rw [← x.within idx, Bool.not_eq_true, Option.isSome_eq_false_iff, Option.isNone_iff_eq_none] at h
  exact h

/-- The slices of a stack are what was stacked. -/
theorem slice_stack {f : ℕ → NdArray α} (hk : k ≤ shape.length)
    (hf : ∀ i < n, (f i).shape = shape) (hb : b < n) :
    (stack shape k n f hk hf).slice k b = f b := by
  refine NdArray.ext ((slice_shape rfl hk hb).trans (hf b hb).symm) (funext fun idx => ?_)
  rw [slice_get? rfl hk hb]
  by_cases hlen : k ≤ idx.length
  · simp only [stack, List.getElem?_insertIdx_self, if_pos hlen, if_pos hb,
      List.eraseIdx_insertIdx_self]
  · -- a short index is not one of the shape
    have hnot : (idx.insertIdx k b)[k]? = none := by
      rw [List.getElem?_insertIdx_self, if_neg hlen]
    simp only [stack, hnot]
    refine (get?_eq_none ?_).symm
    intro hw
    rw [hf b hb] at hw
    rw [hw.length_eq] at hlen
    exact hlen hk

/-- An array with an axis is determined by its slices. -/
theorem ext_slices {y : NdArray α} (hx : x.shape = shape.insertIdx k n)
    (hy : y.shape = shape.insertIdx k n) (hk : k ≤ shape.length)
    (h : ∀ b < n, x.slice k b = y.slice k b) : x = y := by
  refine NdArray.ext (hx.trans hy.symm) (funext fun idx => ?_)
  by_cases hw : Within (shape.insertIdx k n) idx
  · obtain ⟨i, hget, hi, -⟩ := (within_insertIdx_iff hk).mp hw
    rw [← insertIdx_eraseIdx_of_getElem? hget, ← slice_get? hx hk hi, h i hi, slice_get? hy hk hi]
  · rw [get?_eq_none (hx ▸ hw), get?_eq_none (hy ▸ hw)]

end slice

/-! ## Moving and adding axes -/

/-- `jnp.broadcast`: the array at every position of a new axis. -/
def broadcast (x : NdArray α) (n k : ℕ) : NdArray α :=
  if h : k ≤ x.shape.length then stack x.shape k n (fun _ => x) h fun _ _ => rfl else x

/-- The axis `src` put at `dst`: the element at an index is that at the index with the position
along `dst` put back at `src`. -/
def moveaxis (x : NdArray α) (src dst : ℕ) : NdArray α :=
  if h : src < x.shape.length ∧ dst < x.shape.length then
    stack (x.shape.eraseIdx src) dst (x.shape.getD src 0) (fun b => x.slice src b)
      (by rw [List.length_eraseIdx_of_lt h.1]; omega) (by
        intro i hi
        rw [slice, dif_pos hi])
  else x

section

variable {x : NdArray α} {shape : List ℕ} {k n b src dst : ℕ}

theorem broadcast_shape (hk : k ≤ x.shape.length) :
    (x.broadcast n k).shape = x.shape.insertIdx k n := by
  rw [broadcast, dif_pos hk]
  rfl

theorem slice_broadcast (hk : k ≤ x.shape.length) (hb : b < n) :
    (x.broadcast n k).slice k b = x := by
  rw [broadcast, dif_pos hk, slice_stack hk _ hb]

theorem moveaxis_bounds (hx : x.shape = shape.insertIdx src n) (hsrc : src ≤ shape.length)
    (hdst : dst ≤ shape.length) : src < x.shape.length ∧ dst < x.shape.length := by
  rw [hx, List.length_insertIdx_of_le_length hsrc]
  omega

theorem moveaxis_shape (hx : x.shape = shape.insertIdx src n) (hsrc : src ≤ shape.length)
    (hdst : dst ≤ shape.length) : (x.moveaxis src dst).shape = shape.insertIdx dst n := by
  rw [moveaxis, dif_pos (moveaxis_bounds hx hsrc hdst)]
  simp only [stack]
  rw [hx, List.eraseIdx_insertIdx_self, getD_insertIdx hsrc]

theorem slice_moveaxis (hx : x.shape = shape.insertIdx src n) (hsrc : src ≤ shape.length)
    (hdst : dst ≤ shape.length) (hb : b < n) :
    (x.moveaxis src dst).slice dst b = x.slice src b := by
  rw [moveaxis, dif_pos (moveaxis_bounds hx hsrc hdst), slice_stack]
  rwa [hx, getD_insertIdx hsrc]

end

/-! ## Elements -/

/-- A function of each element. -/
def map (f : α → α) (x : NdArray α) : NdArray α where
  shape := x.shape
  get? := fun idx => (x.get? idx).map f
  within := fun idx => by rw [Option.isSome_map, x.within]

/-! ## Predicates -/

variable (holds : α → Bool)

/-- The predicate holds of the element at the index. -/
def test (p : NdArray α) (idx : List ℕ) : Bool := (p.get? idx).any holds

/-- `reduce_or` over all axes. -/
def reduceOr (p : NdArray α) : Bool := (multiIndices p.shape).any (p.test holds)

/-- `select` of arrays of one shape, with a predicate that is broadcast along their last axes. -/
def select (p x y : NdArray α) : NdArray α :=
  if h : x.shape = y.shape then
    { shape := x.shape
      get? := fun idx => if p.test holds (idx.take p.shape.length) then x.get? idx else y.get? idx
      within := by
        intro idx
        split
        · exact x.within idx
        · rw [y.within idx, h] }
  else y

variable {holds} {p x y : NdArray α} {k n b : ℕ}

theorem test_within {idx : List ℕ} (h : p.test holds idx = true) : Within p.shape idx := by
  rw [← p.within idx]
  unfold test at h
  cases hget : p.get? idx with
  | none => rw [hget] at h; exact nomatch h
  | some a => rfl

theorem reduceOr_iff : p.reduceOr holds = true ↔ ∃ idx, p.test holds idx = true := by
  rw [reduceOr, List.any_eq_true]
  constructor
  · rintro ⟨idx, _, h⟩
    exact ⟨idx, h⟩
  · rintro ⟨idx, h⟩
    exact ⟨idx, mem_multiIndices.mpr (test_within h), h⟩

theorem reduceOr_scalar (hp : p.shape = []) : p.reduceOr holds = p.test holds [] := by
  rw [reduceOr, hp]
  simp [multiIndices, product]

theorem test_slice {shape : List ℕ} (hp : p.shape = shape.insertIdx k n) (hk : k ≤ shape.length)
    (hb : b < n) (idx : List ℕ) :
    (p.slice k b).test holds idx = p.test holds (idx.insertIdx k b) := by
  rw [test, test, slice_get? hp hk hb]

/-- A predicate holds somewhere if one of its slices does. -/
theorem reduceOr_slices {shape : List ℕ} (hp : p.shape = shape.insertIdx k n)
    (hk : k ≤ shape.length) :
    p.reduceOr holds = true ↔ ∃ b < n, (p.slice k b).reduceOr holds = true := by
  rw [reduceOr_iff]
  constructor
  · rintro ⟨idx, h⟩
    have hw := test_within h
    rw [hp] at hw
    obtain ⟨b, hget, hb, -⟩ := (within_insertIdx_iff hk).mp hw
    refine ⟨b, hb, reduceOr_iff.mpr ⟨idx.eraseIdx k, ?_⟩⟩
    rwa [test_slice hp hk hb, insertIdx_eraseIdx_of_getElem? hget]
  · rintro ⟨b, hb, h⟩
    obtain ⟨idx, h⟩ := reduceOr_iff.mp h
    rw [test_slice hp hk hb] at h
    exact ⟨_, h⟩

theorem select_shape (h : x.shape = y.shape) : (select holds p x y).shape = x.shape := by
  rw [select, dif_pos h]

theorem select_get? (h : x.shape = y.shape) (idx : List ℕ) : (select holds p x y).get? idx =
    if p.test holds (idx.take p.shape.length) then x.get? idx else y.get? idx := by
  rw [select, dif_pos h]

/-- Where the predicate holds nowhere the second array is taken. -/
theorem select_of_not (h : p.reduceOr holds = false) : select holds p x y = y := by
  by_cases hshape : x.shape = y.shape
  · refine NdArray.ext ((select_shape hshape).trans hshape) (funext fun idx => ?_)
    rw [select_get? hshape, if_neg]
    intro htest
    rw [reduceOr_iff.mpr ⟨_, htest⟩] at h
    exact nomatch h
  · rw [select, dif_neg hshape]

/-- A predicate without axes that holds takes the first one. -/
theorem select_of_scalar (hp : p.shape = []) (h : p.reduceOr holds = true)
    (hshape : x.shape = y.shape) : select holds p x y = x := by
  refine NdArray.ext (select_shape hshape) (funext fun idx => ?_)
  rw [reduceOr_scalar hp] at h
  rw [select_get? hshape, hp, List.length_nil, List.take_zero, if_pos h]

/-- A select along an axis of the predicate. -/
theorem slice_select {shape pshape : List ℕ} (hp : p.shape = pshape.insertIdx k n)
    (hx : x.shape = shape.insertIdx k n) (hy : y.shape = shape.insertIdx k n)
    (hkp : k ≤ pshape.length) (hk : k ≤ shape.length) (hb : b < n) :
    (select holds p x y).slice k b = select holds (p.slice k b) (x.slice k b) (y.slice k b) := by
  have hxy : x.shape = y.shape := hx.trans hy.symm
  have hsx := slice_shape hx hk hb
  have hsy := slice_shape hy hk hb
  have hs : (select holds p x y).shape = shape.insertIdx k n := (select_shape hxy).trans hx
  refine NdArray.ext ?_ (funext fun idx => ?_)
  · rw [slice_shape hs hk hb, select_shape (hsx.trans hsy.symm), hsx]
  · rw [slice_get? hs hk hb, select_get? hxy, select_get? (hsx.trans hsy.symm),
      slice_get? hx hk hb, slice_get? hy hk hb, test_slice hp hkp hb, slice_shape hp hkp hb, hp,
      List.length_insertIdx_of_le_length hkp, take_insertIdx b hkp]

/-- A select along an axis that the predicate does not have. -/
theorem slice_select_after {shape : List ℕ} (hx : x.shape = shape.insertIdx k n)
    (hy : y.shape = shape.insertIdx k n) (hkp : p.shape.length ≤ k) (hk : k ≤ shape.length)
    (hb : b < n) :
    (select holds p x y).slice k b = select holds p (x.slice k b) (y.slice k b) := by
  have hxy : x.shape = y.shape := hx.trans hy.symm
  have hsx := slice_shape hx hk hb
  have hsy := slice_shape hy hk hb
  have hs : (select holds p x y).shape = shape.insertIdx k n := (select_shape hxy).trans hx
  refine NdArray.ext ?_ (funext fun idx => ?_)
  · rw [slice_shape hs hk hb, select_shape (hsx.trans hsy.symm), hsx]
  · rw [slice_get? hs hk hb, select_get? hxy, select_get? (hsx.trans hsy.symm),
      slice_get? hx hk hb, slice_get? hy hk hb, List.take_insertIdx_eq_take_of_le _ _ _ _ hkp]

end NdArray

end JaxDas
