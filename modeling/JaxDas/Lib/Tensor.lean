import JaxDas.Lib.RowMajor
import Mathlib.Algebra.Order.Ring.Nat

/-!
# Tensors

A tensor is a shape and as many elements as it has, row by row. `elem?` is the part with a given
index of the first dimension; `reshape?` keeps the elements and their order.
-/

namespace JaxDas

@[ext]
structure Tensor (α : Type) where
  shape : List ℕ
  data : List α
  valid : data.length = size shape

variable {α : Type}

theorem length_part {n d i : ℕ} {data : List α} (h : data.length = d * n) (hi : i < d) :
    ((data.drop (i * n)).take n).length = n := by
  have hle : (i + 1) * n ≤ d * n := Nat.mul_le_mul_right n hi
  rw [Nat.add_mul] at hle
  rw [List.length_take, List.length_drop]
  omega

namespace Tensor

/-- The tensor at an index of the first dimension. -/
def elem? : Tensor α → ℕ → Option (Tensor α)
  | ⟨[], _, _⟩, _ => none
  | ⟨d :: s, data, valid⟩, i =>
      if hi : i < d then some ⟨s, (data.drop (i * size s)).take (size s), length_part valid hi⟩
      else none

/-- The same elements in another shape, which must have as many. -/
def reshape? (t : Tensor α) (shape : List ℕ) : Option (Tensor α) :=
  if h : size t.shape = size shape then some ⟨shape, t.data, t.valid.trans h⟩ else none

/-- All elements the same. -/
def fill (shape : List ℕ) (a : α) : Tensor α :=
  ⟨shape, List.replicate (size shape) a, List.length_replicate⟩

theorem elem?_eq_some {t u : Tensor α} {d i : ℕ} {s : List ℕ} (hs : t.shape = d :: s) :
    t.elem? i = some u ↔
      i < d ∧ u.shape = s ∧ u.data = (t.data.drop (i * size s)).take (size s) := by
  obtain ⟨shape, data, valid⟩ := t
  obtain rfl : shape = d :: s := hs
  constructor
  · intro h
    simp only [elem?] at h
    split at h
    · injection h with h
      exact ⟨‹_›, h ▸ rfl, h ▸ rfl⟩
    · exact nomatch h
  · rintro ⟨hi, hu, hdata⟩
    simp only [elem?, dif_pos hi]
    exact congrArg some (Tensor.ext hu.symm hdata.symm)

theorem elem?_isSome {t : Tensor α} {d i : ℕ} {s : List ℕ} (hs : t.shape = d :: s) (hi : i < d) :
    ∃ u, t.elem? i = some u ∧ u.shape = s := by
  have hlen : t.data.length = d * size s := by rw [t.valid, hs, size]
  exact ⟨⟨s, _, length_part hlen hi⟩, (elem?_eq_some hs).mpr ⟨hi, rfl, rfl⟩, rfl⟩

theorem elem?_none {t : Tensor α} {d i : ℕ} {s : List ℕ} (hs : t.shape = d :: s) (hi : d ≤ i) :
    t.elem? i = none := by
  cases h : t.elem? i with
  | none => rfl
  | some u => exact absurd ((elem?_eq_some hs).mp h).1 (by omega)

theorem reshape?_eq_some {t u : Tensor α} {shape : List ℕ} :
    t.reshape? shape = some u ↔ u.shape = shape ∧ u.data = t.data := by
  constructor
  · intro h
    unfold reshape? at h
    split at h
    · injection h with h
      exact ⟨h ▸ rfl, h ▸ rfl⟩
    · exact nomatch h
  · rintro ⟨hshape, hdata⟩
    have hsize : size t.shape = size shape := by rw [← t.valid, ← hdata, u.valid, hshape]
    rw [reshape?, dif_pos hsize]
    exact congrArg some (Tensor.ext hshape.symm hdata.symm)

theorem reshape?_isSome {t : Tensor α} {shape : List ℕ} :
    (∃ u, t.reshape? shape = some u) ↔ size t.shape = size shape := by
  constructor
  · rintro ⟨u, hu⟩
    obtain ⟨hshape, hdata⟩ := reshape?_eq_some.mp hu
    rw [← t.valid, ← hdata, u.valid, hshape]
  · intro h
    exact ⟨⟨shape, t.data, t.valid.trans h⟩, reshape?_eq_some.mpr ⟨rfl, rfl⟩⟩

/-- Tensors without elements are the same when their shapes are. -/
theorem ext_of_empty {t u : Tensor α} (hshape : t.shape = u.shape) (h : size u.shape = 0) :
    t = u := by
  refine Tensor.ext hshape ?_
  have ht : t.data.length = 0 := by rw [t.valid, hshape, h]
  have hu : u.data.length = 0 := by rw [u.valid, h]
  rw [List.eq_nil_of_length_eq_zero ht, List.eq_nil_of_length_eq_zero hu]

theorem data_ext {n : ℕ} : ∀ {d : ℕ} {xs ys : List α}, xs.length = d * n → ys.length = d * n →
    (∀ i < d, (xs.drop (i * n)).take n = (ys.drop (i * n)).take n) → xs = ys
  | 0, xs, ys, hx, hy, _ => by
      rw [Nat.zero_mul] at hx hy
      rw [List.eq_nil_of_length_eq_zero hx, List.eq_nil_of_length_eq_zero hy]
  | d + 1, xs, ys, hx, hy, h => by
      rw [Nat.add_mul, Nat.one_mul] at hx hy
      have hhead : xs.take n = ys.take n := by simpa using h 0 (by omega)
      have htail : xs.drop n = ys.drop n := by
        have hlen : ∀ zs : List α, zs.length = d * n + n → (zs.drop n).length = d * n := by
          intro zs hz
          rw [List.length_drop]; omega
        refine data_ext (hlen xs hx) (hlen ys hy) fun i hi => ?_
        have := h (i + 1) (by omega)
        rwa [Nat.add_mul, Nat.one_mul, Nat.add_comm, ← List.drop_drop, ← List.drop_drop] at this
      rw [← List.take_append_drop n xs, ← List.take_append_drop n ys, hhead, htail]

/-- Tensors with the same parts are the same. -/
theorem ext_elem {t u : Tensor α} {d : ℕ} {s : List ℕ} (ht : t.shape = d :: s)
    (hu : u.shape = d :: s) (h : ∀ i < d, t.elem? i = u.elem? i) : t = u := by
  refine Tensor.ext (ht.trans hu.symm) ?_
  have hlen : ∀ v : Tensor α, v.shape = d :: s → v.data.length = d * size s := by
    intro v hv
    rw [v.valid, hv, size]
  refine data_ext (hlen t ht) (hlen u hu) fun i hi => ?_
  obtain ⟨v, hv, -⟩ := elem?_isSome ht hi
  rw [← ((elem?_eq_some ht).mp hv).2.2, ← ((elem?_eq_some hu).mp (h i hi ▸ hv)).2.2]

/-- The one part of a tensor whose first dimension is 1. -/
theorem elem?_one {t : Tensor α} {s : List ℕ} (hs : t.shape = 1 :: s) :
    ∃ u, t.elem? 0 = some u ∧ u.shape = s ∧ u.data = t.data := by
  have hlen : t.data.length = size s := by rw [t.valid, hs, size, Nat.one_mul]
  obtain ⟨u, hu, hus⟩ := elem?_isSome hs (i := 0) (by omega)
  refine ⟨u, hu, hus, ?_⟩
  rw [((elem?_eq_some hs).mp hu).2.2, Nat.zero_mul, List.drop_zero, ← hlen, List.take_length]

theorem elem?_fill {d i : ℕ} {s : List ℕ} (a : α) (hi : i < d) :
    (fill (d :: s) a).elem? i = some (fill s a) := by
  refine (elem?_eq_some (t := fill (d :: s) a) rfl).mpr ⟨hi, rfl, ?_⟩
  have hle : (i + 1) * size s ≤ d * size s := Nat.mul_le_mul_right _ hi
  rw [Nat.add_mul] at hle
  simp only [fill, size, List.drop_replicate, List.take_replicate]
  congr 1
  omega

end Tensor

end JaxDas
