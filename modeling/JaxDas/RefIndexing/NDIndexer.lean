import JaxDas.Lib.Fallible
import JaxDas.Lib.MixedRadix
import Mathlib.Algebra.Order.Ring.Int
import Mathlib.Tactic.Linarith

/-!
# Indexers of refs

`NDIndexer.from_indices_shape` and the validation in `__post_init__`, for indices that are known:
integers, slices and an ellipsis. A value is tested by `if value := ...`, so that a zero is not
compared with the dimension, and nothing compares a negative one with zero.
-/

namespace JaxDas.RefIndexing

inductive IndexingError where
  | valueError (msg : String)
  | overflowError (msg : String)
deriving DecidableEq, Repr

/-- `Slice`, with what `__post_init__` checks. -/
structure Slice where
  start : ℤ
  size : ℤ
  stride : ℤ
  stride_nonneg : 0 ≤ stride
deriving DecidableEq, Repr

/-- An element of the tuple that a ref is indexed with. -/
inductive Index where
  | int (i : ℤ)
  | slice (start stop step : Option ℤ)
  | dslice (s : Slice)
  | ellipsis
deriving DecidableEq, Repr

inductive DimIndexer where
  | int (i : ℤ)
  | slice (s : Slice)
deriving DecidableEq, Repr

/-- The shape of the integer indexers is `()` here. -/
structure NDIndexer where
  indices : List DimIndexer
  shape : List ℕ
deriving DecidableEq, Repr

/-! ## Builtin slices -/

def clampIndex (axis_size : ℕ) (step_gt_0 : Bool) (i : ℤ) : ℤ :=
  if 0 ≤ i then
    if step_gt_0 then min axis_size i else min (axis_size - 1) i
  else if step_gt_0 then max 0 (axis_size + i)
  else max (-1) (axis_size + i)

/-- `canonicalize_slice`: start, step and size. -/
def canonicalizeSlice (start stop step : Option ℤ) (axis_size : ℕ) :
    Except IndexingError (ℤ × ℤ × ℤ) :=
  let step := step.getD 1
  if step = 0 then .error (.valueError "slice step cannot be zero")
  else
    let step_gt_0 : Bool := 0 < step
    let start := match start with
      | none => if step_gt_0 then 0 else (axis_size : ℤ) - 1
      | some i => clampIndex axis_size step_gt_0 i
    let stop := match stop with
      | none => if step_gt_0 then (axis_size : ℤ) else -1
      | some i => clampIndex axis_size step_gt_0 i
    let gap := if step_gt_0 then step else -step
    let distance := if step_gt_0 then stop - start else start - stop
    .ok (start, step, max 0 (distance + gap - 1) / gap)

/-- `Slice.from_slice` -/
def fromSlice (start stop step : Option ℤ) (size : ℕ) : Except IndexingError Slice := do
  let (start, step, size) ← canonicalizeSlice start stop step size
  if h : step < 1 then
    .error (.valueError s!"slice must have a step >= 1 (found: {step})")
  else .ok ⟨start, size, step, by omega⟩

/-! ## `__post_init__` -/

/-- The validation of one index. -/
def validateDim (p : DimIndexer × ℕ) : Except IndexingError Unit :=
  match p with
  | (.slice idx, s) =>
      if idx.start ≠ 0 then
        if idx.start ≥ s then
          .error (.valueError s!"Out of bound slice: start={idx.start}, dim={s}.")
        else if idx.size ≠ 0 ∧ idx.start + (idx.size - 1) * idx.stride ≥ s then
          .error (.valueError
            s!"Out of bound slice: start={idx.start}, size={idx.size}, stride={idx.stride}, dim={s}.")
        else .ok ()
      else .ok ()
  | (.int value, s) =>
      if value ≠ 0 ∧ value ≥ s then
        .error (.valueError s!"Out of bound indexer: idx={value}, dim={s}.")
      else .ok ()

/-- The constructor, with `validate=True`. -/
def NDIndexer.create (indices : List DimIndexer) (shape : List ℕ) :
    Except IndexingError NDIndexer :=
  if indices.length ≠ shape.length then
    .error (.valueError "`indices` must be the same length as `Ref` shape.")
  else do
    let _ ← (indices.zip shape).mapM validateDim
    .ok ⟨indices, shape⟩

/-! ## `from_indices_shape` -/

/-- `slice(None)` -/
def Index.all : Index := .slice none none none

/-- An ellipsis is replaced. -/
def Index.expand (fill : List Index) : Index → List Index
  | .ellipsis => fill
  | idx => [idx]

/-- The ellipsis becomes slices, and missing indices are added. -/
def expandIndices (indices : List Index) (rank : ℕ) : Except IndexingError (List Index) :=
  if 1 < indices.count .ellipsis then
    .error (.valueError "Only one ellipsis is supported.")
  else
    let indices := indices.flatMap (Index.expand (List.replicate (rank + 1 - indices.length) .all))
    if indices.length > rank then
      .error (.valueError "`indices` must not be longer than `shape`")
    else .ok (indices ++ List.replicate (rank - indices.length) .all)

/-- Builtin slices are promoted. -/
def promote (p : Index × ℕ) : Except IndexingError DimIndexer :=
  match p with
  | (.slice start stop step, s) => (fromSlice start stop step s).map .slice
  | (.dslice s, _) => .ok (.slice s)
  | (.int i, _) => .ok (.int i)
  -- no ellipsis is left
  | (.ellipsis, _) => .error (.valueError "Only one ellipsis is supported.")

/-- The bound of the default integer type. -/
def intBound (enable_x64 : Bool) : ℤ := if enable_x64 then 2 ^ 63 else 2 ^ 31

/-- `typeof` of an integer. -/
def checkInt (enable_x64 : Bool) : DimIndexer → Except IndexingError Unit
  | .int i =>
      if i < -intBound enable_x64 ∨ intBound enable_x64 ≤ i then
        .error (.overflowError s!"Python int {i} too large to convert")
      else .ok ()
  | .slice _ => .ok ()

def fromIndicesShape (enable_x64 : Bool) (indices : List Index) (shape : List ℕ) :
    Except IndexingError NDIndexer := do
  let indices ← expandIndices indices shape.length
  let indices ← (indices.zip shape).mapM promote
  let _ ← indices.mapM (checkInt enable_x64)
  NDIndexer.create indices shape

/-! ## Addressed positions -/

/-- The positions that an index addresses in a dimension of size `n`. -/
def Index.Addresses (n : ℕ) (idx : Index) (p : ℤ) : Prop :=
  match idx with
  | .int i => p = i
  | .dslice s => ∃ k : ℕ, k < s.size ∧ p = s.start + k * s.stride
  | .slice start stop step => ∃ first stride size,
      canonicalizeSlice start stop step n = .ok (first, stride, size) ∧
        ∃ k : ℕ, k < size ∧ p = first + k * stride
  | .ellipsis => False

def DimIndexer.Addresses (idx : DimIndexer) (p : ℤ) : Prop :=
  match idx with
  | .int i => p = i
  | .slice s => ∃ k : ℕ, k < s.size ∧ p = s.start + k * s.stride

/-- The positions of the elements that an indexer addresses. -/
def NDIndexer.positions (ix : NDIndexer) : Set (List ℤ) :=
  {pos | List.Forall₂ DimIndexer.Addresses ix.indices pos}

def Inside (p : ℤ) (n : ℕ) : Prop := 0 ≤ p ∧ p < n

/-- None of the cases in which a test takes a value for a missing one, or compares it with one of
the bounds only: no negative integer or start, no zero in an empty dimension, no slice that starts
at zero and reaches too far, and no slice without positions that starts behind the dimension. -/
def DimIndexer.Checked (n : ℕ) : DimIndexer → Prop
  | .int i => 0 ≤ i ∧ (i = 0 → 0 < n)
  | .slice s => 0 ≤ s.start ∧ (s.start = 0 → 0 < s.size → (s.size - 1) * s.stride < n) ∧
      (s.size ≤ 0 → s.start = 0 ∨ s.start < n)

/-- The furthest position of a slice is its last one. -/
theorem slice_inside_iff {s : Slice} {n : ℕ} (hstart : 0 ≤ s.start) :
    (∀ p, (DimIndexer.slice s).Addresses p → Inside p n) ↔
      (0 < s.size → s.start + (s.size - 1) * s.stride < n) := by
  constructor
  · intro h hsize
    have hlast : ((s.size - 1).toNat : ℤ) = s.size - 1 := Int.toNat_of_nonneg (by omega)
    have hinside := h (s.start + (s.size - 1) * s.stride)
      ⟨(s.size - 1).toNat, by omega, by rw [hlast]⟩
    exact hinside.2
  · rintro h p ⟨k, hk, rfl⟩
    have hstride := s.stride_nonneg
    have hlt := h (by omega)
    have hfirst : 0 ≤ (k : ℤ) * s.stride := Int.mul_nonneg (Int.natCast_nonneg k) hstride
    have hle : (k : ℤ) * s.stride ≤ (s.size - 1) * s.stride :=
      Int.mul_le_mul_of_nonneg_right (by omega) hstride
    exact ⟨by omega, by omega⟩

theorem validateDim_slice_ok_iff {s : Slice} {n : ℕ} :
    validateDim (.slice s, n) = .ok () ↔ s.start = 0 ∨
      (s.start < n ∧ (s.size = 0 ∨ s.start + (s.size - 1) * s.stride < n)) := by
  rw [validateDim]
  constructor
  · intro h
    rcases ite_ok h with ⟨-, h⟩ | ⟨hstart, -⟩
    · rcases ite_ok h with ⟨-, h⟩ | ⟨hlt, h⟩
      · cases h
      · rcases ite_ok h with ⟨-, h⟩ | ⟨hreach, -⟩
        · cases h
        · right
          omega
    · left
      omega
  · intro h
    split
    · rw [if_neg (by omega), if_neg (by omega)]
    · rfl

/-- The validation of a checked index is exact. -/
theorem validateDim_ok_iff {idx : DimIndexer} {n : ℕ} (h : idx.Checked n) :
    validateDim (idx, n) = .ok () ↔ ∀ p, idx.Addresses p → Inside p n := by
  cases idx with
  | int i =>
      obtain ⟨hnonneg, hzero⟩ := h
      rw [validateDim]
      constructor
      · rintro hok p rfl
        rcases ite_ok hok with ⟨-, hok⟩ | ⟨hlt, -⟩
        · cases hok
        · exact ⟨hnonneg, by omega⟩
      · intro hinside
        obtain ⟨-, hlt⟩ := hinside i rfl
        exact if_neg (by omega)
  | slice s =>
      obtain ⟨hstart, hzero, hempty⟩ := h
      rw [validateDim_slice_ok_iff, slice_inside_iff hstart]
      constructor
      · rintro (hs | ⟨hlt, hreach⟩) hsize
        · have := hzero hs hsize
          omega
        · omega
      · intro hreach
        rcases Int.lt_or_le 0 s.size with hsize | hsize
        · have hstep := Int.mul_nonneg (by omega : 0 ≤ s.size - 1) s.stride_nonneg
          have := hreach hsize
          right
          omega
        · have hstep := Int.mul_nonneg (by omega : 0 ≤ -(s.size - 1)) s.stride_nonneg
          have hback : (s.size - 1) * s.stride ≤ 0 := by
            rw [Int.neg_mul] at hstep
            omega
          rcases hempty hsize with hs | hlt
          · exact .inl hs
          · exact .inr ⟨hlt, .inr (by omega)⟩

/-! ## The steps of `from_indices_shape` -/

theorem expandIndices_ok {indices ex : List Index} {rank : ℕ}
    (h : expandIndices indices rank = .ok ex) :
    ex.length = rank ∧ ∀ idx ∈ ex, idx ≠ .ellipsis ∧ (idx ∈ indices ∨ idx = .all) := by
  unfold expandIndices at h
  rcases ite_ok h with ⟨-, h⟩ | ⟨-, h⟩
  · cases h
  · rcases ite_ok h with ⟨-, h⟩ | ⟨hlen, h⟩
    · cases h
    · obtain rfl := Except.ok.inj h
      refine ⟨?_, fun idx hidx => ?_⟩
      · rw [List.length_append, List.length_replicate]
        omega
      · have hall : ∀ {k}, idx ∈ List.replicate k Index.all →
            idx ≠ .ellipsis ∧ (idx ∈ indices ∨ idx = .all) := by
          intro k hmem
          rw [List.eq_of_mem_replicate hmem]
          exact ⟨by decide, .inr rfl⟩
        rcases List.mem_append.mp hidx with hidx | hidx
        · obtain ⟨idx', hmem, hidx⟩ := List.mem_flatMap.mp hidx
          cases idx' with
          | ellipsis => exact hall hidx
          | _ =>
              obtain rfl := List.mem_singleton.mp hidx
              exact ⟨by simp, .inl hmem⟩
        · exact hall hidx

/-- The tuple has two ellipses, or more indices than the ref has dimensions. -/
def TooLong (indices : List Index) (rank : ℕ) : Prop :=
  1 < indices.count .ellipsis ∨ rank < (indices.filter (· ≠ .ellipsis)).length

theorem length_expanded (fill : List Index) : ∀ indices : List Index,
    (indices.flatMap (Index.expand fill)).length =
      (indices.filter (· ≠ .ellipsis)).length + indices.count .ellipsis * fill.length
  | [] => by simp
  | idx :: indices => by
      have ih := length_expanded fill indices
      rw [List.flatMap_cons, List.length_append, ih]
      cases idx with
      | ellipsis =>
          rw [List.count_cons_self, Nat.add_mul, Nat.one_mul,
            List.filter_cons_of_neg (by simp), Index.expand]
          omega
      | _ =>
          rw [List.count_cons_of_ne (by simp), List.filter_cons_of_pos (by simp)]
          simp only [Index.expand, List.length_cons, List.length_nil]
          omega

theorem length_eq_filter_add_count (indices : List Index) :
    indices.length = (indices.filter (· ≠ .ellipsis)).length + indices.count .ellipsis := by
  have h := length_expanded [.ellipsis] indices
  have hsame : indices.flatMap (Index.expand [.ellipsis]) = indices.flatMap fun idx => [idx] :=
    List.flatMap_congr fun idx _ => by cases idx <;> rfl
  rwa [hsame, List.flatMap_singleton', List.length_singleton, Nat.mul_one] at h

theorem expandIndices_error {indices : List Index} {rank : ℕ} {e : IndexingError}
    (h : expandIndices indices rank = .error e) :
    (∃ msg, e = .valueError msg) ∧ TooLong indices rank := by
  unfold expandIndices at h
  split at h
  · next hmany => exact ⟨⟨_, (Except.error.inj h).symm⟩, .inl hmany⟩
  · next hmany =>
      dsimp only at h
      split at h
      · next hlen =>
          refine ⟨⟨_, (Except.error.inj h).symm⟩, .inr ?_⟩
          have hlength := length_eq_filter_add_count indices
          rw [length_expanded, List.length_replicate] at hlen
          rcases Nat.le_one_iff_eq_zero_or_eq_one.mp (Nat.not_lt.mp hmany) with hcount | hcount
          · rw [hcount] at hlen
            omega
          · rw [hcount] at hlen hlength
            omega
      · cases h

/-- What is promoted addresses the same positions. -/
theorem promote_addresses {idx : Index} {n : ℕ} {d : DimIndexer}
    (h : promote (idx, n) = .ok d) (p : ℤ) : d.Addresses p ↔ idx.Addresses n p := by
  cases idx with
  | int i =>
      obtain rfl := Except.ok.inj h
      rfl
  | dslice s =>
      obtain rfl := Except.ok.inj h
      rfl
  | ellipsis => cases h
  | slice start stop step =>
      cases hcanon : canonicalizeSlice start stop step n with
      | error e =>
          rw [promote, fromSlice, hcanon] at h
          cases h
      | ok r =>
          obtain ⟨first, stride, size⟩ := r
          rw [promote, fromSlice, hcanon] at h
          simp only [ok_bind] at h
          split at h
          · cases h
          · obtain rfl := Except.ok.inj h
            constructor
            · rintro ⟨k, hk, rfl⟩
              exact ⟨first, stride, size, hcanon, k, hk, rfl⟩
            · rintro ⟨first', stride', size', hcanon', k, hk, rfl⟩
              obtain ⟨rfl, rfl, rfl⟩ : first = first' ∧ stride = stride' ∧ size = size' := by
                simpa using hcanon.symm.trans hcanon'
              exact ⟨k, hk, rfl⟩

/-- Only a builtin slice cannot be promoted, when its step is not positive. -/
theorem promote_error {idx : Index} {n : ℕ} {e : IndexingError} (hidx : idx ≠ .ellipsis)
    (h : promote (idx, n) = .error e) : (∃ msg, e = .valueError msg) ∧
      ∃ start stop step, idx = .slice start stop (some step) ∧ step < 1 := by
  cases idx with
  | int i => cases h
  | dslice s => cases h
  | ellipsis => exact absurd rfl hidx
  | slice start stop step =>
      have hstep : step.getD 1 < 1 →
          ∃ start' stop' step', Index.slice start stop step = .slice start' stop' (some step') ∧
            step' < 1 := by
        intro hlt
        cases step with
        | none => exact absurd hlt (by decide)
        | some step => exact ⟨start, stop, step, rfl, hlt⟩
      rw [promote, fromSlice] at h
      cases hcanon : canonicalizeSlice start stop step n with
      | error e' =>
          rw [hcanon] at h
          obtain rfl := Except.error.inj h
          unfold canonicalizeSlice at hcanon
          dsimp only at hcanon
          split at hcanon
          · next hzero => exact ⟨⟨_, (Except.error.inj hcanon).symm⟩, hstep (by omega)⟩
          · cases hcanon
      | ok r =>
          obtain ⟨first, stride, size⟩ := r
          have hstride : stride = step.getD 1 := by
            unfold canonicalizeSlice at hcanon
            dsimp only at hcanon
            split at hcanon
            · cases hcanon
            · exact (congrArg (fun r => r.2.1) (Except.ok.inj hcanon)).symm
          rw [hcanon] at h
          simp only [ok_bind] at h
          split at h
          · next hlt => exact ⟨⟨_, (Except.error.inj h).symm⟩, hstep (hstride ▸ hlt)⟩
          · cases h

theorem promote_eq_int {idx : Index} {n : ℕ} {i : ℤ} (h : promote (idx, n) = .ok (.int i)) :
    idx = .int i := by
  cases idx with
  | int j => exact congrArg Index.int (DimIndexer.int.inj (Except.ok.inj h))
  | dslice s => cases h
  | ellipsis => cases h
  | slice start stop step =>
      rw [promote] at h
      cases hslice : fromSlice start stop step n with
      | error e =>
          rw [hslice] at h
          cases h
      | ok s =>
          rw [hslice] at h
          cases h

theorem checkInt_error {enable_x64 : Bool} {d : DimIndexer} {e : IndexingError}
    (h : checkInt enable_x64 d = .error e) : (∃ msg, e = .overflowError msg) ∧
      ∃ i, d = .int i ∧ (i < -intBound enable_x64 ∨ intBound enable_x64 ≤ i) := by
  cases d with
  | slice s => cases h
  | int i =>
      rw [checkInt] at h
      split at h
      · next hi => exact ⟨⟨_, (Except.error.inj h).symm⟩, i, rfl, hi⟩
      · cases h

theorem validateDim_error {p : DimIndexer × ℕ} {e : IndexingError} (h : validateDim p = .error e) :
    ∃ msg, e = .valueError msg := by
  unfold validateDim at h
  repeat' split at h
  all_goals first
    | cases h; done
    | exact ⟨_, (Except.error.inj h).symm⟩

/-! ## Validation -/

/-- Why an error is raised. -/
inductive Rejected (enable_x64 : Bool) (indices : List Index) (shape : List ℕ) :
    IndexingError → Prop where
  | tooLong {msg} (h : TooLong indices shape.length) :
      Rejected enable_x64 indices shape (.valueError msg)
  | step {msg start stop step} (hmem : .slice start stop (some step) ∈ indices) (h : step < 1) :
      Rejected enable_x64 indices shape (.valueError msg)
  | overflow {msg i} (hmem : .int i ∈ indices)
      (h : i < -intBound enable_x64 ∨ intBound enable_x64 ≤ i) :
      Rejected enable_x64 indices shape (.overflowError msg)
  /-- An index addresses a position outside of its dimension. -/
  | outside {msg ex idx n p} (hex : expandIndices indices shape.length = .ok ex)
      (hmem : (idx, n) ∈ ex.zip shape) (hp : idx.Addresses n p) (h : ¬ Inside p n) :
      Rejected enable_x64 indices shape (.valueError msg)

/-- The promoted indices are checked, as far as they are promoted. -/
def AllChecked (indices : List Index) (shape : List ℕ) : Prop :=
  ∀ ex, expandIndices indices shape.length = .ok ex →
    ∀ idx n d, (idx, n) ∈ ex.zip shape → promote (idx, n) = .ok d → d.Checked n

/-- Each promoted index comes from the index for the same dimension. -/
theorem mem_zip_promoted : ∀ {ex : List Index} {shape : List ℕ} {dims : List DimIndexer},
    List.Forall₂ (fun q d => promote q = .ok d) (ex.zip shape) dims → ∀ {d n},
    (d, n) ∈ dims.zip shape → ∃ idx, (idx, n) ∈ ex.zip shape ∧ promote (idx, n) = .ok d
  | [], _, _, .nil, _, _, hmem => by cases hmem
  | _ :: _, [], _, .nil, _, _, hmem => by cases hmem
  | idx :: ex, n :: shape, d :: dims, .cons hd h, d', n', hmem => by
      rcases List.mem_cons.mp hmem with heq | hmem
      · obtain ⟨rfl, rfl⟩ := Prod.mk.inj heq
        exact ⟨idx, List.mem_cons_self, hd⟩
      · obtain ⟨idx', hidx, hd'⟩ := mem_zip_promoted h hmem
        exact ⟨idx', List.mem_cons_of_mem _ hidx, hd'⟩

theorem inside_of_dims : ∀ {dims : List DimIndexer} {shape : List ℕ} {pos : List ℤ},
    dims.length = shape.length →
    (∀ d n, (d, n) ∈ dims.zip shape → ∀ p, d.Addresses p → Inside p n) →
    List.Forall₂ DimIndexer.Addresses dims pos → List.Forall₂ Inside pos shape
  | [], [], [], _, _, .nil => .nil
  | d :: _, n :: _, p :: _, hlen, h, .cons hp hpos =>
      .cons (h d n List.mem_cons_self p hp)
        (inside_of_dims (Nat.succ.inj hlen) (fun d' n' hmem => h d' n' (List.mem_cons_of_mem _ hmem))
          hpos)

theorem positions_iff : ∀ {qs : List (Index × ℕ)} {dims : List DimIndexer},
    List.Forall₂ (fun q d => promote q = .ok d) qs dims → ∀ {pos : List ℤ},
    List.Forall₂ DimIndexer.Addresses dims pos ↔
      List.Forall₂ (fun q p => q.1.Addresses q.2 p) qs pos
  | [], [], .nil, pos => by
      constructor
      · rintro ⟨⟩
        exact .nil
      · rintro ⟨⟩
        exact .nil
  | q :: qs, d :: dims, .cons hd h, pos => by
      constructor
      · rintro (- | ⟨hp, hpos⟩)
        exact .cons ((promote_addresses hd _).mp hp) ((positions_iff h).mp hpos)
      · rintro (- | ⟨hp, hpos⟩)
        exact .cons ((promote_addresses hd _).mpr hp) ((positions_iff h).mpr hpos)

/-- What `from_indices_shape` does with a ref and a tuple of indices. -/
structure Validates (enable_x64 : Bool) (indices : List Index) (shape : List ℕ) : Prop where
  returned : ∀ ix, fromIndicesShape enable_x64 indices shape = .ok ix →
    (∃ ex, expandIndices indices shape.length = .ok ex ∧ ∀ pos, pos ∈ ix.positions ↔
      List.Forall₂ (fun q p => q.1.Addresses q.2 p) (ex.zip shape) pos) ∧
    ∀ pos ∈ ix.positions, List.Forall₂ Inside pos shape
  raised : ∀ e, fromIndicesShape enable_x64 indices shape = .error e →
    Rejected enable_x64 indices shape e

end JaxDas.RefIndexing
