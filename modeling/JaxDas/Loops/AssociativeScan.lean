import JaxDas.Lib.Columns
import JaxDas.Lib.Fallible

/-!
# `associative_scan`

The arrays of `elems` are given by their parts along `axis`, so that an element is a column of the
table that they make.
-/

namespace JaxDas.AssociativeScan

variable {E : Type}

/-- The dtype of an array: the zero that it is padded with, and `lax.bitwise_or` for booleans or
`lax.add`. -/
structure DType (E : Type) where
  zero : E
  op : E → E → E

/-- Nothing is added by the padding. -/
structure DType.Lawful (d : DType E) : Prop where
  op_zero : ∀ x, d.op x d.zero = x
  zero_op : ∀ x, d.op d.zero x = x

inductive ScanError where
  | indexError
  | valueError
  | assertionError
deriving DecidableEq, Repr

/-- `slice_in_dim(elem, start, limit, stride, axis)`, with the limit counted from the front. -/
def sliceInDim (start limit stride : ℕ) (elem : List E) : List E :=
  (List.range ((limit - start + (stride - 1)) / stride)).filterMap fun k => elem[start + k * stride]?

/-- `[slice_in_dim(elem, start, limit, stride, axis) for elem in elems]`. -/
def sliceAll (start limit stride : ℕ) (elems : List (List E)) : List (List E) :=
  elems.map (sliceInDim start limit stride)

/-- Zeros between the elements. -/
def spread (zero : E) : List E → List E
  | [] => []
  | [x] => [x]
  | x :: y :: l => x :: zero :: spread zero (y :: l)

/-- `lax.pad(a, 0, [(low, high, 1)])`. -/
def pad (zero : E) (low high : ℕ) (a : List E) : List E :=
  List.replicate low zero ++ spread zero a ++ List.replicate high zero

/-- `_interleave`. -/
def interleave (d : DType E) (a b : List E) : Except ScanError (List E) :=
  if a.length = b.length ∨ a.length = b.length + 1 then
    let a_pad := pad d.zero 0 (if a.length = b.length then 1 else 0) a
    let b_pad := pad d.zero 1 (if a.length = b.length then 0 else 1) b
    .ok (List.zipWith d.op a_pad b_pad)
  else .error .assertionError

/-- `list(_map(partial(_interleave, axis=axis), even_elems, odd_elems))`. -/
def interleaveAll : List (DType E) → List (List E) → List (List E) → Except ScanError (List (List E))
  | d :: dtypes, a :: even_elems, b :: odd_elems => do
      let x ← interleave d a b
      let xs ← interleaveAll dtypes even_elems odd_elems
      .ok (x :: xs)
  | _, _, _ => .ok []

/-- `elems[0].shape[axis]`. -/
def numElems (elems : List (List E)) : ℕ := (elems.headD []).length

/-- `combine`: `fn` is applied to the elements one by one. -/
def combine (fn : List E → List E → List E) (a b : List (List E)) : List (List E) :=
  ofColumns a.length (numElems a) fun k => fn (column k a) (column k b)

theorem numElems_ofColumns_le (m n : ℕ) (f : ℕ → List E) : numElems (ofColumns m n f) ≤ n := by
  cases m with
  | zero => exact Nat.zero_le n
  | succ m =>
      rw [numElems, ofColumns, List.range_succ_eq_map, List.map_cons, List.headD_cons]
      exact (List.length_filterMap_le _ _).trans (le_of_eq List.length_range)

theorem length_sliceInDim_le (start limit stride : ℕ) (elem : List E) :
    (sliceInDim start limit stride elem).length ≤ (limit - start + (stride - 1)) / stride :=
  (List.length_filterMap_le _ _).trans (le_of_eq List.length_range)

/-- `_scan`. -/
def scan (fn : List E → List E → List E) (dtypes : List (DType E)) (elems : List (List E)) :
    Except ScanError (List (List E)) :=
  let num_elems := numElems elems
  if num_elems < 2 then .ok elems
  else do
    let reduced_elems := combine fn (sliceAll 0 (num_elems - 1) 2 elems)
      (sliceAll 1 num_elems 2 elems)
    let odd_elems ← scan fn dtypes reduced_elems
    let even_elems :=
      if num_elems % 2 = 0 then
        combine fn (sliceAll 0 (numElems odd_elems - 1) 1 odd_elems) (sliceAll 2 num_elems 2 elems)
      else combine fn odd_elems (sliceAll 2 num_elems 2 elems)
    let even_elems := List.zipWith (fun elem result => sliceInDim 0 1 1 elem ++ result) elems even_elems
    interleaveAll dtypes even_elems odd_elems
termination_by numElems elems
decreasing_by
  refine Nat.lt_of_le_of_lt (numElems_ofColumns_le _ _ _) ?_
  have hle : numElems (sliceAll 0 (numElems elems - 1) 2 elems) ≤
      (numElems elems - 1 - 0 + (2 - 1)) / 2 := by
    cases elems with
    | nil => exact Nat.zero_le _
    | cons elem elems => exact length_sliceInDim_le _ _ _ _
  omega

/-- `associative_scan`. -/
def associativeScan (fn : List E → List E → List E) (dtypes : List (DType E))
    (elems : List (List E)) (reverse : Bool) : Except ScanError (List (List E)) := do
  let elems := if reverse then elems.map List.reverse else elems
  match elems with
  | [] => .error .indexError
  | first :: rest =>
      if rest.all fun elem => elem.length = first.length then do
        let scans ← scan fn dtypes elems
        .ok (if reverse then scans.map List.reverse else scans)
      else .error .valueError

/-! ## Slices -/

theorem sliceInDim_spec {elem : List E} {n : ℕ} (hlen : elem.length = n) (start : ℕ)
    {limit stride : ℕ} (hstride : 0 < stride) (hlimit : limit ≤ n) :
    (sliceInDim start limit stride elem).length = (limit - start + (stride - 1)) / stride ∧
      ∀ k < (limit - start + (stride - 1)) / stride,
        (sliceInDim start limit stride elem)[k]? = elem[start + k * stride]? := by
  refine getElem?_filterMap_range fun k hk => ?_
  have hmul : (k + 1) * stride ≤ limit - start + (stride - 1) :=
    (Nat.le_div_iff_mul_le hstride).mp hk
  rw [Nat.succ_mul] at hmul
  rw [List.getElem?_eq_getElem (by omega)]
  rfl

theorem column_slices {m n start limit stride k : ℕ} {elems : List (List E)} (h : Rect m n elems)
    (hstride : 0 < stride) (hlimit : limit ≤ n) (hk : k < (limit - start + (stride - 1)) / stride) :
    column k (sliceAll start limit stride elems) = column (start + k * stride) elems :=
  column_map fun row hrow => (sliceInDim_spec (h.row row hrow) start hstride hlimit).2 k hk

theorem rect_slices {m n : ℕ} {elems : List (List E)} (h : Rect m n elems) (start : ℕ)
    {limit stride : ℕ} (hstride : 0 < stride) (hlimit : limit ≤ n) :
    Rect m ((limit - start + (stride - 1)) / stride) (sliceAll start limit stride elems) :=
  h.map fun _ hrow => (sliceInDim_spec hrow start hstride hlimit).1

/-! ## Interleaving -/

/-- The elements of two lists in turn. -/
def weave : List E → List E → List E
  | x :: a, y :: b => x :: y :: weave a b
  | a, _ => a

theorem zipWith_pad {d : DType E} (hd : d.Lawful) : ∀ {b a : List E}, b ≠ [] →
    (a.length = b.length → List.zipWith d.op (spread d.zero a ++ [d.zero])
      (d.zero :: spread d.zero b) = weave a b) ∧
    (a.length = b.length + 1 → List.zipWith d.op (spread d.zero a)
      (d.zero :: (spread d.zero b ++ [d.zero])) = weave a b) := by
  intro b
  induction b with
  | nil => intro a h; exact absurd rfl h
  | cons y b ih =>
      intro a _
      cases b with
      | nil =>
          refine ⟨fun hlen => ?_, fun hlen => ?_⟩
          · obtain ⟨x, rfl⟩ := List.length_eq_one_iff.mp hlen
            simp [spread, weave, hd.op_zero, hd.zero_op]
          · obtain ⟨x, z, rfl⟩ := List.length_eq_two.mp hlen
            simp [spread, weave, hd.op_zero, hd.zero_op]
      | cons w b =>
          have ih := fun a => @ih a (by simp)
          refine ⟨fun hlen => ?_, fun hlen => ?_⟩
          · match a, hlen with
            | x :: z :: a, hlen =>
                have htail := (ih (z :: a)).1 (by simpa using hlen)
                simp only [spread, List.cons_append, List.zipWith_cons_cons, hd.op_zero, hd.zero_op,
                  weave] at htail ⊢
                rw [htail]
          · match a, hlen with
            | x :: z :: a, hlen =>
                have htail := (ih (z :: a)).2 (by simpa using hlen)
                simp only [spread, List.cons_append, List.zipWith_cons_cons, hd.op_zero, hd.zero_op,
                  weave] at htail ⊢
                rw [htail]

theorem interleave_eq {d : DType E} (hd : d.Lawful) {a b : List E} (hb : b ≠ [])
    (hlen : a.length = b.length ∨ a.length = b.length + 1) : interleave d a b = .ok (weave a b) := by
  obtain ⟨heq, hsucc⟩ := zipWith_pad hd (a := a) hb
  rw [interleave, if_pos hlen]
  rcases hlen with h | h
  · simp only [pad, if_pos h, List.replicate_zero, List.nil_append, List.append_nil,
      List.replicate_one, List.singleton_append]
    rw [heq h]
  · have hne : a.length ≠ b.length := by omega
    simp only [pad, if_neg hne, List.replicate_zero, List.nil_append, List.append_nil,
      List.replicate_one, List.cons_append]
    rw [hsucc h]

theorem weave_spec : ∀ {a b : List E}, (a.length = b.length ∨ a.length = b.length + 1) →
    (weave a b).length = a.length + b.length ∧ ∀ k, (weave a b)[2 * k]? = a[k]? ∧
      (weave a b)[2 * k + 1]? = b[k]?
  | [], [], _ => ⟨rfl, fun k => ⟨rfl, rfl⟩⟩
  | [x], [], _ => by
      refine ⟨rfl, fun k => ?_⟩
      cases k with
      | zero => exact ⟨rfl, rfl⟩
      | succ k => exact ⟨rfl, rfl⟩
  | x :: a, y :: b, h => by
      obtain ⟨hlen, hget⟩ := weave_spec (a := a) (b := b) (by simpa using h)
      refine ⟨?_, fun k => ?_⟩
      · rw [weave, List.length_cons, List.length_cons, hlen, List.length_cons, List.length_cons]
        omega
      · cases k with
        | zero => exact ⟨rfl, rfl⟩
        | succ k => exact hget k
  | x :: z :: a, [], h => by simp at h
  | [], y :: b, h => by simp at h

theorem interleaveAll_spec {m na nb : ℕ} (hnb : 0 < nb) (hn : na = nb ∨ na = nb + 1) :
    ∀ {dtypes : List (DType E)} {a b : List (List E)}, dtypes.length = m →
      (∀ d ∈ dtypes, d.Lawful) → Rect m na a → Rect m nb b →
        interleaveAll dtypes a b = .ok (List.zipWith weave a b) := by
  intro dtypes
  induction dtypes generalizing m with
  | nil =>
      intro a b hm _ ha _
      obtain rfl := hm
      obtain rfl := List.eq_nil_of_length_eq_zero ha.length
      rfl
  | cons d dtypes ih =>
      intro a b hm hd ha hb
      obtain rfl := hm
      match a, b, ha, hb with
      | x :: a, y :: b, ha, hb =>
          have hx := ha.row x List.mem_cons_self
          have hy := hb.row y List.mem_cons_self
          have ha' : Rect dtypes.length na a := ⟨Nat.succ.inj ha.length, fun r hr =>
            ha.row r (List.mem_cons_of_mem _ hr)⟩
          have hb' : Rect dtypes.length nb b := ⟨Nat.succ.inj hb.length, fun r hr =>
            hb.row r (List.mem_cons_of_mem _ hr)⟩
          have hne : y ≠ [] := by
            intro h
            rw [h] at hy
            simp only [List.length_nil] at hy
            omega
          have hfirst := interleave_eq (hd d List.mem_cons_self) (a := x) hne (by omega)
          have hrest := ih rfl (fun d' hd' => hd d' (List.mem_cons_of_mem _ hd')) ha' hb'
          rw [interleaveAll, hfirst, ok_bind, hrest, ok_bind, List.zipWith_cons_cons]
      | [], _, ha, _ => exact absurd ha.length (by simp)
      | _ :: _, [], _, hb => exact absurd hb.length (by simp)

end JaxDas.AssociativeScan
