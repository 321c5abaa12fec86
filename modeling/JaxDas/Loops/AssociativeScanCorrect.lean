import JaxDas.Loops.AssociativeScan

/-!
# What `associative_scan` computes

At the odd positions the scan of the sums of pairs, at the even ones that with one more element: both
are folds of the first elements.
-/

namespace JaxDas.AssociativeScan

variable {E : Type}

/-- `fn(fn(fn(a, b), c), ...)`. -/
def leftFold {A : Type} (fn : A → A → A) : List A → Option A
  | [] => none
  | a :: l => some (l.foldl fn a)

/-- The fold of the columns up to one. -/
def prefixFold (fn : List E → List E → List E) (elems : List (List E)) : ℕ → List E
  | 0 => column 0 elems
  | k + 1 => fn (prefixFold fn elems k) (column (k + 1) elems)

theorem leftFold_take {fn : List E → List E → List E} {elems : List (List E)} {n : ℕ} : ∀ {k : ℕ},
    k < n → leftFold fn ((columns n elems).take (k + 1)) = some (prefixFold fn elems k) := by
  have htake : ∀ {k : ℕ}, k < n → (columns n elems).take (k + 1) =
      (List.range (k + 1)).map fun i => column i elems := by
    intro k hk
    rw [columns, ← List.map_take, List.take_range, Nat.min_eq_left hk]
  intro k hk
  rw [htake hk]
  have hfold : ∀ j : ℕ, ((List.range j).map fun i => column (i + 1) elems).foldl fn
      (column 0 elems) = prefixFold fn elems j := by
    intro j
    induction j with
    | zero => rfl
    | succ j ih =>
        rw [List.range_succ, List.map_append, List.foldl_append, ih]
        rfl
  rw [List.range_succ_eq_map, List.map_cons, List.map_map, leftFold]
  exact congrArg some (hfold k)

/-- A function on elements of `m` parts that is associative. -/
structure AssociativeOn (m : ℕ) (fn : List E → List E → List E) : Prop where
  length : ∀ a b : List E, a.length = m → b.length = m → (fn a b).length = m
  assoc : ∀ a b c : List E, a.length = m → b.length = m → c.length = m →
    fn a (fn b c) = fn (fn a b) c

variable {fn : List E → List E → List E} {m : ℕ}

theorem numElems_eq (hm : 0 < m) {n : ℕ} {elems : List (List E)} (h : Rect m n elems) :
    numElems elems = n := by
  cases elems with
  | nil =>
      have := h.length
      simp only [List.length_nil] at this
      omega
  | cons elem elems => exact h.row elem List.mem_cons_self

theorem combine_spec (hm : 0 < m) (hfn : AssociativeOn m fn) {n n' : ℕ} {a b : List (List E)}
    (ha : Rect m n a) (hb : Rect m n' b) (hn : n ≤ n') : Rect m n (combine fn a b) ∧
      ∀ k < n, column k (combine fn a b) = fn (column k a) (column k b) := by
  rw [combine, ha.length, numElems_eq hm ha]
  refine ofColumns_spec fun k hk => ?_
  exact hfn.length _ _ (length_column ha hk) (length_column hb (by omega))

theorem length_prefixFold (hfn : AssociativeOn m fn) {n : ℕ} {elems : List (List E)}
    (h : Rect m n elems) : ∀ {k : ℕ}, k < n → (prefixFold fn elems k).length = m
  | 0, hk => length_column h hk
  | _ + 1, hk => hfn.length _ _ (length_prefixFold hfn h (Nat.lt_of_succ_lt hk)) (length_column h hk)

/-- The fold of pairs is every second fold. -/
theorem prefixFold_pairs (hfn : AssociativeOn m fn) {n : ℕ} {elems pairs : List (List E)}
    (h : Rect m n elems)
    (hpairs : ∀ j, 2 * j + 1 < n → column j pairs = fn (column (2 * j) elems)
      (column (2 * j + 1) elems)) : ∀ {j : ℕ}, 2 * j + 1 < n →
        prefixFold fn pairs j = prefixFold fn elems (2 * j + 1)
  | 0, hj => hpairs 0 hj
  | j + 1, hj => by
      have ih := prefixFold_pairs hfn h hpairs (by omega : 2 * j + 1 < n)
      have hassoc := hfn.assoc (prefixFold fn elems (2 * j + 1)) (column (2 * j + 2) elems)
        (column (2 * j + 3) elems) (length_prefixFold hfn h (by omega))
        (length_column h (by omega)) (length_column h (by omega))
      rw [prefixFold, ih, hpairs (j + 1) hj]
      exact hassoc

theorem scan_spec (hm : 0 < m) (hfn : AssociativeOn m fn) {dtypes : List (DType E)}
    (hlen : dtypes.length = m) (hd : ∀ d ∈ dtypes, d.Lawful) : ∀ (n : ℕ) {elems : List (List E)},
      Rect m n elems → ∃ out, scan fn dtypes elems = .ok out ∧ Rect m n out ∧
        ∀ k < n, column k out = prefixFold fn elems k := by
  intro n
  induction n using Nat.strongRecOn with
  | ind n ih =>
      intro elems h
      have hnum := numElems_eq hm h
      rw [scan]
      simp only [hnum]
      by_cases hbase : n < 2
      · rw [if_pos hbase]
        refine ⟨elems, rfl, h, fun k hk => ?_⟩
        obtain rfl : k = 0 := by omega
        rfl
      rw [if_neg hbase]
      -- the sums of pairs
      have hfirst := rect_slices h 0 (by omega : 0 < 2) (by omega : n - 1 ≤ n)
      have hsecond := rect_slices h 1 (by omega : 0 < 2) (Nat.le_refl n)
      obtain ⟨hreduced, hpairs⟩ := combine_spec hm hfn hfirst hsecond (by omega)
      have hhalf : (n - 1 - 0 + (2 - 1)) / 2 = n / 2 := by omega
      rw [hhalf] at hreduced hpairs
      have hpairs' : ∀ j, 2 * j + 1 < n →
          column j (combine fn (sliceAll 0 (n - 1) 2 elems) (sliceAll 1 n 2 elems)) =
            fn (column (2 * j) elems) (column (2 * j + 1) elems) := by
        intro j hj
        rw [hpairs j (by omega), column_slices h (by omega) (by omega) (by omega),
          column_slices h (by omega) (by omega) (by omega), Nat.zero_add, Nat.add_comm 1,
          Nat.mul_comm j]
      obtain ⟨odd, hscan, hodd, hfold⟩ := ih (n / 2) (by omega) hreduced
      rw [hscan, ok_bind]
      have hodds : ∀ j < n / 2, column j odd = prefixFold fn elems (2 * j + 1) := by
        intro j hj
        rw [hfold j hj]
        exact prefixFold_pairs hfn h hpairs' (by omega)
      -- one more element
      have hthird := rect_slices h 2 (by omega : 0 < 2) (Nat.le_refl n)
      have hthirds : ∀ k < (n - 1) / 2, column k (sliceAll 2 n 2 elems) =
          column (2 * k + 2) elems := by
        intro k hk
        rw [column_slices h (by omega) (Nat.le_refl n) (by omega)]
        congr 1
        omega
      have heven : ∃ even, (if n % 2 = 0 then
          combine fn (sliceAll 0 (numElems odd - 1) 1 odd) (sliceAll 2 n 2 elems)
          else combine fn odd (sliceAll 2 n 2 elems)) = even ∧ Rect m ((n - 1) / 2) even ∧
            ∀ k < (n - 1) / 2, column k even = prefixFold fn elems (2 * k + 2) := by
        rw [numElems_eq hm hodd]
        have hstep : ∀ k < (n - 1) / 2, fn (column k odd) (column k (sliceAll 2 n 2 elems)) =
            prefixFold fn elems (2 * k + 2) := by
          intro k hk
          rw [hodds k (by omega), hthirds k hk]
          rfl
        by_cases hparity : n % 2 = 0
        · rw [if_pos hparity]
          have hinit := rect_slices hodd 0 (by omega : 0 < 1) (by omega : n / 2 - 1 ≤ n / 2)
          obtain ⟨hrect, hcolumn⟩ := combine_spec hm hfn hinit hthird (by omega)
          have hsize : (n / 2 - 1 - 0 + (1 - 1)) / 1 = (n - 1) / 2 := by omega
          rw [hsize] at hrect hcolumn
          refine ⟨_, rfl, hrect, fun k hk => ?_⟩
          rw [hcolumn k hk, column_slices hodd (by omega) (by omega) (by omega), Nat.zero_add,
            Nat.mul_one]
          exact hstep k hk
        · rw [if_neg hparity]
          obtain ⟨hrect, hcolumn⟩ := combine_spec hm hfn hodd hthird (by omega)
          have hsize : n / 2 = (n - 1) / 2 := by omega
          rw [hsize] at hrect hcolumn
          exact ⟨_, rfl, hrect, fun k hk => (hcolumn k hk).trans (hstep k hk)⟩
      obtain ⟨even, heq, heven, hevens⟩ := heven
      rw [heq]
      -- the first element, and the two lists in turn
      have hfront : ∀ x : List E, x.length = n → (sliceInDim 0 1 1 x).length = 1 ∧
          (sliceInDim 0 1 1 x)[0]? = x[0]? := by
        intro x hx
        obtain ⟨hone, hget⟩ := sliceInDim_spec hx 0 (by omega : 0 < 1) (by omega : 1 ≤ n)
        exact ⟨hone, hget 0 (by omega)⟩
      have hcat : Rect m ((n - 1) / 2 + 1)
          (List.zipWith (fun elem result => sliceInDim 0 1 1 elem ++ result) elems even) := by
        refine h.zipWith heven fun x y hx hy => ?_
        rw [List.length_append, (hfront x hx).1, hy, Nat.add_comm]
      have hcat0 : column 0 (List.zipWith (fun elem result => sliceInDim 0 1 1 elem ++ result)
          elems even) = column 0 elems := by
        refine column_zipWith_left (h.length.trans heven.length.symm) fun x hx y _ => ?_
        obtain ⟨hone, hget⟩ := hfront x (h.row x hx)
        rw [List.getElem?_append_left (by omega), hget]
      have hcat1 : ∀ k, column (k + 1) (List.zipWith (fun elem result =>
          sliceInDim 0 1 1 elem ++ result) elems even) = column k even := by
        intro k
        refine column_zipWith_right (h.length.trans heven.length.symm) fun x hx y _ => ?_
        rw [List.getElem?_append_right (by rw [(hfront x (h.row x hx)).1]; omega),
          (hfront x (h.row x hx)).1, Nat.add_sub_cancel]
      rw [interleaveAll_spec (by omega : 0 < n / 2) (by omega) hlen hd hcat hodd]
      have hweave : ∀ x y : List E, x.length = (n - 1) / 2 + 1 → y.length = n / 2 →
          (weave x y).length = n ∧ ∀ k, (weave x y)[2 * k]? = x[k]? ∧
            (weave x y)[2 * k + 1]? = y[k]? := by
        intro x y hx hy
        obtain ⟨hlen, hget⟩ := weave_spec (by omega : x.length = y.length ∨ x.length = y.length + 1)
        exact ⟨by omega, hget⟩
      refine ⟨_, rfl, hcat.zipWith hodd fun x y hx hy => (hweave x y hx hy).1, fun k hk => ?_⟩
      have hsame := hcat.length.trans hodd.length.symm
      obtain ⟨j, rfl | rfl⟩ : ∃ j, k = 2 * j ∨ k = 2 * j + 1 := ⟨k / 2, by omega⟩
      · have hcolumn := column_zipWith_left hsame fun x hx y hy =>
          ((hweave x y (hcat.row x hx) (hodd.row y hy)).2 j).1
        rw [hcolumn]
        cases j with
        | zero => exact hcat0
        | succ j =>
            rw [hcat1, hevens j (by omega)]
            rfl
      · have hcolumn := column_zipWith_right hsame fun x hx y hy =>
          ((hweave x y (hcat.row x hx) (hodd.row y hy)).2 j).2
        rw [hcolumn]
        exact hodds j (by omega)

/-! ## Reversed -/

theorem column_reverse {n k : ℕ} {elems : List (List E)} (h : Rect m n elems) (hk : k < n) :
    column k (elems.map List.reverse) = column (n - 1 - k) elems := by
  refine column_map fun row hrow => ?_
  rw [List.getElem?_reverse (by rw [h.row row hrow]; exact hk), h.row row hrow]

theorem columns_reverse {n : ℕ} {elems : List (List E)} (h : Rect m n elems) :
    columns n (elems.map List.reverse) = (columns n elems).reverse := by
  refine List.ext_getElem (by simp [columns]) fun k hk _ => ?_
  have hk : k < n := by simpa [columns] using hk
  simp only [columns, List.getElem_map, List.getElem_range, List.getElem_reverse, List.length_map,
    List.length_range]
  exact column_reverse h hk

/-- Arrays of one length pass the check, and what `_scan` returns is turned round again. -/
theorem associativeScan_ok {fn : List E → List E → List E} {dtypes : List (DType E)} {m n : ℕ}
    (hm : 0 < m) {elems scanned out : List (List E)} {reverse : Bool}
    (helems : (if reverse then elems.map List.reverse else elems) = scanned)
    (h : Rect m n scanned) (hscan : scan fn dtypes scanned = .ok out) :
    associativeScan fn dtypes elems reverse =
      .ok (if reverse then out.map List.reverse else out) := by
  unfold associativeScan
  simp only [helems]
  cases scanned with
  | nil =>
      have := h.length
      simp only [List.length_nil] at this
      omega
  | cons first rest =>
      have hall : (rest.all fun elem => elem.length = first.length) = true := by
        refine List.all_eq_true.mpr fun elem helem => decide_eq_true ?_
        rw [h.row elem (List.mem_cons_of_mem _ helem), h.row first List.mem_cons_self]
      simp only [hall, if_true, hscan, ok_bind]

/-- `x ↦ a * x + b` after another. -/
def affine (f g : List ℕ) : List ℕ :=
  [f.getD 0 0 * g.getD 0 0, f.getD 1 0 * g.getD 0 0 + g.getD 1 0]

end JaxDas.AssociativeScan
