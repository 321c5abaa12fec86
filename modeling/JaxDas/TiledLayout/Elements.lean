import JaxDas.TiledLayout.Matching

/-!
# The elements of a thread

What `ThreadIdxs` computes depends on little: the address of a thread is a sum over the
dimensions that are given to warps and lanes, in which dimensions of size one do not
count, and the addresses of its registers depend on the dimensions that are not taken
and not of size one.
-/

namespace JaxDas.TiledLayout

/-! ## The address of a thread -/

theorem dot_set : ∀ {xs ss : List ℤ} {k : ℕ} {v : ℤ}, xs.length = ss.length → k < xs.length →
    xs.getD k 0 = 0 → dot (xs.set k v) ss = dot xs ss + v * ss.getD k 0
  | [], _, _, _, _, hk, _ => absurd hk (by simp)
  | _ :: _, [], _, _, hlen, _, _ => absurd hlen (by simp)
  | x :: xs, s :: ss, 0, v, _, _, hzero => by
      obtain rfl : x = 0 := by simpa using hzero
      simp
      ring
  | x :: xs, s :: ss, k + 1, v, hlen, hk, hzero => by
      have ih := dot_set (k := k) (v := v) (Nat.succ.inj hlen) (by simpa using hk)
        (by simpa using hzero)
      rw [List.set_cons_succ, dot_cons, dot_cons, ih, List.getD_cons_succ]
      ring

theorem dot_replicate_zero : ∀ (n : ℕ) (ss : List ℤ), dot (List.replicate n 0) ss = 0
  | 0, _ => rfl
  | n + 1, [] => by simp [dot]
  | n + 1, s :: ss => by
      rw [List.replicate_succ, dot_cons, dot_replicate_zero n ss]
      simp

theorem length_contiguousStrides : ∀ shape : List ℤ,
    (contiguousStrides shape).length = shape.length
  | [] => rfl
  | _ :: shape => by
      rw [contiguousStrides, List.length_cons, List.length_cons, length_contiguousStrides shape]

/-- What the index along a dimension adds to the address of a thread. -/
def indexOffset (ss : List ℤ) : Dim × ℤ → ℤ
  | (.replicated _, _) => 0
  | (.dim d, dimIdx) => dimIdx * fromEnd ss d

/-- A dimension of an array of rank `n`, counted from the end. -/
def InRange (n : ℕ) (d : ℤ) : Prop := -n ≤ d ∧ d < 0

theorem InRange.toNat_lt {n : ℕ} {d : ℤ} (h : InRange n d) : (d + n).toNat < n := by
  unfold InRange at h
  omega

theorem setIndex_length (xs : List ℤ) (p : Dim × ℤ) : (setIndex xs p).length = xs.length := by
  rcases p with ⟨d | _, i⟩
  · simp [setIndex]
  · rfl

/-- Writes to different dimensions add up. -/
theorem dot_foldl_setIndex {ss : List ℤ} : ∀ {ps : List (Dim × ℤ)} {xs : List ℤ},
    xs.length = ss.length → (partitionedDims (ps.map Prod.fst)).Nodup →
      (∀ d ∈ partitionedDims (ps.map Prod.fst), InRange ss.length d ∧ fromEnd xs d = 0) →
      dot (ps.foldl setIndex xs) ss = dot xs ss + (ps.map (indexOffset ss)).sum
  | [], _, _, _, _ => by simp
  | (.replicated t, i) :: ps, xs, hlen, hnodup, hps => by
      have ih := @dot_foldl_setIndex ss ps _ hlen (by simpa [partitionedDims] using hnodup)
        (by simpa [partitionedDims] using hps)
      rw [List.foldl_cons, setIndex, ih]
      simp [indexOffset]
  | (.dim d, i) :: ps, xs, hlen, hnodup, hps => by
      have hcons : partitionedDims (((.dim d, i) :: ps).map Prod.fst) =
          d :: partitionedDims (ps.map Prod.fst) := by simp [partitionedDims]
      rw [hcons] at hnodup hps
      obtain ⟨hd, hnodup⟩ := List.nodup_cons.mp hnodup
      obtain ⟨⟨hrange, hzero⟩, hps⟩ := List.forall_mem_cons.mp hps
      have hk : (d + xs.length).toNat < xs.length := hlen ▸ hrange.toNat_lt
      -- the dimensions still to come are others
      have hrest : ∀ d' ∈ partitionedDims (ps.map Prod.fst), InRange ss.length d' ∧
          fromEnd (xs.set (d + xs.length).toNat i) d' = 0 := by
        intro d' hd'
        obtain ⟨hrange', hzero'⟩ := hps d' hd'
        refine ⟨hrange', ?_⟩
        have hne : (d + xs.length).toNat ≠ (d' + xs.length).toNat := by
          have : d ≠ d' := fun h => hd (h ▸ hd')
          unfold InRange at hrange hrange'
          omega
        rw [fromEnd, List.length_set, List.getD_eq_getElem?_getD, List.getElem?_set_ne hne,
          ← List.getD_eq_getElem?_getD]
        exact hzero'
      have ih := @dot_foldl_setIndex ss ps (xs.set (d + xs.length).toNat i) (by simpa using hlen)
        hnodup hrest
      rw [List.foldl_cons, setIndex, ih, dot_set hlen hk hzero, List.map_cons, List.sum_cons,
        indexOffset, fromEnd, hlen]
      ring

/-- The address that the indices of a warp or lane add up to. -/
def threadOffset (size stride : Dim → ℤ) (idx : ℤ) : List Dim → ℤ
  | [] => 0
  | d :: dims =>
      idx / u32 (dims.map size).prod % u32 (size d) * stride d + threadOffset size stride idx dims

/-- The stride of a dimension; copies have none. -/
def dimStride (ss : List ℤ) : Dim → ℤ
  | .replicated _ => 0
  | .dim d => fromEnd ss d

theorem sum_indexOffset (size : Dim → ℤ) (ss : List ℤ) (idx : ℤ) : ∀ dims : List Dim,
    ((dims.zip (dimsIndices idx (dims.map size))).map (indexOffset ss)).sum =
      threadOffset size (dimStride ss) idx dims
  | [] => rfl
  | d :: dims => by
      have ih := sum_indexOffset size ss idx dims
      unfold dimsIndices at ih ⊢
      rw [List.map_cons, contiguousStrides, List.zipWith_cons_cons, List.zip_cons_cons,
        List.map_cons, List.sum_cons, ih, threadOffset]
      cases d with
      | dim k => rfl
      | replicated times => simp [indexOffset, dimStride]

/-- **The address of a warp or lane.** -/
theorem dot_delinearizeIndex {tiledShape ss : List ℤ} {dims : List Dim} (idx : ℤ)
    (hlen : tiledShape.length = ss.length) (hnodup : (partitionedDims dims).Nodup)
    (hrange : ∀ d ∈ partitionedDims dims, InRange ss.length d) :
    dot (delinearizeIndex tiledShape idx dims) ss =
      threadOffset (dimSize tiledShape) (dimStride ss) idx dims := by
  have hmap : (dims.zip (dimsIndices idx (dims.map (dimSize tiledShape)))).map Prod.fst = dims := by
    refine List.map_fst_zip ?_
    simp [dimsIndices, length_contiguousStrides]
  rw [delinearizeIndex, dot_foldl_setIndex (by simpa using hlen) (by rwa [hmap]), sum_indexOffset,
    dot_replicate_zero, Int.zero_add]
  intro d hd
  rw [hmap] at hd
  refine ⟨hrange d hd, ?_⟩
  rw [fromEnd, List.getD_eq_getElem?_getD, List.getElem?_replicate]
  split <;> rfl

section Renumber

variable {size size' : Dim → ℤ} {f : Dim → Dim} {keep : Dim → Bool}

/-- Sizes of one are gone, and the others are renumbered. -/
theorem prod_renumber : ∀ {dims : List Dim},
    (∀ d ∈ dims, keep d = true → size' (f d) = size d) →
    (∀ d ∈ dims, keep d = false → size d = 1) →
      (((dims.filter keep).map f).map size').prod = (dims.map size).prod
  | [], _, _ => rfl
  | d :: dims, hkeep, hone => by
      obtain ⟨hd, hkeep⟩ := List.forall_mem_cons.mp hkeep
      obtain ⟨hd', hone⟩ := List.forall_mem_cons.mp hone
      have ih := prod_renumber hkeep hone
      cases hk : keep d with
      | true =>
          rw [List.filter_cons_of_pos hk, List.map_cons, List.map_cons, List.prod_cons, hd hk,
            List.map_cons, List.prod_cons, ih]
      | false =>
          rw [List.filter_cons_of_neg (by simp [hk]), List.map_cons, List.prod_cons, hd' hk, ih,
            one_mul]

theorem threadOffset_renumber {stride stride' : Dim → ℤ} (idx : ℤ) : ∀ {dims : List Dim},
    (∀ d ∈ dims, keep d = true → size' (f d) = size d) →
    (∀ d ∈ dims, keep d = true → stride' (f d) = stride d) →
    (∀ d ∈ dims, keep d = false → size d = 1) →
      threadOffset size' stride' idx ((dims.filter keep).map f) =
        threadOffset size stride idx dims
  | [], _, _, _ => rfl
  | d :: dims, hsize, hstride, hone => by
      obtain ⟨hd, hsize⟩ := List.forall_mem_cons.mp hsize
      obtain ⟨hd', hstride⟩ := List.forall_mem_cons.mp hstride
      obtain ⟨hone', hone⟩ := List.forall_mem_cons.mp hone
      have ih := threadOffset_renumber idx hsize hstride hone
      cases hk : keep d with
      | true =>
          rw [List.filter_cons_of_pos hk, List.map_cons, threadOffset, threadOffset, hd hk, hd' hk,
            prod_renumber hsize hone, ih]
      | false =>
          -- the index along a dimension of size one is 0
          rw [List.filter_cons_of_neg (by simp [hk]), threadOffset, ih, hone' hk]
          simp [u32]

end Renumber

/-! ## The addresses of the registers -/

/-- The addresses of an array, given the sizes and strides, in row-major order. -/
def offsets : List (ℤ × ℤ) → List ℤ
  | [] => [0]
  | (n, s) :: dims => (List.range n.toNat).flatMap fun j : ℕ => (offsets dims).map ((j : ℤ) * s + ·)

theorem map_dot_forAllNdIndices : ∀ {shape ss : List ℤ}, shape.length = ss.length →
    (forAllNdIndices shape).map (dot · ss) = offsets (shape.zip ss)
  | [], [], _ => rfl
  | n :: shape, s :: ss, h => by
      have ih := @map_dot_forAllNdIndices shape ss (Nat.succ.inj h)
      rw [forAllNdIndices, List.zip_cons_cons, offsets, ← ih, List.map_flatMap]
      congr 1
      funext j
      rw [List.map_map, List.map_map]
      rfl

/-- Dimensions of size one do not count. -/
theorem offsets_filter : ∀ dims : List (ℤ × ℤ), offsets (dims.filter (·.1 ≠ 1)) = offsets dims
  | [] => rfl
  | (n, s) :: dims => by
      have ih := offsets_filter dims
      by_cases hn : n = 1
      · subst hn
        rw [List.filter_cons_of_neg (by simp), ih, offsets]
        simp [List.range_succ]
      · rw [List.filter_cons_of_pos (by simpa using hn), offsets, offsets, ih]

/-- An array with the sizes at some positions set to one. -/
def mask (taken : ℕ → Bool) (ds : List ℤ) : List ℤ :=
  ds.mapIdx fun k d => if taken k then 1 else d

theorem mask_set (taken : ℕ → Bool) (ds : List ℤ) (k : ℕ) :
    mask taken (ds.set k 1) = mask (fun l => taken l || l == k) ds := by
  refine List.ext_getElem? fun l => ?_
  rw [mask, mask, List.getElem?_mapIdx, List.getElem?_mapIdx, List.getElem?_set]
  by_cases hl : k = l
  · subst hl
    by_cases hlt : k < ds.length
    · simp [hlt]
    · simp [hlt]
  · simp [hl, show ¬ l = k from fun h => hl h.symm]

/-- Counted from the end, `setOnes` sets the dimensions it is given. -/
theorem reverse_setOnes : ∀ {dims ds : List ℤ}, (∀ d ∈ dims, InRange ds.length d) →
    (setOnes ds dims).reverse = mask (fun k => -((k : ℤ) + 1) ∈ dims) ds.reverse
  | [], ds, _ => by
      refine List.ext_getElem? fun l => ?_
      rw [mask, List.getElem?_mapIdx]
      simp [setOnes]
  | d :: dims, ds, h => by
      obtain ⟨hd, h⟩ := List.forall_mem_cons.mp h
      have hset : (ds.set (d + ds.length).toNat 1).reverse =
          ds.reverse.set (-d - 1).toNat 1 := by
        refine List.ext_getElem? fun l => ?_
        unfold InRange at hd
        by_cases hl : l < ds.length
        · rw [List.getElem?_reverse (by simpa using hl), List.length_set, List.getElem?_set,
            List.getElem?_set, List.length_reverse, List.getElem?_reverse hl]
          by_cases heq : (-d - 1).toNat = l
          · rw [if_pos (by omega), if_pos heq, if_pos (by omega), if_pos (by omega)]
          · rw [if_neg (by omega), if_neg heq]
        · rw [List.getElem?_eq_none (by simpa using hl), List.getElem?_eq_none (by simpa using hl)]
      have ih := @reverse_setOnes dims (ds.set (d + ds.length).toNat 1)
        (by simpa using h)
      rw [setOnes, List.foldl_cons, ← setOnes, ih, hset, mask_set]
      congr 1
      funext k
      unfold InRange at hd
      have hk : (k == (-d - 1).toNat) = decide (-((k : ℤ) + 1) = d) := by
        rw [Bool.eq_iff_iff]
        simp only [beq_iff_eq, decide_eq_true_eq]
        omega
      rw [hk]
      simp only [List.mem_cons, Bool.decide_or]
      exact Bool.or_comm _ _

/-- What a mask leaves. -/
theorem filter_mask_eq_free : ∀ (taken : ℕ → Bool) (cs : List Cell),
    ((mask taken (sizes cs)).zip (strides cs)).filter (·.1 ≠ 1) =
      (free taken cs).map fun c => (c.size, c.stride)
  | _, [] => rfl
  | taken, c :: cs => by
      have ih := filter_mask_eq_free (fun k => taken (k + 1)) cs
      have hmask : mask taken (sizes (c :: cs)) =
          (if taken 0 then 1 else c.size) :: mask (fun k => taken (k + 1)) (sizes cs) := by
        rw [mask, sizes, List.map_cons, List.mapIdx_cons]
        rfl
      rw [hmask, strides, List.map_cons, List.zip_cons_cons, ← strides, free]
      cases ht : taken 0 with
      | true =>
          rw [List.filter_cons_of_neg (by simp), ih, if_neg (by simp)]
      | false =>
          rw [if_neg (by simp)]
          by_cases hc : c.size = 1
          · rw [List.filter_cons_of_neg (by simp [hc]), ih, if_neg (by simp [hc])]
          · rw [List.filter_cons_of_pos (by simp [hc]), ih, if_pos (by simp [hc]), List.map_cons]

theorem setOnes_append {n : ℕ} (front : List ℤ) : ∀ {dims ds : List ℤ}, ds.length = n →
    (∀ d ∈ dims, InRange n d) → setOnes (front ++ ds) dims = front ++ setOnes ds dims ∧
      (setOnes ds dims).length = n
  | [], _, hn, _ => ⟨rfl, hn⟩
  | d :: dims, ds, hn, h => by
      obtain ⟨hd, h⟩ := List.forall_mem_cons.mp h
      unfold InRange at hd
      have hset : (front ++ ds).set (d + (front ++ ds).length).toNat 1 =
          front ++ ds.set (d + ds.length).toNat 1 := by
        rw [List.set_append_right _ _ (by rw [List.length_append]; omega)]
        congr 2
        rw [List.length_append]
        omega
      have ih := @setOnes_append n front dims (ds.set (d + ds.length).toNat 1)
        (by simpa using hn) h
      rw [setOnes, List.foldl_cons, hset]
      exact ih

/-- **The addresses of the registers**: those of the cells that are free. -/
theorem offsets_setOnes {front cs : List Cell} {dims : List ℤ}
    (h : ∀ d ∈ dims, InRange cs.length d) :
    offsets ((setOnes (sizes (front ++ cs)) dims).zip (strides (front ++ cs))) =
      offsets (((sizes front).zip (strides front)).filter (·.1 ≠ 1) ++
        ((free (fun k => -((k : ℤ) + 1) ∈ dims) cs.reverse).map
          fun c => (c.size, c.stride)).reverse) := by
  obtain ⟨happend, hlen⟩ := setOnes_append (sizes front) (length_sizes cs) h
  have hreverse : ((setOnes (sizes cs) dims).zip (strides cs)).reverse =
      (mask (fun k => -((k : ℤ) + 1) ∈ dims) (sizes cs.reverse)).zip (strides cs.reverse) := by
    rw [List.zip, List.reverse_zipWith (by rw [hlen, length_strides]),
      reverse_setOnes (by simpa using h), sizes_reverse, strides_reverse]
  rw [← offsets_filter, sizes_append, strides_append, happend,
    List.zip_append (by rw [length_sizes, length_strides]), List.filter_append]
  congr 2
  rw [← filter_mask_eq_free, ← hreverse, List.filter_reverse, List.reverse_reverse]

end JaxDas.TiledLayout
