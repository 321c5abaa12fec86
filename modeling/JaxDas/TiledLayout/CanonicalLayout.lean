import Mathlib.Data.List.Nodup
import JaxDas.TiledLayout.Elements

/-!
# Canonicalizing a layout

The canonical form of a layout is to be a layout, a fixed point, and to put every element
in the same place. It is, unless the vector dimension is lost: a vector dimension of size
one that the search of `Canonicalize` takes for one of the dimensions that are gone gets
the number of the dimension behind it, and if that one is of another size, the vectors
are longer than before, or a warp or lane dimension is their dimension too.
-/

namespace JaxDas.TiledLayout

/-! ## New numbers -/

section Renumber

variable {cs cs' : List Cell} {removed : List Bool}

/-- The number that `Canonicalize` gives to a dimension. -/
def renumber (removed : List Bool) (d : ℤ) : ℤ := d + fromEnd (runningSums 0 removed).reverse d

/-- Positions are counted from the end. -/
theorem InRange.exists_pos {n : ℕ} {d : ℤ} (h : InRange n d) : ∃ k, k < n ∧ d = -((k : ℤ) + 1) := by
  unfold InRange at h
  exact ⟨(-d - 1).toNat, by omega, by omega⟩

theorem inRange_neg {n k : ℕ} : InRange n (-((k : ℤ) + 1)) ↔ k < n := by
  unfold InRange
  omega

theorem fromEnd_sizes {k : ℕ} {c : Cell} (h : cs.reverse[k]? = some c) :
    fromEnd (sizes cs) (-(k + 1)) = c.size := by
  have hk : k < cs.length := by simpa using (List.getElem?_eq_some_iff.mp h).1
  rw [fromEnd_neg (by rwa [length_sizes]), ← sizes_reverse, List.getD_eq_getElem?_getD, sizes,
    List.getElem?_map, h]
  rfl

theorem fromEnd_strides {k : ℕ} {c : Cell} (h : cs.reverse[k]? = some c) :
    fromEnd (strides cs) (-(k + 1)) = c.stride := by
  have hk : k < cs.length := by simpa using (List.getElem?_eq_some_iff.mp h).1
  rw [fromEnd_neg (by rwa [length_strides]), ← strides_reverse, List.getD_eq_getElem?_getD, strides,
    List.getElem?_map, h]
  rfl

theorem exists_cell {k : ℕ} (hk : k < cs.length) : ∃ c, cs.reverse[k]? = some c :=
  ⟨_, List.getElem?_eq_getElem (by simpa using hk)⟩

theorem renumber_neg (h : Matched cs.reverse cs'.reverse removed) {k : ℕ} (hk : k < cs.length) :
    renumber removed (-(k + 1)) = -(kept removed (k + 1) : ℤ) :=
  renumbered (by rw [h.length_eq]; simpa using hk)

/-- A dimension of another size than one keeps its size and stride. -/
theorem renumber_same (h : Matched cs.reverse cs'.reverse removed) {d : ℤ}
    (hd : InRange cs.length d) (hsize : fromEnd (sizes cs) d ≠ 1) :
    InRange cs'.length (renumber removed d) ∧
      fromEnd (sizes cs') (renumber removed d) = fromEnd (sizes cs) d ∧
      fromEnd (strides cs') (renumber removed d) = fromEnd (strides cs) d := by
  obtain ⟨k, hk, rfl⟩ := hd.exists_pos
  obtain ⟨c, hc⟩ := exists_cell hk
  rw [fromEnd_sizes hc] at hsize ⊢
  obtain ⟨-, j, hj, hget⟩ := h.same hc hsize
  have hj' : j < cs'.length := by simpa using (List.getElem?_eq_some_iff.mp hget).1
  rw [renumber_neg h hk, hj, fromEnd_strides hc, Nat.cast_succ, fromEnd_sizes hget,
    fromEnd_strides hget]
  exact ⟨inRange_neg.mpr hj', rfl, rfl⟩

theorem renumber_inj (h : Matched cs.reverse cs'.reverse removed) {d e : ℤ}
    (hd : InRange cs.length d) (hdsize : fromEnd (sizes cs) d ≠ 1) (he : InRange cs.length e)
    (hesize : fromEnd (sizes cs) e ≠ 1) (heq : renumber removed d = renumber removed e) : d = e := by
  obtain ⟨k, hk, rfl⟩ := hd.exists_pos
  obtain ⟨l, hl, rfl⟩ := he.exists_pos
  obtain ⟨c, hc⟩ := exists_cell hk
  obtain ⟨c', hc'⟩ := exists_cell hl
  rw [fromEnd_sizes hc] at hdsize
  rw [fromEnd_sizes hc'] at hesize
  rw [renumber_neg h hk, renumber_neg h hl] at heq
  rw [kept_inj (h.same hc hdsize).1 (h.same hc' hesize).1 (by omega)]

/-- A dimension of size one gets the number of a dimension of size one, or not. -/
theorem renumber_one (h : Matched cs.reverse cs'.reverse removed) {d : ℤ}
    (hd : InRange cs.length d) (hsize : fromEnd (sizes cs) d = 1) :
    (InRange cs'.length (renumber removed d) ∧ fromEnd (sizes cs') (renumber removed d) = 1) ↔
      (afterOthers (othersBefore (sizes cs).reverse (-d - 1).toNat)
        (sizes cs').reverse).head? = some 1 := by
  obtain ⟨k, hk, rfl⟩ := hd.exists_pos
  obtain ⟨c, hc⟩ := exists_cell hk
  rw [fromEnd_sizes hc] at hsize
  have hone := h.one 0 hc hsize
  rw [show (- -((k : ℤ) + 1) - 1).toNat = k by omega, renumber_neg h hk, ← sizes_reverse,
    ← sizes_reverse]
  simp only [zero_ne_one, and_false, false_or] at hone
  rw [← hone]
  cases hkept : kept removed (k + 1) with
  | zero => simp [InRange]
  | succ j =>
      rw [Nat.cast_succ, inRange_neg, List.getElem?_cons_succ]
      constructor
      · rintro ⟨hj, hj'⟩
        obtain ⟨c', hc'⟩ := exists_cell hj
        rw [fromEnd_sizes hc'] at hj'
        rw [sizes, List.getElem?_map, hc', Option.map_some, hj']
      · intro hj
        rw [sizes, List.getElem?_map, Option.map_eq_some_iff] at hj
        obtain ⟨c', hc', hj'⟩ := hj
        refine ⟨by simpa using (List.getElem?_eq_some_iff.mp hc').1, ?_⟩
        rw [fromEnd_sizes hc', hj']

end Renumber

/-! ## What Create checks -/

/-- The dimensions of a layout. -/
def layoutDims (warpDims laneDims : List Dim) (vectorDim : ℤ) : List ℤ :=
  partitionedDims warpDims ++ partitionedDims laneDims ++ [vectorDim]

/-- The dimensions of a layout fit the tiled tiling. -/
structure Fits (shape : List ℤ) (warpDims laneDims : List Dim) (vectorDim : ℤ) : Prop where
  range : ∀ d ∈ layoutDims warpDims laneDims vectorDim, InRange shape.length d
  nodup : (layoutDims warpDims laneDims vectorDim).Nodup
  warps : (warpDims.map (dimSize shape)).prod = WARPS_IN_WARPGROUP
  lanes : (laneDims.map (dimSize shape)).prod = WARP_SIZE

theorem checkDims_ok {n : ℕ} : ∀ {dims : List ℤ},
    checkDims n dims = .ok () ↔ ∀ d ∈ dims, InRange n d
  | [] => by simp [checkDims]
  | d :: dims => by
      rw [checkDims, List.forall_mem_cons, ← checkDims_ok]
      unfold InRange
      by_cases h : d ≥ 0
      · rw [if_pos h]
        simp
        omega
      by_cases h' : d < -(n : ℤ)
      · rw [if_neg h, if_pos h']
        simp
        omega
      · rw [if_neg h, if_neg h']
        simp only [iff_and_self]
        omega

theorem fromEnd_append {front xs : List ℤ} {d : ℤ} (h : InRange xs.length d) :
    fromEnd (front ++ xs) d = fromEnd xs d := by
  unfold InRange at h
  rw [fromEnd, fromEnd, List.length_append, List.getD_eq_getElem?_getD,
    List.getD_eq_getElem?_getD, List.getElem?_append_right (by omega)]
  congr 2
  omega

theorem mem_partitionedDims {dims : List Dim} {d : ℤ} :
    d ∈ partitionedDims dims ↔ Dim.dim d ∈ dims := by
  rw [partitionedDims, List.mem_filterMap]
  constructor
  · rintro ⟨a, ha, hd⟩
    cases a with
    | dim idx =>
        obtain rfl : idx = d := by simpa using hd
        exact ha
    | replicated times => exact absurd hd (by simp)
  · exact fun h => ⟨_, h, rfl⟩

theorem map_dimSize_append {front xs : List ℤ} {dims : List Dim}
    (h : ∀ d ∈ partitionedDims dims, InRange xs.length d) :
    dims.map (dimSize (front ++ xs)) = dims.map (dimSize xs) := by
  refine List.map_congr_left fun a ha => ?_
  cases a with
  | dim idx => exact fromEnd_append (h idx (mem_partitionedDims.mpr ha))
  | replicated times => rfl

/-- **`Create`** accepts the layouts that fit. -/
theorem create_iff {tiling : Tiling} {minShape : Tile} {tiles : List Tile} {front shape : List ℤ}
    {warpDims laneDims : List Dim} {vectorDim : ℤ} {checkCanonical : Bool} {layout : TiledLayout}
    (htiles : tiling.tiles = minShape :: tiles)
    (hshape : tileShape (minShape :: tiles) minShape = .ok (front ++ shape))
    (hfront : front.length = minShape.length) :
    create tiling warpDims laneDims vectorDim checkCanonical = .ok layout ↔
      Fits shape warpDims laneDims vectorDim ∧
        layout = ⟨minShape :: tiles, warpDims, laneDims, vectorDim⟩ ∧
        (checkCanonical = true → layout.canonicalize = .ok layout) := by
  have hrank : ((front ++ shape).length - minShape.length : ℤ) = (shape.length : ℕ) := by
    rw [List.length_append, hfront]
    omega
  have hwarps (h : ∀ d ∈ layoutDims warpDims laneDims vectorDim, InRange shape.length d) :
      warpDims.map (dimSize (front ++ shape)) = warpDims.map (dimSize shape) :=
    map_dimSize_append fun d hd => h d (by simp [layoutDims, hd])
  have hlanes (h : ∀ d ∈ layoutDims warpDims laneDims vectorDim, InRange shape.length d) :
      laneDims.map (dimSize (front ++ shape)) = laneDims.map (dimSize shape) :=
    map_dimSize_append fun d hd => h d (by simp [layoutDims, hd])
  simp only [create, htiles, hshape]
  constructor
  · intro h
    obtain ⟨_, hok, h⟩ := bind_ok.mp h
    injection hok with hok
    subst hok
    obtain ⟨_, hdims, h⟩ := bind_ok.mp h
    rw [hrank, checkDims_ok] at hdims
    rcases ite_ok h with ⟨-, h⟩ | ⟨hnodup, h⟩
    · exact absurd h (by simp)
    rcases ite_ok h with ⟨-, h⟩ | ⟨hwarp, h⟩
    · exact absurd h (by simp)
    rcases ite_ok h with ⟨-, h⟩ | ⟨hlane, h⟩
    · exact absurd h (by simp)
    rw [hwarps hdims, not_not] at hwarp
    rw [hlanes hdims, not_not] at hlane
    refine ⟨⟨hdims, not_not.mp hnodup, hwarp, hlane⟩, ?_⟩
    cases checkCanonical with
    | false =>
        injection h with h
        exact ⟨h.symm, by simp⟩
    | true =>
        rw [if_pos rfl] at h
        obtain ⟨canonical, hcanonical, h⟩ := bind_ok.mp h
        rcases ite_ok h with ⟨-, h⟩ | ⟨heq, h⟩
        · exact absurd h (by simp)
        injection h with h
        subst h
        exact ⟨rfl, fun _ => not_not.mp heq ▸ hcanonical⟩
  · rintro ⟨hfits, rfl, hcanonical⟩
    refine bind_ok.mpr ⟨_, rfl, bind_ok.mpr ⟨(), by rw [hrank]; exact checkDims_ok.mpr hfits.range, ?_⟩⟩
    have hnodup : (partitionedDims warpDims ++ partitionedDims laneDims ++ [vectorDim]).Nodup :=
      hfits.nodup
    rw [if_neg (not_not.mpr hnodup), hwarps hfits.range, hlanes hfits.range,
      if_neg (not_not.mpr hfits.warps), if_neg (not_not.mpr hfits.lanes)]
    cases checkCanonical with
    | false => rfl
    | true =>
        rw [if_pos rfl]
        exact bind_ok.mpr ⟨_, hcanonical rfl, by rw [if_neg (not_not.mpr rfl)]; rfl⟩

section Fits

variable {cs cs' : List Cell} {removed : List Bool} {warpDims laneDims : List Dim} {vectorDim : ℤ}

/-- The dimensions that `Canonicalize` keeps, with their new numbers. -/
def renumberDims (shape : List ℤ) (removed : List Bool) (dims : List Dim) : List Dim :=
  (dims.filter (isNontrivial shape)).map (replaceTiledDim (runningSums 0 removed).reverse)

theorem partitionedDims_renumberDims (shape : List ℤ) : ∀ dims : List Dim,
    partitionedDims (renumberDims shape removed dims) =
      ((partitionedDims dims).filter (fromEnd shape · ≠ 1)).map (renumber removed)
  | [] => rfl
  | .replicated times :: dims => by
      have ih := partitionedDims_renumberDims shape dims
      rw [renumberDims, List.filter_cons_of_pos rfl]
      simpa [partitionedDims, replaceTiledDim, renumberDims] using ih
  | .dim d :: dims => by
      have ih := partitionedDims_renumberDims shape dims
      have hcons : partitionedDims (.dim d :: dims) = d :: partitionedDims dims := by
        simp [partitionedDims]
      by_cases hd : fromEnd shape d = 1
      · rw [renumberDims, List.filter_cons_of_neg (by simp [isNontrivial, hd]), hcons,
          List.filter_cons_of_neg (by simp [hd])]
        exact ih
      · rw [renumberDims, List.filter_cons_of_pos (by simp [isNontrivial, hd]), hcons,
          List.filter_cons_of_pos (by simp [hd]), List.map_cons, List.map_cons, ← ih]
        simp [partitionedDims, replaceTiledDim, renumberDims, renumber]

/-- What the search has found out about the vector dimension. -/
def VectorDimKept (cs cs' : List Cell) (removed : List Bool) (vectorDim : ℤ) : Prop :=
  fromEnd (sizes cs) vectorDim = 1 →
    InRange cs'.length (renumber removed vectorDim) ∧
      fromEnd (sizes cs') (renumber removed vectorDim) = 1

theorem layoutDims_renumber (shape : List ℤ) :
    layoutDims (renumberDims shape removed warpDims) (renumberDims shape removed laneDims)
        (renumber removed vectorDim) =
      ((partitionedDims warpDims).filter (fromEnd shape · ≠ 1) ++
        (partitionedDims laneDims).filter (fromEnd shape · ≠ 1) ++ [vectorDim]).map
          (renumber removed) := by
  rw [layoutDims, partitionedDims_renumberDims, partitionedDims_renumberDims, List.map_append,
    List.map_append]
  rfl

/-- Of the dimensions that are kept, only the vector dimension may be of size one. -/
theorem size_of_mem_kept {shape : List ℤ} {d : ℤ}
    (h : d ∈ (partitionedDims warpDims).filter (fromEnd shape · ≠ 1) ++
      (partitionedDims laneDims).filter (fromEnd shape · ≠ 1) ++ [vectorDim]) :
    d ∈ layoutDims warpDims laneDims vectorDim ∧ (fromEnd shape d ≠ 1 ∨ d = vectorDim) := by
  simp only [List.mem_append, List.mem_filter, List.mem_singleton, decide_eq_true_eq] at h
  rw [layoutDims]
  rcases h with (⟨h, hd⟩ | ⟨h, hd⟩) | rfl
  · exact ⟨by simp [h], .inl hd⟩
  · exact ⟨by simp [h], .inl hd⟩
  · exact ⟨by simp, .inr rfl⟩

/-- The vector dimension gets a number that no warp or lane dimension gets. -/
theorem renumber_injOn (h : Matched cs.reverse cs'.reverse removed)
    (hfits : Fits (sizes cs) warpDims laneDims vectorDim)
    (hvec : VectorDimKept cs cs' removed vectorDim) {d e : ℤ}
    (hd : d ∈ layoutDims warpDims laneDims vectorDim ∧ (fromEnd (sizes cs) d ≠ 1 ∨ d = vectorDim))
    (he : e ∈ layoutDims warpDims laneDims vectorDim ∧ (fromEnd (sizes cs) e ≠ 1 ∨ e = vectorDim))
    (heq : renumber removed d = renumber removed e) : d = e := by
  have hrange : ∀ x ∈ layoutDims warpDims laneDims vectorDim, InRange cs.length x := by
    intro x hx
    simpa using hfits.range x hx
  by_cases hd1 : fromEnd (sizes cs) d = 1
  · by_cases he1 : fromEnd (sizes cs) e = 1
    · rw [hd.2.resolve_left (not_not.mpr hd1), he.2.resolve_left (not_not.mpr he1)]
    · obtain rfl := hd.2.resolve_left (not_not.mpr hd1)
      obtain ⟨-, hsize, -⟩ := renumber_same h (hrange e he.1) he1
      rw [← heq, (hvec hd1).2] at hsize
      exact absurd hsize.symm he1
  · by_cases he1 : fromEnd (sizes cs) e = 1
    · obtain rfl := he.2.resolve_left (not_not.mpr he1)
      obtain ⟨-, hsize, -⟩ := renumber_same h (hrange d hd.1) hd1
      rw [heq, (hvec he1).2] at hsize
      exact absurd hsize.symm hd1
    · exact renumber_inj h (hrange d hd.1) hd1 (hrange e he.1) he1 heq

/-- A dimension that is kept has the size and stride that it had. -/
theorem dimSize_renumber (h : Matched cs.reverse cs'.reverse removed) {dims : List Dim}
    (hdims : ∀ d ∈ partitionedDims dims, InRange cs.length d) : ∀ a ∈ dims,
      isNontrivial (sizes cs) a = true →
      dimSize (sizes cs') (replaceTiledDim (runningSums 0 removed).reverse a) =
          dimSize (sizes cs) a ∧
        dimStride (strides cs') (replaceTiledDim (runningSums 0 removed).reverse a) =
          dimStride (strides cs) a
  | .replicated _, _, _ => ⟨rfl, rfl⟩
  | .dim d, ha, hk =>
      (renumber_same h (hdims d (mem_partitionedDims.mpr ha)) (by simpa [isNontrivial] using hk)).2

theorem size_of_trivial {shape : List ℤ} : ∀ a : Dim, isNontrivial shape a = false →
    dimSize shape a = 1
  | .replicated _, h => absurd h (by simp [isNontrivial])
  | .dim d, h => by
      have hd : fromEnd shape d = 1 := by simpa [isNontrivial] using h
      exact hd

/-- **The renumbered dimensions fit** the canonical tiled tiling. -/
theorem Fits.renumber (h : Matched cs.reverse cs'.reverse removed)
    (hfits : Fits (sizes cs) warpDims laneDims vectorDim)
    (hvec : VectorDimKept cs cs' removed vectorDim) :
    Fits (sizes cs') (renumberDims (sizes cs) removed warpDims)
      (renumberDims (sizes cs) removed laneDims) (renumber removed vectorDim) := by
  have hrange : ∀ x ∈ layoutDims warpDims laneDims vectorDim, InRange cs.length x := by
    intro x hx
    simpa using hfits.range x hx
  have hprod : ∀ {dims : List Dim}, (∀ d ∈ partitionedDims dims, InRange cs.length d) →
      ((renumberDims (sizes cs) removed dims).map (dimSize (sizes cs'))).prod =
        (dims.map (dimSize (sizes cs))).prod := fun hdims =>
    prod_renumber (fun a ha hk => (dimSize_renumber h hdims a ha hk).1) fun a _ => size_of_trivial a
  refine ⟨?_, ?_, ?_, ?_⟩
  · rw [layoutDims_renumber]
    intro d' hd'
    obtain ⟨d, hd, rfl⟩ := List.mem_map.mp hd'
    obtain ⟨hmem, hsize⟩ := size_of_mem_kept hd
    rw [length_sizes]
    by_cases hone : fromEnd (sizes cs) d = 1
    · obtain rfl := hsize.resolve_left (not_not.mpr hone)
      exact (hvec hone).1
    · exact (renumber_same h (hrange d hmem) hone).1
  · rw [layoutDims_renumber]
    refine List.Nodup.map_on (fun d hd e he heq => renumber_injOn h hfits hvec
      (size_of_mem_kept hd) (size_of_mem_kept he) heq) (hfits.nodup.sublist ?_)
    exact (List.filter_sublist.append List.filter_sublist).append (List.Sublist.refl _)
  · rw [hprod fun d hd => hrange d (by simp [layoutDims, hd]), hfits.warps]
  · rw [hprod fun d hd => hrange d (by simp [layoutDims, hd]), hfits.lanes]

end Fits

/-! ## The elements -/

section Elements

variable {tiles : List Tile} {shape : List ℤ} {front cs cs' : List Cell} {removed : List Bool}
  {warpDims laneDims : List Dim} {vectorDim : ℤ}

/-- **`ThreadIdxs`** in terms of cells: the address of the thread and those of its registers. -/
theorem threadIdxs_eq (hbase : tiledTilingShape tiles = .ok (sizes cs))
    (hshape : tileShape tiles shape = .ok (sizes (front ++ cs)))
    (hstrides : tileStrides tiles (contiguousStrides shape) = strides (front ++ cs))
    (hfits : Fits (sizes cs) warpDims laneDims vectorDim) (warp lane : ℤ) :
    threadIdxs ⟨tiles, warpDims, laneDims, vectorDim⟩ shape warp lane =
      .ok ((offsets (((sizes front).zip (strides front)).filter (·.1 ≠ 1) ++
        ((free (fun k => -((k : ℤ) + 1) ∈ layoutDims warpDims laneDims vectorDim) cs.reverse).map
          fun c => (c.size, c.stride)).reverse)).map fun offset =>
            (List.range (fromEnd (sizes cs) vectorDim).toNat).map fun element : ℕ =>
              indexOfOffset (u32 (threadOffset (dimSize (sizes cs)) (dimStride (strides cs)) warp
                  warpDims + threadOffset (dimSize (sizes cs)) (dimStride (strides cs)) lane laneDims +
                offset + element * fromEnd (strides cs) vectorDim)) (contiguousStrides shape)) := by
  have hrange : ∀ d ∈ layoutDims warpDims laneDims vectorDim, InRange cs.length d := by
    intro d hd
    simpa using hfits.range d hd
  have hnodup := hfits.nodup
  rw [layoutDims, List.nodup_append, List.nodup_append] at hnodup
  have htrail : trail (sizes cs).length (strides (front ++ cs)) = strides cs := by
    rw [strides_append]
    exact trail_append_of_length _ (by simp)
  have hwarp := @dot_delinearizeIndex (sizes cs) (strides cs) warpDims warp (by simp) hnodup.1.1
    fun d hd => by simpa using hrange d (by simp [layoutDims, hd])
  have hlane := @dot_delinearizeIndex (sizes cs) (strides cs) laneDims lane (by simp) hnodup.1.2.1
    fun d hd => by simpa using hrange d (by simp [layoutDims, hd])
  have hvector : fromEnd (strides (front ++ cs)) vectorDim = fromEnd (strides cs) vectorDim := by
    rw [strides_append]
    exact fromEnd_append (by simpa using hrange vectorDim (by simp [layoutDims]))
  have hlen : (setOnes (sizes (front ++ cs)) (layoutDims warpDims laneDims vectorDim)).length =
      (strides (front ++ cs)).length := by
    obtain ⟨happend, hlen⟩ := setOnes_append (sizes front) (length_sizes cs) hrange
    rw [sizes_append, happend, List.length_append, hlen]
    simp
  unfold threadIdxs registersShape
  dsimp only
  rw [hbase, hshape, hstrides, ← layoutDims]
  simp only [bind, Except.bind, pure, Except.pure, htrail, hwarp, hlane, hvector]
  rw [← offsets_setOnes hrange, ← map_dot_forAllNdIndices hlen, List.map_map]
  rfl

/-- **Renumbering puts every element in the same place.** -/
theorem threadIdxs_renumber {tiles' : List Tile} (h : Matched cs.reverse cs'.reverse removed)
    (hbase : tiledTilingShape tiles = .ok (sizes cs))
    (hshape : tileShape tiles shape = .ok (sizes (front ++ cs)))
    (hstrides : tileStrides tiles (contiguousStrides shape) = strides (front ++ cs))
    (hbase' : tiledTilingShape tiles' = .ok (sizes cs'))
    (hshape' : tileShape tiles' shape = .ok (sizes (front ++ cs')))
    (hstrides' : tileStrides tiles' (contiguousStrides shape) = strides (front ++ cs'))
    (hfits : Fits (sizes cs) warpDims laneDims vectorDim)
    (hvec : VectorDimKept cs cs' removed vectorDim) (warp lane : ℤ) :
    ∃ idxs, threadIdxs ⟨tiles, warpDims, laneDims, vectorDim⟩ shape warp lane = .ok idxs ∧
      threadIdxs ⟨tiles', renumberDims (sizes cs) removed warpDims,
        renumberDims (sizes cs) removed laneDims, renumber removed vectorDim⟩ shape warp lane =
          .ok idxs := by
  refine ⟨_, threadIdxs_eq hbase hshape hstrides hfits warp lane, ?_⟩
  rw [threadIdxs_eq hbase' hshape' hstrides' (hfits.renumber h hvec) warp lane]
  have hrange : ∀ d ∈ layoutDims warpDims laneDims vectorDim, InRange cs.length d := by
    intro d hd
    simpa using hfits.range d hd
  have hthread : ∀ {dims : List Dim} (idx : ℤ), (∀ d ∈ partitionedDims dims, InRange cs.length d) →
      threadOffset (dimSize (sizes cs')) (dimStride (strides cs')) idx
          (renumberDims (sizes cs) removed dims) =
        threadOffset (dimSize (sizes cs)) (dimStride (strides cs)) idx dims := fun idx hdims =>
    threadOffset_renumber idx (fun a ha hk => (dimSize_renumber h hdims a ha hk).1)
      (fun a ha hk => (dimSize_renumber h hdims a ha hk).2) fun a _ => size_of_trivial a
  have hfree : free (fun k => -((k : ℤ) + 1) ∈ layoutDims (renumberDims (sizes cs) removed warpDims)
      (renumberDims (sizes cs) removed laneDims) (renumber removed vectorDim)) cs'.reverse =
      free (fun k => -((k : ℤ) + 1) ∈ layoutDims warpDims laneDims vectorDim) cs.reverse := by
    refine (h.free_eq fun k c hk hc => ?_).symm
    have hk' : k < cs.length := by simpa using (List.getElem?_eq_some_iff.mp hk).1
    have hsize : fromEnd (sizes cs) (-(k + 1)) ≠ 1 := by rwa [fromEnd_sizes hk]
    obtain ⟨j, hj, -⟩ := (h.same hk hc).2
    have hnew : renumber removed (-(k + 1)) = -(((kept removed (k + 1) - 1 : ℕ) : ℤ) + 1) := by
      rw [renumber_neg h hk', hj]
      simp
    rw [← hnew, layoutDims_renumber]
    refine decide_eq_decide.mpr ⟨fun hmem => ?_, fun hmem => ?_⟩
    · refine List.mem_map_of_mem ?_
      simp only [layoutDims, List.mem_append, List.mem_filter, decide_eq_true_eq] at hmem ⊢
      exact hmem.imp (Or.imp (⟨·, hsize⟩) (⟨·, hsize⟩)) id
    · obtain ⟨d, hd, heq⟩ := List.mem_map.mp hmem
      obtain ⟨hmem, hdsize⟩ := size_of_mem_kept hd
      by_cases hone : fromEnd (sizes cs) d = 1
      · -- the vector dimension has not got the number of a dimension of another size
        obtain rfl := hdsize.resolve_left (not_not.mpr hone)
        have hsame := (renumber_same h (inRange_neg.mpr hk') hsize).2.1
        rw [← heq, (hvec hone).2] at hsame
        exact absurd hsame.symm hsize
      · rwa [← renumber_inj h (hrange d hmem) hone (inRange_neg.mpr hk') hsize heq]
  have hsize : fromEnd (sizes cs') (renumber removed vectorDim) = fromEnd (sizes cs) vectorDim := by
    by_cases hone : fromEnd (sizes cs) vectorDim = 1
    · rw [hone, (hvec hone).2]
    · exact (renumber_same h (hrange vectorDim (by simp [layoutDims])) hone).2.1
  rw [hthread warp fun d hd => hrange d (by simp [layoutDims, hd]),
    hthread lane fun d hd => hrange d (by simp [layoutDims, hd]), hfree, hsize]
  congr 1
  refine List.map_congr_left fun offset _ => List.map_congr_left fun element helement => ?_
  congr 3
  by_cases hone : fromEnd (sizes cs) vectorDim = 1
  · -- a vector of one element
    obtain rfl : element = 0 := by
      rw [hone] at helement
      simpa using helement
    simp
  · rw [(renumber_same h (hrange vectorDim (by simp [layoutDims])) hone).2.2]

end Elements

/-! ## Canonicalize -/

section Canonicalize

variable {minShape : Tile} {tiles : List Tile}

/-- The cells of the tiled base tile, whose dimensions have the strides `ss`. -/
def baseCells (minShape : Tile) (tiles : List Tile) (ss : List ℤ) : List Cell :=
  tileCells tiles (mkCells minShape ss)

/-- The tiled tiling, and that of the canonical tiling. -/
theorem tiledTilingShape_baseCells {tiled ss : List ℤ}
    (hdec : (minShape :: tiles).Pairwise fun t u => u.length ≤ t.length)
    (hne : ∀ t ∈ minShape :: tiles, t ≠ []) (hpos : ∀ t ∈ minShape :: tiles, ∀ d ∈ t, 0 < d)
    (h : Tiles (minShape :: tiles) minShape tiled) (hss : ss.length = minShape.length) :
    tiledTilingShape (minShape :: tiles) = .ok (sizes (baseCells minShape tiles ss)) ∧
      tiledTilingShape (canonicalTiling (minShape :: tiles)) =
        .ok (sizes (neededCells (baseCells minShape tiles ss))) := by
  obtain ⟨-, -, front, hfront, htiled, -, hcanonical, -⟩ := tiled_cells hdec hne hpos h hss
  have htrail : trail minShape.length ss = ss := by simp [trail, hss]
  rw [htrail] at htiled hcanonical
  have hdrop : ∀ cs : List Cell, (sizes (front ++ cs)).drop minShape.length = sizes cs := by
    intro cs
    rw [sizes_append]
    exact List.drop_left' (by rw [length_sizes, hfront])
  have hshape := tileShape_of_tiles h
  have hshape' := tileShape_of_tiles hcanonical
  constructor
  · rw [tiledTilingShape, hshape, htiled]
    exact congrArg Except.ok (hdrop _)
  · rw [canonicalTiling] at hshape' ⊢
    rw [tiledTilingShape, hshape']
    exact congrArg Except.ok (hdrop _)

/-- **What `Canonicalize` computes.** -/
theorem canonicalize_eq {cs : List Cell} {warpDims laneDims : List Dim} {vectorDim : ℤ}
    (hshape : tiledTilingShape (minShape :: tiles) = .ok (sizes cs))
    (hshape' : tiledTilingShape (canonicalTiling (minShape :: tiles)) =
      .ok (sizes (neededCells cs)))
    (hdropped : ∀ c ∈ cs, c.needed = false → c.size = 1) :
    ∃ removed, Matched cs.reverse (neededCells cs).reverse removed ∧
      revRemovedDims (sizes cs).reverse (sizes (neededCells cs)).reverse = (removed, []) ∧
      canonicalize ⟨minShape :: tiles, warpDims, laneDims, vectorDim⟩ =
        .ok ⟨canonicalTiling (minShape :: tiles), renumberDims (sizes cs) removed warpDims,
          renumberDims (sizes cs) removed laneDims, renumber removed vectorDim⟩ := by
  obtain ⟨removed, hrun, hmatched⟩ :=
    matched_of_deletes (deletes_neededCells fun c hc => hdropped c (List.mem_reverse.mp hc))
  rw [neededCells_reverse] at hmatched hrun
  rw [sizes_reverse, sizes_reverse] at hrun
  refine ⟨removed, hmatched, hrun, ?_⟩
  rw [canonicalTiling, tiledTilingShape] at hshape'
  obtain ⟨shape, htile, hdrop⟩ := bind_ok.mp hshape'
  injection hdrop with hdrop
  unfold canonicalize
  rw [hshape, canonicalTiling]
  simp only [bind, Except.bind, List.headD_cons, htile, hdrop, hrun]
  rfl

theorem revRemovedDims_self : ∀ ds : List ℤ,
    revRemovedDims ds ds = (List.replicate ds.length false, [])
  | [] => rfl
  | d :: ds => by
      rw [revRemovedDims, if_pos rfl, revRemovedDims_self ds, List.length_cons, List.replicate_succ]

theorem runningSums_false : ∀ n : ℕ,
    runningSums 0 (List.replicate n false) = List.replicate n 0
  | 0 => rfl
  | n + 1 => by
      rw [List.replicate_succ, runningSums, if_neg (by simp), runningSums_false n,
        List.replicate_succ]

theorem fromEnd_zeros (n : ℕ) (d : ℤ) : fromEnd (List.replicate n 0) d = 0 := by
  rw [fromEnd, List.getD_eq_getElem?_getD, List.getElem?_replicate]
  split <;> rfl

/-- A layout without dimensions of size one, of a canonical tiling, is canonical. -/
theorem canonicalize_self {shape : List ℤ} {warpDims laneDims : List Dim}
    (hcanonical : canonicalTiling (minShape :: tiles) = minShape :: tiles)
    (hshape : tiledTilingShape (minShape :: tiles) = .ok shape)
    (hwarp : ∀ a ∈ warpDims, isNontrivial shape a = true)
    (hlane : ∀ a ∈ laneDims, isNontrivial shape a = true) (vectorDim : ℤ) :
    canonicalize ⟨minShape :: tiles, warpDims, laneDims, vectorDim⟩ =
      .ok ⟨minShape :: tiles, warpDims, laneDims, vectorDim⟩ := by
  obtain ⟨tiled, htile, hdrop⟩ := bind_ok.mp hshape
  injection hdrop with hdrop
  have hreplace : replaceTiledDim (List.replicate shape.length 0) = id := by
    funext a
    cases a with
    | replicated times => rfl
    | dim d => rw [replaceTiledDim, fromEnd_zeros, Int.add_zero, id]
  unfold canonicalize
  rw [hcanonical, hshape]
  simp only [bind, Except.bind, List.headD_cons, htile, hdrop, revRemovedDims_self,
    runningSums_false, List.length_reverse, List.reverse_replicate, hreplace, fromEnd_zeros,
    List.filter_eq_self.mpr hwarp, List.filter_eq_self.mpr hlane, List.map_id, Int.add_zero]
  rfl

/-- What is kept is no dimension of size one of the canonical tiling. -/
theorem isNontrivial_renumberDims {cs cs' : List Cell} {removed : List Bool} {dims : List Dim}
    (h : Matched cs.reverse cs'.reverse removed)
    (hdims : ∀ d ∈ partitionedDims dims, InRange cs.length d) :
    ∀ a ∈ renumberDims (sizes cs) removed dims, isNontrivial (sizes cs') a = true := by
  intro a ha
  obtain ⟨b, hb, rfl⟩ := List.mem_map.mp ha
  obtain ⟨hb, hk⟩ := List.mem_filter.mp hb
  cases b with
  | replicated times => rfl
  | dim d =>
      have hsize := (dimSize_renumber h hdims (.dim d) hb hk).1
      have hd : fromEnd (sizes cs) d ≠ 1 := by simpa [isNontrivial] using hk
      rw [replaceTiledDim, dimSize, dimSize] at hsize
      simp [isNontrivial, replaceTiledDim, hsize, hd]

end Canonicalize

/-! ## The canonical form -/

/-- The dimensions of the tiled tiling of a layout. -/
def cells (layout : TiledLayout) : List Cell :=
  match layout.tiles with
  | [] => []
  | minShape :: tiles => baseCells minShape tiles (contiguousStrides minShape)

/--
The vector dimension is of size one, and among the dimensions that a canonical tiling needs
there is none of size one between the same neighbours: behind as many dimensions of other
sizes, counted from the end.
-/
def VectorDimLost (layout : TiledLayout) : Prop :=
  fromEnd (sizes layout.cells) layout.vectorDim = 1 ∧
    (afterOthers (othersBefore (sizes layout.cells).reverse (-layout.vectorDim - 1).toNat)
      (sizes (neededCells layout.cells)).reverse).head? ≠ some 1

instance decidableVectorDimLost (layout : TiledLayout) : Decidable (VectorDimLost layout) :=
  inferInstanceAs (Decidable (_ ∧ _))

/-- What the canonical form of a layout is for. -/
structure CanonicalForm (layout canonical : TiledLayout) : Prop where
  accepted : ∃ tiling, Tiling.create canonical.tiles = .ok tiling ∧
    create tiling canonical.warpDims canonical.laneDims canonical.vectorDim true = .ok canonical
  fixed : canonical.canonicalize = .ok canonical
  elements : ∀ shape tiled, tileShape layout.tiles shape = .ok tiled →
    ∀ warp lane : ℕ, (warp : ℤ) < WARPS_IN_WARPGROUP → (lane : ℤ) < WARP_SIZE →
      ∃ idxs, threadIdxs layout shape warp lane = .ok idxs ∧
        threadIdxs canonical shape warp lane = .ok idxs

theorem create_tiled {tiling : Tiling} {warpDims laneDims : List Dim} {vectorDim : ℤ}
    {checkCanonical : Bool} {layout : TiledLayout}
    (h : create tiling warpDims laneDims vectorDim checkCanonical = .ok layout) :
    ∃ minShape tiles tiled, tiling.tiles = minShape :: tiles ∧
      tileShape (minShape :: tiles) minShape = .ok tiled := by
  unfold create at h
  cases htiles : tiling.tiles with
  | nil =>
      rw [htiles] at h
      exact absurd h (by simp)
  | cons minShape tiles =>
      rw [htiles] at h
      obtain ⟨tiled, hshape, -⟩ := bind_ok.mp h
      exact ⟨minShape, tiles, tiled, rfl, hshape⟩

theorem Tiles.length_le {tile : Tile} {tiles : List Tile} {shape tiled : List ℤ}
    (h : Tiles (tile :: tiles) shape tiled) : tile.length ≤ shape.length := by
  cases h with
  | cons hdiv _ =>
      rw [List.length_append, hdiv.length_eq]
      omega

/-- The first step of a layout that `Create` accepts, and what its dimensions fit. -/
theorem create_spec {tiling : Tiling} {warpDims laneDims : List Dim} {vectorDim : ℤ}
    {checkCanonical : Bool} {layout : TiledLayout}
    (h : create tiling warpDims laneDims vectorDim checkCanonical = .ok layout) :
    ∃ minShape tiles tiled, tiling.tiles = minShape :: tiles ∧
      Tiles (minShape :: tiles) minShape tiled ∧
      layout = ⟨minShape :: tiles, warpDims, laneDims, vectorDim⟩ ∧
      Fits (sizes layout.cells) warpDims laneDims vectorDim := by
  obtain ⟨minShape, tiles, tiled, htiles, hshape⟩ := create_tiled h
  have hrun := tiles_of_tileShape hshape
  obtain ⟨-, -, front, hfront, htiled, -⟩ := tiled_cells (htiles ▸ tiling.decreasing)
    (htiles ▸ tiling.nonempty) (htiles ▸ tiling.positive) hrun (length_contiguousStrides minShape)
  have htrail : trail minShape.length (contiguousStrides minShape) = contiguousStrides minShape := by
    simp [trail, length_contiguousStrides]
  rw [htrail, sizes_append] at htiled
  obtain ⟨hfits, rfl, -⟩ :=
    (create_iff htiles (htiled ▸ hshape) ((length_sizes front).trans hfront)).mp h
  exact ⟨minShape, tiles, tiled, htiles, hrun, rfl, hfits⟩

/-- The vector dimension is kept, or lost. -/
theorem vectorDimKept_iff {cs : List Cell} {removed : List Bool} {layout : TiledLayout}
    (hsizes : sizes cs = sizes layout.cells)
    (hsizes' : sizes (neededCells cs) = sizes (neededCells layout.cells))
    (h : Matched cs.reverse (neededCells cs).reverse removed)
    (hrange : InRange cs.length layout.vectorDim) :
    VectorDimKept cs (neededCells cs) removed layout.vectorDim ↔ ¬ VectorDimLost layout := by
  unfold VectorDimKept VectorDimLost
  rw [← hsizes, ← hsizes', not_and, not_not]
  exact imp_congr_right fun hone => renumber_one h hrange hone

/-- **A layout whose vector dimension is not lost has a canonical form.** -/
theorem canonicalForm_of_kept {tiling : Tiling} {warpDims laneDims : List Dim} {vectorDim : ℤ}
    {layout : TiledLayout} (h : create tiling warpDims laneDims vectorDim false = .ok layout)
    (hkept : ¬ VectorDimLost layout) :
    ∃ canonical, layout.canonicalize = .ok canonical ∧ CanonicalForm layout canonical := by
  obtain ⟨minShape, tiles, tiled, htiles, hrun, rfl, hfits⟩ := create_spec h
  have hdec : (minShape :: tiles).Pairwise fun t u => u.length ≤ t.length :=
    htiles ▸ tiling.decreasing
  have hne : ∀ t ∈ minShape :: tiles, t ≠ [] := htiles ▸ tiling.nonempty
  have hpos : ∀ t ∈ minShape :: tiles, ∀ d ∈ t, 0 < d := htiles ▸ tiling.positive
  have hvector : vectorDim ∈ layoutDims warpDims laneDims vectorDim := by simp [layoutDims]
  -- the search, for the cells of any array
  have hsearch : ∀ ss : List ℤ, ss.length = minShape.length →
      let cs := baseCells minShape tiles ss
      tiledTilingShape (minShape :: tiles) = .ok (sizes cs) ∧
      tiledTilingShape (canonicalTiling (minShape :: tiles)) = .ok (sizes (neededCells cs)) ∧
      ∃ removed, Matched cs.reverse (neededCells cs).reverse removed ∧
        VectorDimKept cs (neededCells cs) removed vectorDim ∧
        Fits (sizes cs) warpDims laneDims vectorDim ∧
        canonicalize ⟨minShape :: tiles, warpDims, laneDims, vectorDim⟩ =
          .ok ⟨canonicalTiling (minShape :: tiles), renumberDims (sizes cs) removed warpDims,
            renumberDims (sizes cs) removed laneDims, renumber removed vectorDim⟩ := by
    intro ss hss cs
    obtain ⟨hshape, hshape'⟩ := tiledTilingShape_baseCells hdec hne hpos hrun hss
    obtain ⟨hbase, hbase'⟩ := tiledTilingShape_baseCells hdec hne hpos hrun
      (length_contiguousStrides minShape)
    have hsizes := Except.ok.inj (hshape.symm.trans hbase)
    have hsizes' := Except.ok.inj (hshape'.symm.trans hbase')
    have hdropped := (tiled_cells hdec hne hpos hrun hss).1
    rw [show trail minShape.length ss = ss by simp [trail, hss]] at hdropped
    obtain ⟨removed, hmatched, -, hcanonicalize⟩ := canonicalize_eq hshape hshape' hdropped
    have hfits' : Fits (sizes cs) warpDims laneDims vectorDim := hsizes ▸ hfits
    refine ⟨hshape, hshape', removed, hmatched, ?_, hfits', hcanonicalize⟩
    exact (vectorDimKept_iff hsizes hsizes' hmatched (by simpa using hfits'.range _ hvector)).mpr
      hkept
  obtain ⟨-, hshape', removed, hmatched, hvec, hfits, hcanonicalize⟩ :=
    hsearch _ (length_contiguousStrides minShape)
  refine ⟨_, hcanonicalize, ?_⟩
  have hdims : ∀ d ∈ layoutDims warpDims laneDims vectorDim,
      InRange (baseCells minShape tiles (contiguousStrides minShape)).length d :=
    fun d hd => by simpa using hfits.range d hd
  have hnontrivial : ∀ dims : List Dim, (∀ d ∈ partitionedDims dims,
      d ∈ layoutDims warpDims laneDims vectorDim) → ∀ a ∈ renumberDims _ removed dims,
        isNontrivial _ a = true := fun dims hmem =>
    isNontrivial_renumberDims hmatched fun d hd => hdims d (hmem d hd)
  have hfixed := canonicalize_self (canonicalTiling_idem (minShape :: tiles)) hshape'
    (hnontrivial warpDims fun d hd => by simp [layoutDims, hd])
    (hnontrivial laneDims fun d hd => by simp [layoutDims, hd])
  obtain ⟨-, hdec', front, hfront, -, -, hcanonical, -⟩ :=
    tiled_cells hdec hne hpos hrun (length_contiguousStrides minShape)
  refine ⟨?_, hfixed _, ?_⟩
  · -- the checks of `Create`
    have hvalid : ∀ t ∈ canonicalTiling (minShape :: tiles), t ≠ [] ∧ ∀ d ∈ t, 0 < d := by
      intro t ht
      rcases List.mem_cons.mp ht with rfl | ht
      · exact ⟨hne t List.mem_cons_self, hpos t List.mem_cons_self⟩
      · exact canonicalizeLoop_valid (fun u hu => hpos u (List.mem_cons_of_mem _ hu)) t ht
    let tiling' : Tiling := ⟨canonicalTiling (minShape :: tiles), hdec', fun t ht => (hvalid t ht).1,
      fun t ht => (hvalid t ht).2⟩
    have htrail : trail minShape.length (contiguousStrides minShape) =
        contiguousStrides minShape := by simp [trail, length_contiguousStrides]
    rw [htrail, sizes_append] at hcanonical
    refine ⟨tiling', Tiling.create_tiles tiling', ?_⟩
    exact (@create_iff tiling' _ _ _ _ _ _ _ _ _ rfl (tileShape_of_tiles hcanonical)
      ((length_sizes front).trans hfront)).mpr ⟨hfits.renumber hmatched hvec, rfl, fun _ => hfixed _⟩
  · -- the elements of any array
    intro shape tiled' hshape warp lane _ _
    have hlen := length_contiguousStrides shape
    obtain ⟨-, -, front, -, htiled, hstrides, hcanonical, hstrides'⟩ :=
      tiled_cells hdec hne hpos (tiles_of_tileShape hshape) hlen
    have htrail : (trail minShape.length (contiguousStrides shape)).length = minShape.length := by
      have := (tiles_of_tileShape hshape).length_le
      exact length_trail (by simpa [hlen] using this)
    obtain ⟨hbase, hbase', removed', hmatched, hvec, hfits, hcanonicalize'⟩ := hsearch _ htrail
    rw [Except.ok.inj (hcanonicalize.symm.trans hcanonicalize')]
    exact threadIdxs_renumber hmatched hbase (htiled ▸ hshape) hstrides hbase'
      (tileShape_of_tiles hcanonical) hstrides' hfits hvec warp lane

theorem mem_zipWith_tdiv : ∀ {dims : List ℤ} {tile : Tile} {d : ℤ},
    List.Forall₂ (fun dim t => t ∣ dim) dims tile →
      d ∈ List.zipWith (fun dim t => dim.tdiv t) dims tile →
      ∃ x t, x ∈ dims ∧ t ∈ tile ∧ d = x.tdiv t ∧ t ∣ x
  | [], _, _, _, h => absurd h (by simp)
  | x :: dims, t :: tile, d, .cons hd hdiv, h => by
      rcases List.mem_cons.mp h with rfl | h
      · exact ⟨x, t, List.mem_cons_self, List.mem_cons_self, rfl, hd⟩
      · obtain ⟨y, u, hy, hu, heq, hdvd⟩ := mem_zipWith_tdiv hdiv h
        exact ⟨y, u, List.mem_cons_of_mem _ hy, List.mem_cons_of_mem _ hu, heq, hdvd⟩

theorem Tiles.pos {tiles : List Tile} {shape tiled : List ℤ} (h : Tiles tiles shape tiled) :
    (∀ t ∈ tiles, ∀ d ∈ t, 0 < d) → (∀ d ∈ shape, 0 < d) → ∀ d ∈ tiled, 0 < d := by
  induction h with
  | nil => exact fun _ hshape => hshape
  | @cons tile tiles pre dims tiled hdiv _ ih =>
      intro htiles hshape
      obtain ⟨htile, htiles⟩ := List.forall_mem_cons.mp htiles
      refine ih htiles fun d hd => ?_
      rcases List.mem_append.mp hd with hd | hd
      · exact hshape d (List.mem_append_left _ hd)
      rcases List.mem_append.mp hd with hd | hd
      · -- a quotient of two sizes
        obtain ⟨x, t, hx, ht, rfl, hdvd⟩ := mem_zipWith_tdiv hdiv hd
        have hx := hshape x (List.mem_append_right _ hx)
        have hmul := Int.tdiv_mul_cancel hdvd
        have ht := htile t ht
        by_contra hneg
        have : x.tdiv t * t ≤ 0 := Int.mul_nonpos_of_nonpos_of_nonneg (by omega) (by omega)
        omega
      · exact htile d hd

theorem offsets_ne_nil : ∀ {dims : List (ℤ × ℤ)}, (∀ p ∈ dims, 0 < p.1) → offsets dims ≠ []
  | [], _ => by simp [offsets]
  | (n, s) :: dims, h => by
      obtain ⟨hn, h⟩ := List.forall_mem_cons.mp h
      have ih := offsets_ne_nil h
      have h0 : 0 ∈ List.range n.toNat := by
        rw [List.mem_range]
        simp only at hn
        omega
      intro hnil
      rw [offsets, List.flatMap_eq_nil_iff] at hnil
      exact ih (List.map_eq_nil_iff.mp (hnil 0 h0))

theorem Tiling.create_ok {tiles : List Tile} {tiling : Tiling}
    (h : Tiling.create tiles = .ok tiling) : tiling.tiles = tiles := by
  unfold Tiling.create at h
  split at h
  · injection h with h
    rw [← h]
  · exact absurd h (by simp)

theorem mem_of_mem_free : ∀ {cs : List Cell} {taken : ℕ → Bool} {c : Cell},
    c ∈ free taken cs → c ∈ cs
  | [], _, _, h => absurd h (by simp [free])
  | d :: cs, taken, c, h => by
      rw [free] at h
      split at h
      · rcases List.mem_cons.mp h with rfl | h
        · exact List.mem_cons_self
        · exact List.mem_cons_of_mem d (mem_of_mem_free h)
      · exact List.mem_cons_of_mem d (mem_of_mem_free h)

theorem registers_pos {front cs : List Cell} (h : ∀ d ∈ sizes (front ++ cs), 0 < d)
    (taken : ℕ → Bool) :
    ∀ p ∈ ((sizes front).zip (strides front)).filter (·.1 ≠ 1) ++
      ((free taken cs.reverse).map fun c => (c.size, c.stride)).reverse, 0 < p.1 := by
  intro p hp
  refine h p.1 ?_
  rw [sizes_append, List.mem_append]
  rcases List.mem_append.mp hp with hp | hp
  · exact .inl (List.of_mem_zip (List.mem_filter.mp hp).1).1
  · obtain ⟨c, hc, rfl⟩ := List.mem_map.mp (List.mem_reverse.mp hp)
    exact .inr (List.mem_map_of_mem (List.mem_reverse.mp (mem_of_mem_free hc)))

/-- **A layout whose vector dimension is lost has no canonical form**: either the dimensions of
the result are not different, or its vectors have another length. -/
theorem not_canonicalForm_of_lost {tiling : Tiling} {warpDims laneDims : List Dim} {vectorDim : ℤ}
    {layout canonical : TiledLayout}
    (h : create tiling warpDims laneDims vectorDim false = .ok layout)
    (hlost : VectorDimLost layout) (hcanonical : layout.canonicalize = .ok canonical) :
    ¬ CanonicalForm layout canonical := by
  intro hform
  obtain ⟨minShape, tiles, tiled, htiles, hrun, rfl, hfits⟩ := create_spec h
  have hdec : (minShape :: tiles).Pairwise fun t u => u.length ≤ t.length :=
    htiles ▸ tiling.decreasing
  have hne : ∀ t ∈ minShape :: tiles, t ≠ [] := htiles ▸ tiling.nonempty
  have hpos : ∀ t ∈ minShape :: tiles, ∀ d ∈ t, 0 < d := htiles ▸ tiling.positive
  have hlen := length_contiguousStrides minShape
  obtain ⟨hbase, hbase'⟩ := tiledTilingShape_baseCells hdec hne hpos hrun hlen
  obtain ⟨hdropped, -, front, hfront, htiled, hstrides, hcanonicalRun, hstrides'⟩ :=
    tiled_cells hdec hne hpos hrun hlen
  have htrail : trail minShape.length (contiguousStrides minShape) = contiguousStrides minShape := by
    simp [trail, hlen]
  rw [htrail, ← baseCells] at hdropped htiled hstrides hcanonicalRun hstrides'
  obtain ⟨removed, hmatched, -, hcanonicalize⟩ := canonicalize_eq hbase hbase' hdropped
  obtain rfl := Except.ok.inj (hcanonical.symm.trans hcanonicalize)
  have hvector : InRange (baseCells minShape tiles (contiguousStrides minShape)).length vectorDim := by
    simpa [cells] using hfits.range vectorDim (by simp [layoutDims])
  -- what the second `Create` has checked
  obtain ⟨tiling', htiling', hcreate⟩ := hform.accepted
  rw [sizes_append] at hcanonicalRun
  have hfits' := ((create_iff (Tiling.create_ok htiling') (tileShape_of_tiles hcanonicalRun)
    ((length_sizes front).trans hfront)).mp hcreate).1
  have hsize' : fromEnd (sizes (neededCells (baseCells minShape tiles (contiguousStrides minShape))))
      (renumber removed vectorDim) ≠ 1 := by
    intro hone
    refine hlost.2 ((renumber_one hmatched hvector hlost.1).mp ⟨?_, hone⟩)
    simpa using hfits'.range _ (by simp [layoutDims])
  -- the elements of the base tile
  obtain ⟨idxs, hidxs, hidxs'⟩ := hform.elements minShape tiled (tileShape_of_tiles hrun) 0 0
    (by decide) (by decide)
  rw [← sizes_append] at hcanonicalRun
  rw [threadIdxs_eq hbase (htiled ▸ tileShape_of_tiles hrun) hstrides hfits] at hidxs
  rw [threadIdxs_eq hbase' (tileShape_of_tiles hcanonicalRun) hstrides' hfits'] at hidxs'
  have heq := (Except.ok.inj hidxs).trans (Except.ok.inj hidxs').symm
  have hall := hrun.pos hpos (hpos minShape List.mem_cons_self)
  rw [htiled] at hall
  obtain ⟨o, os, ho⟩ := List.exists_cons_of_ne_nil (offsets_ne_nil (registers_pos hall
    fun k => -((k : ℤ) + 1) ∈ layoutDims warpDims laneDims vectorDim))
  rw [ho, List.map_cons] at heq
  cases ho' : offsets (((sizes front).zip (strides front)).filter (·.1 ≠ 1) ++
      ((free (fun k => -((k : ℤ) + 1) ∈ layoutDims (renumberDims _ removed warpDims)
        (renumberDims _ removed laneDims) (renumber removed vectorDim)) _).map
          fun c => (c.size, c.stride)).reverse) with
  | nil =>
      rw [ho'] at heq
      exact absurd heq (by simp)
  | cons o' os' =>
      rw [ho', List.map_cons] at heq
      -- the vectors have different lengths
      have hlength := congrArg List.length (List.cons.inj heq).1
      rw [List.length_map, List.length_map, List.length_range, List.length_range] at hlength
      have hone : fromEnd (sizes (baseCells minShape tiles (contiguousStrides minShape))) vectorDim =
        1 := hlost.1
      rw [hone] at hlength
      dsimp only at hlength
      omega

/--
**When `Canonicalize` is right.** For every layout that `Create` accepts: the result of
`Canonicalize` is accepted as a canonical layout, is its own canonical form, and assigns
the same element to each place of each array, if and only if the vector dimension is not
lost.
-/
theorem canonicalForm_iff {tiling : Tiling} {warpDims laneDims : List Dim} {vectorDim : ℤ}
    {layout : TiledLayout} (h : create tiling warpDims laneDims vectorDim false = .ok layout) :
    (∃ canonical, layout.canonicalize = .ok canonical ∧ CanonicalForm layout canonical) ↔
      ¬ VectorDimLost layout :=
  ⟨fun ⟨_, hcanonical, hform⟩ hlost => not_canonicalForm_of_lost h hlost hcanonical hform,
    canonicalForm_of_kept h⟩

/-- The layout of the accumulator of a matrix product. -/
def wgmmaLayout : TiledLayout :=
  ⟨[[64, 8], [16, 8], [8, 8], [1, 2]], [.dim (-8)], [.dim (-4), .dim (-3)], -1⟩

theorem canonicalForm_iff_wgmma :
    (∃ canonical, wgmmaLayout.canonicalize = .ok canonical ∧
      CanonicalForm wgmmaLayout canonical) ↔ ¬ VectorDimLost wgmmaLayout :=
  canonicalForm_iff (by decide : create wgmmaTiling [.dim (-8)] [.dim (-4), .dim (-3)] (-1) false =
    .ok wgmmaLayout)

/-- A redundant second tile; the vector dimension is one of its numbers of tiles. -/
def lostTiling : Tiling where
  tiles := [[4, 32], [4, 32]]
  decreasing := by decide
  nonempty := by decide
  positive := by decide

/-- The canonical form has the vector dimension -2, which is the warp dimension. -/
theorem lostTiling_no_canonicalForm :
    ∃ layout, create lostTiling [.dim (-2)] [.dim (-1)] (-3) false = .ok layout ∧
      ¬ ∃ canonical, layout.canonicalize = .ok canonical ∧ CanonicalForm layout canonical := by
  have hcreate : create lostTiling [.dim (-2)] [.dim (-1)] (-3) false =
      .ok ⟨lostTiling.tiles, [.dim (-2)], [.dim (-1)], -3⟩ := by decide
  refine ⟨_, hcreate, fun ⟨canonical, hcanonical, hform⟩ => ?_⟩
  exact not_canonicalForm_of_lost hcreate (by decide) hcanonical hform

end JaxDas.TiledLayout
