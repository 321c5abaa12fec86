import JaxDas.TiledLayout.Tiling

/-!
# Tiling moves every element, and loses none

An index inside a shape is unfolded to an index inside the tiled shape, from which it
can be folded back; every index of the tiled shape comes from one index; and the two
have the same address, if the strides are unfolded along with the shape.

Each of these is a lemma about one step, on the trailing dimensions of the tile, and an
induction over `Tiles`.
-/

namespace JaxDas.TiledLayout

open Related

/-- An index of an array. -/
def InBounds (shape indices : List ℤ) : Prop :=
  List.Forall₂ (fun dim i => 0 ≤ i ∧ i < dim) shape indices

/-- The address of an index. -/
def dot {R : Type} [CommRing R] (indices : List ℤ) (strides : List R) : R :=
  (List.zipWith (fun (i : ℤ) (s : R) => (i : R) * s) indices strides).sum

theorem InBounds.append {shape shape' i i' : List ℤ} (h : InBounds shape i)
    (h' : InBounds shape' i') : InBounds (shape ++ shape') (i ++ i') :=
  List.rel_append h h'

theorem InBounds.split {shape shape' i : List ℤ} (h : InBounds (shape ++ shape') i) :
    ∃ j j', i = j ++ j' ∧ InBounds shape j ∧ InBounds shape' j' := forall₂_split h

theorem dot_append {R : Type} [CommRing R] {i i' : List ℤ} {s s' : List R}
    (h : i.length = s.length) : dot (i ++ i') (s ++ s') = dot i s + dot i' s' := by
  rw [dot, List.zipWith_append h, List.sum_append]
  rfl

@[simp] theorem dot_nil {R : Type} [CommRing R] (s : List R) : dot [] s = 0 := rfl

@[simp] theorem dot_cons {R : Type} [CommRing R] (i : ℤ) (is : List ℤ) (s : R) (ss : List R) :
    dot (i :: is) (s :: ss) = i * s + dot is ss := by simp [dot]

/-! ## One step -/

section Step

variable {pre dims : List ℤ} {tile : Tile}

theorem zipWith_tdiv_mul : ∀ {dims : List ℤ} {tile : Tile},
    List.Forall₂ (fun dim t => t ∣ dim) dims tile →
      List.zipWith (· * ·) (List.zipWith (fun dim t => dim.tdiv t) dims tile) tile = dims
  | [], [], _ => rfl
  | _ :: _, _ :: _, .cons hd h => by
      rw [List.zipWith_cons_cons, List.zipWith_cons_cons, zipWith_tdiv_mul h,
        Int.tdiv_mul_cancel hd]

/-- **Shapes**: the two halves of an unfolded dimension multiply to it. -/
theorem untileShapeStep_tiled (h : List.Forall₂ (fun dim t => t ∣ dim) dims tile) :
    untileShapeStep (pre ++ (List.zipWith (fun dim t => dim.tdiv t) dims tile ++ tile)) tile =
      .ok (pre ++ dims) := by
  have hlen := h.length_eq
  have hdiv : (List.zipWith (fun dim t => dim.tdiv t) dims tile).length = tile.length := by
    rw [List.length_zipWith]; omega
  have htail : (List.zipWith (fun dim t => dim.tdiv t) dims tile ++ tile).length =
      2 * tile.length := by rw [List.length_append]; omega
  unfold untileShapeStep
  rw [lead_append_of_length pre htail, trail_append_of_length pre htail,
    if_neg (by rw [List.length_append]; omega), List.take_left' hdiv, List.drop_left' hdiv]
  dsimp only
  rw [if_neg (not_not.mpr rfl), zipWith_tdiv_mul h]

/-- An index into one dimension, unfolded by a tile. -/
theorem unfold_inBounds {dim t i : ℤ} (ht : 0 < t) (hd : t ∣ dim) (h : 0 ≤ i ∧ i < dim) :
    (0 ≤ i.tdiv t ∧ i.tdiv t < dim.tdiv t) ∧ 0 ≤ i.tmod t ∧ i.tmod t < t := by
  have hdim : 0 ≤ dim := le_of_lt (lt_of_le_of_lt h.1 h.2)
  rw [Int.tdiv_eq_ediv_of_nonneg h.1, Int.tdiv_eq_ediv_of_nonneg hdim,
    Int.tmod_eq_emod_of_nonneg h.1]
  refine ⟨⟨Int.ediv_nonneg h.1 (le_of_lt ht), ?_⟩, Int.emod_nonneg i (ne_of_gt ht),
    Int.emod_lt_of_pos i ht⟩
  rw [Int.ediv_lt_iff_lt_mul ht, Int.ediv_mul_cancel hd]
  exact h.2

/-- An index into both parts of an unfolded dimension, folded back. -/
theorem fold_inBounds {dim t q r : ℤ} (hd : t ∣ dim) (hq : 0 ≤ q ∧ q < dim.tdiv t)
    (hr : 0 ≤ r ∧ r < t) :
    (0 ≤ q * t + r ∧ q * t + r < dim) ∧ (q * t + r).tdiv t = q ∧ (q * t + r).tmod t = r := by
  have ht : 0 < t := lt_of_le_of_lt hr.1 hr.2
  have hnn : 0 ≤ q * t + r := by
    have hmul := mul_nonneg hq.1 (le_of_lt ht)
    omega
  have hlt : q * t + r < dim := by
    have hmul : (q + 1) * t ≤ dim.tdiv t * t :=
      mul_le_mul_of_nonneg_right (by omega) (le_of_lt ht)
    rw [Int.tdiv_mul_cancel hd] at hmul
    have hexpand : (q + 1) * t = q * t + t := by ring
    omega
  refine ⟨⟨hnn, hlt⟩, ?_, ?_⟩
  · rw [Int.tdiv_eq_ediv_of_nonneg hnn, Int.add_comm, Int.add_mul_ediv_right _ _ (ne_of_gt ht),
      Int.ediv_eq_zero_of_lt hr.1 hr.2, Int.zero_add]
  · rw [Int.tmod_eq_emod_of_nonneg hnn, Int.add_comm, Int.add_mul_emod_self_right,
      Int.emod_eq_of_lt hr.1 hr.2]

/-- Unfolding the trailing part of an index. -/
theorem unfoldAll_inBounds (ht : ∀ t ∈ tile, 0 < t) : ∀ {dims : List ℤ} {i : List ℤ},
    List.Forall₂ (fun dim t => t ∣ dim) dims tile → InBounds dims i →
      InBounds (List.zipWith (fun dim t => dim.tdiv t) dims tile)
          (List.zipWith (fun i t => i.tdiv t) i tile) ∧
        InBounds tile (List.zipWith (fun i t => i.tmod t) i tile) := by
  induction tile with
  | nil =>
      intro dims i h hi
      cases h
      cases hi
      exact ⟨.nil, .nil⟩
  | cons t tile ih =>
      intro dims i h hi
      cases h with
      | cons hd h =>
          cases hi with
          | cons hi his =>
              obtain ⟨hq, hr⟩ := ih (fun t h => ht t (List.mem_cons_of_mem _ h)) h his
              obtain ⟨hq₀, hr₀⟩ := unfold_inBounds (ht t List.mem_cons_self) hd hi
              exact ⟨.cons hq₀ hq, .cons hr₀ hr⟩

theorem tileIndicesStep_append {ipre idims : List ℤ} (h : idims.length = tile.length) :
    tileIndicesStep (ipre ++ idims) tile = ipre ++
      (List.zipWith (fun i t => i.tdiv t) idims tile ++
        List.zipWith (fun i t => i.tmod t) idims tile) := by
  rw [tileIndicesStep, lead_append_of_length ipre h, trail_append_of_length ipre h]

theorem untileIndicesStep_append {ipre outer inner : List ℤ} (ho : outer.length = tile.length)
    (hi : inner.length = tile.length) :
    untileIndicesStep (ipre ++ (outer ++ inner)) tile =
      ipre ++ List.zipWith (· + ·) (List.zipWith (· * ·) outer tile) inner := by
  have htail : (outer ++ inner).length = 2 * tile.length := by rw [List.length_append]; omega
  unfold untileIndicesStep
  rw [lead_append_of_length ipre htail, trail_append_of_length ipre htail, List.take_left' ho,
    List.drop_left' ho]

/-- Folding the trailing part of an index back. -/
theorem foldAll_inBounds : ∀ {dims : List ℤ} {tile : Tile} {outer inner : List ℤ},
    List.Forall₂ (fun dim t => t ∣ dim) dims tile →
    InBounds (List.zipWith (fun dim t => dim.tdiv t) dims tile) outer → InBounds tile inner →
      InBounds dims (List.zipWith (· + ·) (List.zipWith (· * ·) outer tile) inner) ∧
        List.zipWith (fun i t => i.tdiv t)
          (List.zipWith (· + ·) (List.zipWith (· * ·) outer tile) inner) tile = outer ∧
        List.zipWith (fun i t => i.tmod t)
          (List.zipWith (· + ·) (List.zipWith (· * ·) outer tile) inner) tile = inner
  | [], [], _, _, _, hq, hr => by
      cases hq
      cases hr
      exact ⟨.nil, rfl, rfl⟩
  | _ :: _, _ :: _, _, _, .cons hd h, hq, hr => by
      cases hq with
      | cons hq hqs =>
          cases hr with
          | cons hr hrs =>
              obtain ⟨hall, hdivs, hmods⟩ := foldAll_inBounds h hqs hrs
              obtain ⟨hin, hdiv, hmod⟩ := fold_inBounds hd hq hr
              refine ⟨.cons hin hall, ?_, ?_⟩
              · simp only [List.zipWith_cons_cons, hdiv, hdivs]
              · simp only [List.zipWith_cons_cons, hmod, hmods]

/-- **Indices, forth**: a step keeps them in bounds. -/
theorem tileIndicesStep_inBounds (ht : ∀ t ∈ tile, 0 < t)
    (h : List.Forall₂ (fun dim t => t ∣ dim) dims tile) {i : List ℤ} (hi : InBounds (pre ++ dims) i) :
    InBounds (pre ++ (List.zipWith (fun dim t => dim.tdiv t) dims tile ++ tile))
      (tileIndicesStep i tile) := by
  obtain ⟨ipre, idims, rfl, hpre, hdims⟩ := hi.split
  rw [tileIndicesStep_append (hdims.length_eq.symm.trans h.length_eq)]
  obtain ⟨hq, hr⟩ := unfoldAll_inBounds ht h hdims
  exact hpre.append (hq.append hr)

/-- **Indices, back**: every index in bounds comes from the one it is folded to. -/
theorem untileIndicesStep_inBounds (h : List.Forall₂ (fun dim t => t ∣ dim) dims tile) {j : List ℤ}
    (hj : InBounds (pre ++ (List.zipWith (fun dim t => dim.tdiv t) dims tile ++ tile)) j) :
    InBounds (pre ++ dims) (untileIndicesStep j tile) ∧
      tileIndicesStep (untileIndicesStep j tile) tile = j := by
  obtain ⟨jpre, j', rfl, hpre, hj'⟩ := hj.split
  obtain ⟨outer, inner, rfl, hq, hr⟩ := hj'.split
  have hlen := h.length_eq
  have ho : outer.length = tile.length := by
    rw [← hq.length_eq, List.length_zipWith]; omega
  rw [untileIndicesStep_append ho hr.length_eq.symm]
  obtain ⟨hall, hdiv, hmod⟩ := foldAll_inBounds h hq hr
  refine ⟨hpre.append hall, ?_⟩
  rw [tileIndicesStep_append (hall.length_eq.symm.trans hlen), hdiv, hmod]

/-- Unfolding and folding back. -/
theorem foldAll_unfoldAll : ∀ {i : List ℤ} {tile : Tile}, i.length = tile.length →
    List.zipWith (· + ·) (List.zipWith (· * ·) (List.zipWith (fun i t => i.tdiv t) i tile) tile)
      (List.zipWith (fun i t => i.tmod t) i tile) = i
  | [], [], _ => rfl
  | [], _ :: _, h => absurd h (by simp)
  | _ :: _, [], h => absurd h (by simp)
  | i :: is, t :: tile, h => by
      simp only [List.zipWith_cons_cons]
      rw [foldAll_unfoldAll (Nat.succ.inj h), Int.tdiv_mul_add_tmod]

theorem untileIndicesStep_tiled {ipre idims : List ℤ} (h : idims.length = tile.length) :
    untileIndicesStep (tileIndicesStep (ipre ++ idims) tile) tile = ipre ++ idims := by
  rw [tileIndicesStep_append h, untileIndicesStep_append (by rw [List.length_zipWith]; omega)
    (by rw [List.length_zipWith]; omega), foldAll_unfoldAll h]

/-- **Addresses** of the trailing dimensions. -/
theorem dot_unfoldAll {R : Type} [CommRing R] : ∀ {i : List ℤ} {s : List R} {tile : Tile},
    i.length = tile.length → s.length = tile.length →
      dot (List.zipWith (fun i t => i.tdiv t) i tile)
          (List.zipWith (fun (s : R) (t : ℤ) => s * (t : R)) s tile) +
        dot (List.zipWith (fun i t => i.tmod t) i tile) s = dot i s
  | [], [], [], _, _ => by simp
  | i :: is, s :: ss, t :: tile, hi, hs => by
      have ih := dot_unfoldAll (R := R) (Nat.succ.inj hi) (Nat.succ.inj hs)
      have hit : ((i.tdiv t : ℤ) : R) * (t : R) + ((i.tmod t : ℤ) : R) = (i : R) := by
        rw [← Int.cast_mul, ← Int.cast_add, Int.tdiv_mul_add_tmod]
      simp only [List.zipWith_cons_cons, dot_cons]
      linear_combination s * hit + ih
  | _ :: _, [], [], hi, _ => absurd hi (by simp)
  | [], _ :: _, _, hi, hs => absurd hs (by rw [← hi]; simp)
  | [], [], _ :: _, hi, _ => absurd hi (by simp)
  | _ :: _, [], _ :: _, _, hs => absurd hs (by simp)
  | _ :: _, _ :: _, [], hi, _ => absurd hi (by simp)

theorem dot_tileStep {R : Type} [CommRing R] {ipre idims : List ℤ} {spre sdims : List R}
    (hpre : ipre.length = spre.length) (hi : idims.length = tile.length)
    (hs : sdims.length = tile.length) :
    dot (tileIndicesStep (ipre ++ idims) tile) (tileStridesStep (spre ++ sdims) tile) =
      dot (ipre ++ idims) (spre ++ sdims) := by
  rw [tileIndicesStep_append hi, tileStridesStep, lead_append_of_length spre hs,
    trail_append_of_length spre hs, dot_append hpre, dot_append hpre,
    dot_append (by rw [List.length_zipWith, List.length_zipWith]; omega), dot_unfoldAll hi hs]

end Step

/-! ## Tilings -/

theorem Tiles.untileShape {tiles : List Tile} {shape tiled : List ℤ} (h : Tiles tiles shape tiled) :
    TiledLayout.untileShape tiles tiled = .ok shape := by
  induction h with
  | nil => rfl
  | cons hdiv _ ih =>
      unfold TiledLayout.untileShape at ih ⊢
      rw [List.reverse_cons, List.foldlM_append, ih]
      show untileShapeStep _ _ >>= _ = _
      rw [untileShapeStep_tiled hdiv]
      rfl

theorem untileIndices_cons (tile : Tile) (tiles : List Tile) (j : List ℤ) :
    untileIndices (tile :: tiles) j = untileIndicesStep (untileIndices tiles j) tile := by
  unfold untileIndices
  rw [List.reverse_cons, List.foldl_append]
  rfl

theorem Tiles.tileIndices {tiles : List Tile} {shape tiled : List ℤ} (h : Tiles tiles shape tiled) :
    (∀ t ∈ tiles, ∀ d ∈ t, 0 < d) → ∀ {i : List ℤ}, InBounds shape i →
      InBounds tiled (TiledLayout.tileIndices tiles i) ∧
        TiledLayout.untileIndices tiles (TiledLayout.tileIndices tiles i) = i := by
  induction h with
  | nil => intro _ i hi; exact ⟨hi, rfl⟩
  | @cons tile tiles pre dims tiled hdiv _ ih =>
      intro hpos i hi
      have hstep := tileIndicesStep_inBounds (hpos tile List.mem_cons_self) hdiv hi
      obtain ⟨hin, hback⟩ := ih (fun t ht => hpos t (List.mem_cons_of_mem _ ht)) hstep
      refine ⟨hin, ?_⟩
      have hcons : TiledLayout.tileIndices (tile :: tiles) i =
          TiledLayout.tileIndices tiles (tileIndicesStep i tile) := rfl
      rw [untileIndices_cons, hcons, hback]
      obtain ⟨ipre, idims, rfl, _, hdims⟩ := hi.split
      exact untileIndicesStep_tiled (hdims.length_eq.symm.trans hdiv.length_eq)

/-- Every index of the tiled shape comes from an index of the shape. -/
theorem Tiles.untileIndices {tiles : List Tile} {shape tiled : List ℤ} (h : Tiles tiles shape tiled) :
    ∀ {j : List ℤ}, InBounds tiled j → ∃ i, InBounds shape i ∧ TiledLayout.tileIndices tiles i = j := by
  induction h with
  | nil => intro j hj; exact ⟨j, hj, rfl⟩
  | cons hdiv _ ih =>
      intro j hj
      obtain ⟨i', hi', rfl⟩ := ih hj
      obtain ⟨hi, hback⟩ := untileIndicesStep_inBounds hdiv hi'
      exact ⟨_, hi, congrArg (TiledLayout.tileIndices _) hback⟩

theorem Tiles.dot {R : Type} [CommRing R] {tiles : List Tile} {shape tiled : List ℤ}
    (h : Tiles tiles shape tiled) : ∀ {i : List ℤ} {s : List R}, i.length = shape.length →
      s.length = shape.length →
      TiledLayout.dot (TiledLayout.tileIndices tiles i) (tileStrides tiles s) =
        TiledLayout.dot i s := by
  induction h with
  | nil => intro i s _ _; rfl
  | @cons tile tiles pre dims tiled hdiv _ ih =>
      intro i s hi hs
      have hlen := hdiv.length_eq
      rw [List.length_append] at hi hs
      -- Both vectors are cut where the tile begins.
      have hti : (trail tile.length i).length = tile.length := length_trail (by omega)
      have hts : (trail tile.length s).length = tile.length := length_trail (by omega)
      have hli : (lead tile.length i).length = pre.length := by
        rw [lead, List.length_take]; omega
      have hls : (lead tile.length s).length = pre.length := by
        rw [lead, List.length_take]; omega
      have hstep := dot_tileStep (hli.trans hls.symm) hti hts
      rw [lead_append_trail, lead_append_trail] at hstep
      refine Eq.trans (ih ?_ ?_) hstep
      · unfold tileIndicesStep
        simp only [List.length_append, List.length_zipWith]
        omega
      · unfold tileStridesStep
        simp only [List.length_append, List.length_zipWith]
        omega

/--
**Tiling is a bijection on indices that preserves addresses.** It also is undone by
`untileShape`, and its inverse on indices is `untileIndices`.
-/
theorem tiling_bijection {R : Type} [CommRing R] (tiling : Tiling) (shape tiled : List ℤ)
    (h : tileShape tiling.tiles shape = .ok tiled) :
    untileShape tiling.tiles tiled = .ok shape ∧
    (∀ i, InBounds shape i → InBounds tiled (tileIndices tiling.tiles i) ∧
      untileIndices tiling.tiles (tileIndices tiling.tiles i) = i) ∧
    (∀ j, InBounds tiled j → ∃! i, InBounds shape i ∧ tileIndices tiling.tiles i = j) ∧
    ∀ i (s : List R), InBounds shape i → s.length = shape.length →
      dot (tileIndices tiling.tiles i) (tileStrides tiling.tiles s) = dot i s := by
  have hrun := tileShape_iff.mp h
  have hforth : ∀ i, InBounds shape i → InBounds tiled (tileIndices tiling.tiles i) ∧
      untileIndices tiling.tiles (tileIndices tiling.tiles i) = i :=
    fun i hi => hrun.tileIndices tiling.positive hi
  refine ⟨hrun.untileShape, hforth, fun j hj => ?_, fun i s hi hs => ?_⟩
  · obtain ⟨i, hi, hij⟩ := hrun.untileIndices hj
    refine ⟨i, ⟨hi, hij⟩, fun i' hi' => ?_⟩
    rw [← (hforth i hi).2, ← (hforth i' hi'.1).2, hi'.2]
    exact congrArg (untileIndices tiling.tiles) hij.symm
  · exact hrun.dot hi.length_eq.symm hs

/-! ## A tiling with two levels -/

/-- `(64, 8)(16, 8)(8, 8)(1, 2)`, the tiling of a matrix product. -/
def wgmmaTiling : Tiling where
  tiles := [[64, 8], [16, 8], [8, 8], [1, 2]]
  decreasing := by decide
  nonempty := by decide
  positive := by decide

example : Tiling.create [[64, 8], [16, 8], [8, 8], [1, 2]] = .ok wgmmaTiling := rfl

theorem tiling_bijection_wgmma :
    untileShape wgmmaTiling.tiles [2, 16, 4, 1, 2, 1, 8, 4, 1, 2] = .ok [128, 128] ∧
    (∀ i, InBounds [128, 128] i →
      InBounds [2, 16, 4, 1, 2, 1, 8, 4, 1, 2] (tileIndices wgmmaTiling.tiles i) ∧
        untileIndices wgmmaTiling.tiles (tileIndices wgmmaTiling.tiles i) = i) ∧
    (∀ j, InBounds [2, 16, 4, 1, 2, 1, 8, 4, 1, 2] j →
      ∃! i, InBounds [128, 128] i ∧ tileIndices wgmmaTiling.tiles i = j) ∧
    ∀ i (s : List ℤ), InBounds [128, 128] i → s.length = 2 →
      dot (tileIndices wgmmaTiling.tiles i) (tileStrides wgmmaTiling.tiles s) = dot i s :=
  tiling_bijection wgmmaTiling [128, 128] [2, 16, 4, 1, 2, 1, 8, 4, 1, 2] rfl

end JaxDas.TiledLayout
