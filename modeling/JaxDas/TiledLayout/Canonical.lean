import JaxDas.TiledLayout.Tiling

/-!
# Canonical tilings

A canonical tiling has no tile that divides nothing, and no tile with leading ones.
`Tiling::Canonicalize` throws these away, and with them dimensions of the tiled array, all of
size one.

To say which dimensions these are, a tiling is run once more over `Cell`s: the size of
a dimension, its stride, and whether a canonical tiling needs it. What a cell says of
size and stride is what `TileShape` and `TileStrides` compute; the result of the module
is that the canonical tiling computes the cells that are needed, in the same order.
-/

namespace JaxDas.TiledLayout

open Related

/-- A tile without its leading ones, or `[1]` if nothing is left. -/
def canonicalTile (tile : Tile) : Tile :=
  match tile.dropWhile (· == 1) with
  | [] => [1]
  | t :: rest => t :: rest

/-- The loop of `Tiling::Canonicalize`; `shape` is the last tile that was kept. -/
def canonicalizeLoop : Tile → List Tile → List Tile
  | _, [] => []
  | shape, tile :: tiles =>
      -- a tile that is a suffix of the shape it is applied to is redundant
      if canonicalTile tile <:+ shape then canonicalizeLoop shape tiles
      else canonicalTile tile :: canonicalizeLoop (canonicalTile tile) tiles

/-- `Tiling::Canonicalize`. -/
def canonicalTiling : List Tile → List Tile
  | [] => []
  | tile :: tiles => tile :: canonicalizeLoop tile tiles

/-- A tile is its canonical form behind ones. -/
theorem canonicalTile_spec : ∀ {tile : Tile}, tile ≠ [] →
    ∃ m, tile = List.replicate m 1 ++ canonicalTile tile ∧ canonicalTile tile ≠ [] ∧
      (canonicalTile tile = [1] ∨ (canonicalTile tile).head? ≠ some 1)
  | [], h => absurd rfl h
  | t :: tile, _ => by
      by_cases ht : t = 1
      · subst ht
        cases tile with
        | nil => exact ⟨0, rfl, by simp [canonicalTile], Or.inl rfl⟩
        | cons u tile =>
            have heq : canonicalTile (1 :: u :: tile) = canonicalTile (u :: tile) := by
              simp [canonicalTile]
            obtain ⟨m, hm, hne, hhead⟩ := canonicalTile_spec (List.cons_ne_nil u tile)
            rw [heq]
            exact ⟨m + 1, by rw [List.replicate_succ, List.cons_append, ← hm], hne, hhead⟩
      · have heq : canonicalTile (t :: tile) = t :: tile := by
          simp [canonicalTile, ht]
        rw [heq]
        exact ⟨0, rfl, by simp, Or.inr (by simpa using ht)⟩

theorem canonicalTile_canonicalTile (tile : Tile) :
    canonicalTile (canonicalTile tile) = canonicalTile tile := by
  by_cases hne : tile = []
  · subst hne
    rfl
  obtain ⟨m, -, hne, hone | hhead⟩ := canonicalTile_spec hne
  · rw [hone]
    rfl
  · cases h : canonicalTile tile with
    | nil => exact absurd h hne
    | cons t rest =>
        rw [h] at hhead
        simp [canonicalTile, show t ≠ 1 by simpa using hhead]

theorem canonicalizeLoop_idem : ∀ (shape : Tile) (tiles : List Tile),
    canonicalizeLoop shape (canonicalizeLoop shape tiles) = canonicalizeLoop shape tiles
  | _, [] => rfl
  | shape, tile :: tiles => by
      by_cases h : canonicalTile tile <:+ shape
      · rw [canonicalizeLoop, if_pos h]
        exact canonicalizeLoop_idem shape tiles
      · rw [canonicalizeLoop, if_neg h, canonicalizeLoop, canonicalTile_canonicalTile, if_neg h,
          canonicalizeLoop_idem (canonicalTile tile) tiles]

theorem canonicalTiling_idem (tiles : List Tile) :
    canonicalTiling (canonicalTiling tiles) = canonicalTiling tiles := by
  cases tiles with
  | nil => rfl
  | cons tile tiles => rw [canonicalTiling, canonicalTiling, canonicalizeLoop_idem]

/-! ## Cells -/

/-- A dimension of a tiled array, and whether a canonical tiling has it. -/
structure Cell where
  size : ℤ
  stride : ℤ
  needed : Bool
  deriving DecidableEq

/-- The number of tiles along a dimension. -/
def Cell.outer (needed : Bool) (c : Cell) (t : ℤ) : Cell := ⟨c.size.tdiv t, c.stride * t, needed⟩

/-- The position inside of a tile along a dimension. -/
def Cell.inner (needed : Bool) (c : Cell) (t : ℤ) : Cell := ⟨t, c.stride, needed⟩

/-- A tile that makes more than one tile of some dimension. -/
def divides (under : List Cell) (part : Tile) : Bool :=
  (List.zipWith (fun c t => c.size.tdiv t) under part).any (· ≠ 1)

/--
One tile. Its leading ones make dimensions that are not needed, and the numbers of tiles
along the others are only needed if the tile divides something.
-/
def cellStep (cells : List Cell) (tile : Tile) : List Cell :=
  let part := canonicalTile tile
  let under := trail part.length cells
  let leading := trail (tile.length - part.length) (lead part.length cells)
  lead part.length cells ++
    (List.zipWith (Cell.outer (divides under part)) under part ++
      (leading.map (Cell.inner false · 1) ++ List.zipWith (Cell.inner true) under part))

/-- All tiles but the first. -/
def tileCells (tiles : List Tile) (cells : List Cell) : List Cell := tiles.foldl cellStep cells

/-- The sizes of cells. -/
def sizes (cells : List Cell) : List ℤ := cells.map Cell.size

/-- The strides of cells. -/
def strides (cells : List Cell) : List ℤ := cells.map Cell.stride

/-- The cells that a canonical tiling has. -/
def neededCells (cells : List Cell) : List Cell := cells.filter Cell.needed

@[simp] theorem sizes_append (a b : List Cell) : sizes (a ++ b) = sizes a ++ sizes b :=
  List.map_append

@[simp] theorem strides_append (a b : List Cell) : strides (a ++ b) = strides a ++ strides b :=
  List.map_append

@[simp] theorem neededCells_append (a b : List Cell) :
    neededCells (a ++ b) = neededCells a ++ neededCells b := List.filter_append _ _

theorem sizes_reverse (cells : List Cell) : sizes cells.reverse = (sizes cells).reverse :=
  List.map_reverse

theorem strides_reverse (cells : List Cell) : strides cells.reverse = (strides cells).reverse :=
  List.map_reverse

theorem neededCells_reverse (cells : List Cell) :
    neededCells cells.reverse = (neededCells cells).reverse := List.filter_reverse

@[simp] theorem length_sizes (cells : List Cell) : (sizes cells).length = cells.length :=
  List.length_map _

@[simp] theorem length_strides (cells : List Cell) : (strides cells).length = cells.length :=
  List.length_map _

/-- The last `m + n` elements, in two parts. -/
theorem split_trailing {β : Type} {m n : ℕ} {xs : List β} (h : m + n ≤ xs.length) :
    ∃ pre a b, xs = pre ++ a ++ b ∧ a.length = m ∧ b.length = n := by
  refine ⟨xs.take (xs.length - (m + n)), (xs.drop (xs.length - (m + n))).take m,
    (xs.drop (xs.length - (m + n))).drop m, ?_, ?_, ?_⟩
  · rw [List.append_assoc, List.take_append_drop, List.take_append_drop]
  · rw [List.length_take, List.length_drop]
    omega
  · rw [List.length_drop, List.length_drop]
    omega

section Step

variable {tile part : Tile} {m : ℕ} {pre a b : List Cell}

/-- A step on cells of which the `a` are under the leading ones, and the `b` under the rest. -/
theorem cellStep_append (hpart : canonicalTile tile = part) (hm : tile = List.replicate m 1 ++ part)
    (ha : a.length = m) (hb : b.length = part.length) :
    cellStep (pre ++ a ++ b) tile = pre ++ a ++
      (List.zipWith (Cell.outer (divides b part)) b part ++
        (a.map (Cell.inner false · 1) ++ List.zipWith (Cell.inner true) b part)) := by
  have hlen : tile.length - part.length = m := by
    rw [hm, List.length_append, List.length_replicate]
    omega
  simp only [cellStep, hpart, lead_append_of_length _ hb, trail_append_of_length _ hb, hlen,
    trail_append_of_length _ ha]

/-- Cells that a step does not reach. -/
theorem cellStep_frame (u : List Cell) (hu : tile.length ≤ u.length) (hne : tile ≠ []) :
    cellStep (pre ++ u) tile = pre ++ cellStep u tile ∧ u.length ≤ (cellStep u tile).length := by
  obtain ⟨m, hm, -, -⟩ := canonicalTile_spec hne
  have hlen := congrArg List.length hm
  rw [List.length_append, List.length_replicate] at hlen
  obtain ⟨v, a, b, rfl, ha, hb⟩ := split_trailing (hlen ▸ hu)
  rw [cellStep_append rfl hm ha hb, ← List.append_assoc, ← List.append_assoc,
    cellStep_append rfl hm ha hb]
  refine ⟨by simp only [List.append_assoc], ?_⟩
  simp only [List.length_append, List.length_zipWith, List.length_map]
  omega

theorem sizes_outer (needed : Bool) (b : List Cell) (part : Tile) :
    sizes (List.zipWith (Cell.outer needed) b part) =
      List.zipWith (fun dim t => dim.tdiv t) (sizes b) part := by
  rw [sizes, sizes, List.map_zipWith, List.zipWith_map_left]
  rfl

theorem sizes_inner {needed : Bool} : ∀ {b : List Cell} {part : Tile}, b.length = part.length →
    sizes (List.zipWith (Cell.inner needed) b part) = part
  | [], [], _ => rfl
  | _ :: b, t :: _, h => congrArg (t :: ·) (sizes_inner (b := b) (Nat.succ.inj h))

theorem strides_outer (needed : Bool) (b : List Cell) (part : Tile) :
    strides (List.zipWith (Cell.outer needed) b part) =
      List.zipWith (fun s t => s * t) (strides b) part := by
  rw [strides, strides, List.map_zipWith, List.zipWith_map_left]
  rfl

theorem strides_inner {needed : Bool} : ∀ {b : List Cell} {part : Tile},
    b.length = part.length → strides (List.zipWith (Cell.inner needed) b part) = strides b
  | [], [], _ => rfl
  | c :: b, _ :: _, h => congrArg (c.stride :: ·) (strides_inner (b := b) (Nat.succ.inj h))

theorem zipWith_replicate_one {β γ : Type} (f : β → ℤ → γ) : ∀ {xs : List β} {m : ℕ},
    xs.length = m → List.zipWith f xs (List.replicate m 1) = xs.map (f · 1)
  | [], 0, _ => rfl
  | x :: _, _ + 1, h => congrArg (f x 1 :: ·) (zipWith_replicate_one f (Nat.succ.inj h))

/-- Cells have the sizes that `TileShape` computes. -/
theorem sizes_cellStep (hpart : canonicalTile tile = part) (hm : tile = List.replicate m 1 ++ part)
    (ha : a.length = m) (hb : b.length = part.length) :
    sizes (cellStep (pre ++ a ++ b) tile) = sizes pre ++
      (List.zipWith (fun dim t => dim.tdiv t) (sizes (a ++ b)) tile ++ tile) := by
  have hones : sizes (a.map (Cell.inner false · 1)) = List.replicate m 1 := by
    rw [sizes, List.map_map, ← ha]
    exact List.map_const'
  rw [cellStep_append hpart hm ha hb, hm]
  simp only [sizes_append, sizes_outer, sizes_inner hb, hones]
  rw [List.zipWith_append (by simp [ha]), zipWith_replicate_one _ (by simp [ha])]
  simp

/-- Cells have the strides that `TileStrides` computes. -/
theorem strides_cellStep (hpart : canonicalTile tile = part)
    (hm : tile = List.replicate m 1 ++ part) (ha : a.length = m) (hb : b.length = part.length) :
    strides (cellStep (pre ++ a ++ b) tile) = tileStridesStep (strides (pre ++ a ++ b)) tile := by
  have hlen : (strides a ++ strides b).length = tile.length := by
    rw [hm, List.length_append, List.length_append, List.length_replicate, length_strides,
      length_strides]
    omega
  have hones : strides (a.map (Cell.inner false · 1)) = strides a := by
    rw [strides, List.map_map]
    rfl
  have hsplit : strides (pre ++ a ++ b) = strides pre ++ (strides a ++ strides b) := by simp
  rw [cellStep_append hpart hm ha hb, tileStridesStep, hsplit, lead_append_of_length _ hlen,
    trail_append_of_length _ hlen]
  simp only [strides_append, strides_outer, strides_inner hb, hones, Int.cast_id]
  rw [hm, List.zipWith_append (by simp [ha]), zipWith_replicate_one _ (by simp [ha])]
  simp

/-- A tile whose quotients are all one is the shape it is applied to. -/
theorem divides_eq_false : ∀ {b : List Cell} {part : Tile}, b.length = part.length →
    List.Forall₂ (fun dim t => t ∣ dim) (sizes b) part → (∀ t ∈ part, 0 < t) →
      (divides b part = false ↔ sizes b = part)
  | [], [], _, _, _ => by simp [divides, sizes]
  | c :: b, t :: part, hlen, .cons hd hdiv, hpos => by
      have ih := divides_eq_false (b := b) (Nat.succ.inj hlen) hdiv
        fun t ht => hpos t (List.mem_cons_of_mem _ ht)
      have ht : 0 < t := hpos t List.mem_cons_self
      have hone : c.size.tdiv t = 1 ↔ c.size = t := by
        constructor
        · intro h
          have := Int.tdiv_mul_cancel hd
          rw [h] at this
          omega
        · intro h
          rw [h, Int.tdiv_self (by omega)]
      unfold divides at ih ⊢
      rw [List.zipWith_cons_cons, List.any_cons, Bool.or_eq_false_iff, ih]
      simp [sizes, hone]

/-- The cells of a step that are needed, if the tile divides something. -/
theorem neededCells_outer {needed : Bool} : ∀ {b : List Cell} {part : Tile},
    neededCells (List.zipWith (Cell.outer needed) b part) =
      if needed then List.zipWith (Cell.outer needed) b part else []
  | [], _ => by simp [neededCells]
  | _ :: _, [] => by simp [neededCells]
  | c :: b, t :: part => by
      have ih := @neededCells_outer needed b part
      cases needed with
      | false => simpa [neededCells, Cell.outer] using ih
      | true => simpa [neededCells, Cell.outer] using ih

theorem needed_of_mem_inner : ∀ {b : List Cell} {part : Tile},
    ∀ c ∈ List.zipWith (Cell.inner true) b part, c.needed = true
  | [], _, c, h => absurd h (by simp)
  | _ :: _, [], c, h => absurd h (by simp)
  | _ :: b, t :: part, c, h => by
      rcases List.mem_cons.mp h with rfl | h
      · rfl
      · exact needed_of_mem_inner (b := b) c h

end Step

/-! ## The run of a canonical tiling -/

/--
What holds between two tiles of a tiling. The last tile was `ones` of the trailing
dimensions, of size one, and `u`, whose sizes the canonical tiling has under its own
last tile `shape`; the next tile has at most `rank` dimensions.
-/
structure Canonicalizing (shape : Tile) (rank : ℕ) (front ones u : List Cell) : Prop where
  ones_size : ∀ c ∈ ones, c.size = 1
  all_needed : ∀ c ∈ u, c.needed = true
  nonempty : u ≠ []
  suffix : sizes u <:+ shape
  rank_le : rank ≤ ones.length + u.length
  dropped : ∀ c ∈ front ++ ones, c.needed = false → c.size = 1

theorem neededCells_of_all : ∀ {u : List Cell}, (∀ c ∈ u, c.needed = true) → neededCells u = u
  | _, h => List.filter_eq_self.mpr h

theorem zipWith_inner_self : ∀ {b : List Cell}, (∀ c ∈ b, c.needed = true) →
    List.zipWith (Cell.inner true) b (sizes b) = b
  | [], _ => rfl
  | c :: b, h => by
      have hc : Cell.inner true c c.size = c := by
        rw [Cell.inner, ← h c List.mem_cons_self]
      have ih := zipWith_inner_self fun c' hc' => h c' (List.mem_cons_of_mem c hc')
      rw [sizes, List.map_cons, List.zipWith_cons_cons, hc, ← sizes, ih]

section Run

variable {shape tile part : Tile} {m rank : ℕ} {front ones u : List Cell} {pre dims : List ℤ}

/-- Only ones divide the dimensions of size one, so the rest of a tile is all under `u`. -/
theorem Canonicalizing.part_length_le (h : Canonicalizing shape rank front ones u)
    (hm : tile = List.replicate m 1 ++ part) (hhead : part = [1] ∨ part.head? ≠ some 1)
    (hpos : ∀ t ∈ tile, 0 < t) (hlen : tile.length ≤ rank)
    (hcells : sizes (front ++ ones ++ u) = pre ++ dims)
    (hdiv : List.Forall₂ (fun dim t => t ∣ dim) dims tile) : part.length ≤ u.length := by
  rcases hhead with rfl | hhead
  · exact List.length_pos_iff.mpr h.nonempty
  by_contra hlt
  rw [hm] at hdiv
  obtain ⟨x, y, rfl, hx, hy⟩ := forall₂_split hdiv.flip
  cases part with
  | nil => simp at hlt
  | cons p part =>
      cases hy with
      | @cons _ d _ y hd hy =>
          -- the dimension under the head of `part` is one of `ones`
          have hylen : (sizes u).length ≤ y.length := by
            have := hy.length_eq
            rw [length_sizes]
            simp only [List.length_cons] at hlt
            omega
          have hsplit : sizes front ++ sizes ones ++ sizes u = (pre ++ (x ++ [d])) ++ y := by
            simpa using hcells
          obtain ⟨v, rfl⟩ := List.suffix_of_suffix_length_le
            (hsplit ▸ List.suffix_append (sizes front ++ sizes ones) (sizes u))
            (List.suffix_append (pre ++ (x ++ [d])) y) hylen
          rw [← List.append_assoc, List.append_left_inj, List.append_assoc] at hsplit
          have hone : d = 1 := by
            have hle : (x ++ [d] ++ v).length ≤ (sizes ones).length := by
              have hrank := h.rank_le
              have := hdiv.length_eq
              simp only [List.length_append, List.length_cons, List.length_nil, length_sizes,
                hm] at *
              omega
            have hmem : d ∈ sizes ones := (List.suffix_of_suffix_length_le
              (hsplit ▸ List.suffix_append pre (x ++ [d] ++ v))
              (List.suffix_append (sizes front) (sizes ones)) hle).mem (by simp)
            obtain ⟨c, hc, rfl⟩ := List.mem_map.mp hmem
            exact h.ones_size c hc
          subst hone
          have hp : 0 < p := hpos p (by simp [hm])
          have : p = 1 := Int.eq_one_of_dvd_one (le_of_lt hp) hd
          simp [this] at hhead

theorem outer_size_of_not_divides {b : List Cell} (h : divides b part = false) {needed : Bool} :
    ∀ c ∈ List.zipWith (Cell.outer needed) b part, c.size = 1 := by
  intro c hc
  have hmem : c.size ∈ List.zipWith (fun dim t => dim.tdiv t) (sizes b) part := by
    rw [← sizes_outer needed]
    exact List.mem_map_of_mem hc
  rw [sizes, List.zipWith_map_left] at hmem
  simpa using List.any_eq_false.mp h c.size hmem

/-- **One tile.** A redundant one leaves the needed cells as they are, and any other one is a step
of the canonical tiling on them. -/
theorem Canonicalizing.step (h : Canonicalizing shape rank front ones u) (hne : tile ≠ [])
    (hpart : canonicalTile tile = part) (hpos : ∀ t ∈ tile, 0 < t) (hlen : tile.length ≤ rank)
    (hcells : sizes (front ++ ones ++ u) = pre ++ dims)
    (hdiv : List.Forall₂ (fun dim t => t ∣ dim) dims tile) :
    ∃ front' ones' u', cellStep (front ++ ones ++ u) tile = front' ++ ones' ++ u' ∧
      sizes (front' ++ ones' ++ u') =
        pre ++ (List.zipWith (fun dim t => dim.tdiv t) dims tile ++ tile) ∧
      strides (front' ++ ones' ++ u') = tileStridesStep (strides (front ++ ones ++ u)) tile ∧
      (part <:+ shape → Canonicalizing shape tile.length front' ones' u' ∧
        neededCells (front' ++ ones' ++ u') = neededCells (front ++ ones ++ u)) ∧
      (¬ part <:+ shape → Canonicalizing part tile.length front' ones' u' ∧
        part.length ≤ shape.length ∧ ∃ pre' dims', sizes (neededCells (front ++ ones ++ u)) = pre' ++ dims' ∧
          List.Forall₂ (fun dim t => t ∣ dim) dims' part ∧
          sizes (neededCells (front' ++ ones' ++ u')) =
            pre' ++ (List.zipWith (fun dim t => dim.tdiv t) dims' part ++ part) ∧
          strides (neededCells (front' ++ ones' ++ u')) =
            tileStridesStep (strides (neededCells (front ++ ones ++ u))) part) := by
  obtain ⟨m, hm, hpne, hhead⟩ := canonicalTile_spec hne
  rw [hpart] at hm hpne hhead
  have hpl := h.part_length_le hm hhead hpos hlen hcells hdiv
  have htile : tile.length = m + part.length := by
    rw [hm, List.length_append, List.length_replicate]
  -- the cells under the leading ones and under the rest of the tile
  obtain ⟨u₁, u₂, rfl, hu₂⟩ : ∃ u₁ u₂, u = u₁ ++ u₂ ∧ u₂.length = part.length :=
    ⟨lead part.length u, trail part.length u, (lead_append_trail u).symm, length_trail hpl⟩
  have htotal : m ≤ (front ++ ones ++ u₁).length := by
    have hlens := congrArg List.length hcells
    have := hdiv.length_eq
    simp only [List.length_append, length_sizes] at hlens ⊢
    omega
  obtain ⟨q, a, hqa, ha⟩ : ∃ q a, front ++ ones ++ u₁ = q ++ a ∧ a.length = m :=
    ⟨lead m _, trail m _, (lead_append_trail _).symm, length_trail htotal⟩
  have hcells' : front ++ ones ++ (u₁ ++ u₂) = q ++ a ++ u₂ := by
    rw [← List.append_assoc, hqa]
  have hsplit : sizes q = pre ∧ sizes (a ++ u₂) = dims := by
    rw [hcells', List.append_assoc, sizes_append] at hcells
    refine List.append_inj' hcells ?_
    rw [length_sizes, List.length_append, hdiv.length_eq]
    omega
  obtain ⟨rfl, rfl⟩ := hsplit
  have hdiv₂ : List.Forall₂ (fun dim t => t ∣ dim) (sizes u₂) part := by
    rw [hm, sizes_append] at hdiv
    exact (forall₂_append_inj hdiv (by simp [ha])).2
  have hpos₂ : ∀ t ∈ part, 0 < t := fun t ht => hpos t (by rw [hm]; exact List.mem_append_right _ ht)
  have hneeded₂ : ∀ c ∈ u₂, c.needed = true := fun c hc =>
    h.all_needed c (List.mem_append_right _ hc)
  refine ⟨q ++ a ++ List.zipWith (Cell.outer (divides u₂ part)) u₂ part,
    a.map (Cell.inner false · 1), List.zipWith (Cell.inner true) u₂ part, ?_⟩
  have hstep : cellStep (front ++ ones ++ (u₁ ++ u₂)) tile =
      q ++ a ++ List.zipWith (Cell.outer (divides u₂ part)) u₂ part ++
        a.map (Cell.inner false · 1) ++ List.zipWith (Cell.inner true) u₂ part := by
    rw [hcells', cellStep_append hpart hm ha hu₂]
    simp only [List.append_assoc]
  have hones : neededCells (a.map (Cell.inner false · 1)) = [] := by
    simp [neededCells, Cell.inner]
  have hneeded : neededCells (List.zipWith (Cell.inner true) u₂ part) =
      List.zipWith (Cell.inner true) u₂ part := neededCells_of_all needed_of_mem_inner
  have hbefore : neededCells (front ++ ones ++ (u₁ ++ u₂)) = neededCells (q ++ a) ++ u₂ := by
    rw [hcells', neededCells_append, neededCells_of_all hneeded₂]
  -- the invariant, whatever the last canonical tile is
  have hinv : ∀ {shape'}, part <:+ shape' → Canonicalizing shape' tile.length
      (q ++ a ++ List.zipWith (Cell.outer (divides u₂ part)) u₂ part)
      (a.map (Cell.inner false · 1)) (List.zipWith (Cell.inner true) u₂ part) := by
    intro shape' hsuffix
    have hu' : (List.zipWith (Cell.inner true) u₂ part).length = part.length := by
      rw [List.length_zipWith, hu₂, min_self]
    refine ⟨fun c hc => ?_, needed_of_mem_inner, ?_, (sizes_inner hu₂).symm ▸ hsuffix, ?_, ?_⟩
    · obtain ⟨x, -, rfl⟩ := List.mem_map.mp hc
      rfl
    · exact List.ne_nil_of_length_pos (hu' ▸ List.length_pos_iff.mpr hpne)
    · rw [hu', List.length_map, ha, htile]
    · intro c hc hdropped
      rcases List.mem_append.mp hc with hc | hc
      · rcases List.mem_append.mp hc with hc | hc
        · rw [← hqa] at hc
          rcases List.mem_append.mp hc with hc | hc
          · exact h.dropped c hc hdropped
          · rw [h.all_needed c (List.mem_append_left _ hc)] at hdropped
            exact absurd hdropped (by simp)
        · cases hd : divides u₂ part with
          | false => exact outer_size_of_not_divides hd c hc
          | true =>
              rw [hd] at hc
              have : c ∈ neededCells (List.zipWith (Cell.outer true) u₂ part) := by
                rwa [neededCells_outer, if_pos rfl]
              rw [(List.mem_filter.mp this).2] at hdropped
              exact absurd hdropped (by simp)
      · obtain ⟨x, -, rfl⟩ := List.mem_map.mp hc
        rfl
  refine ⟨hstep, ?_, ?_, fun hsuffix => ⟨hinv hsuffix, ?_⟩, fun hsuffix => ⟨hinv List.suffix_rfl, ?_⟩⟩
  · rw [← hstep, hcells', sizes_cellStep hpart hm ha hu₂]
  · rw [← hstep, hcells', strides_cellStep hpart hm ha hu₂]
  · -- the sizes of `u₂` are the tile, and nothing is divided
    have hsame : sizes u₂ = part := by
      have hu : sizes u₂ <:+ shape := (by simp : sizes u₂ <:+ sizes (u₁ ++ u₂)).trans h.suffix
      exact (List.suffix_of_suffix_length_le hu hsuffix (by simp [hu₂])).eq_of_length (by simp [hu₂])
    have hdivides := (divides_eq_false hu₂ hdiv₂ hpos₂).mpr hsame
    rw [neededCells_append, neededCells_append, neededCells_append, neededCells_outer, hdivides,
      hones, hneeded, hbefore, ← hsame, zipWith_inner_self hneeded₂]
    simp
  · have hdivides : divides u₂ part = true := by
      by_contra hnot
      have hsame := (divides_eq_false hu₂ hdiv₂ hpos₂).mp (Bool.eq_false_iff.mpr hnot)
      exact hsuffix (hsame ▸ (by simp : sizes u₂ <:+ sizes (u₁ ++ u₂)).trans h.suffix)
    have hafter : neededCells (q ++ a ++ List.zipWith (Cell.outer (divides u₂ part)) u₂ part ++
        a.map (Cell.inner false · 1) ++ List.zipWith (Cell.inner true) u₂ part) =
        neededCells (q ++ a) ++ (List.zipWith (Cell.outer true) u₂ part ++
          List.zipWith (Cell.inner true) u₂ part) := by
      rw [neededCells_append, neededCells_append, neededCells_append, hdivides, neededCells_outer,
        if_pos rfl, hones, hneeded, List.append_nil, List.append_assoc]
    have hshape : part.length ≤ shape.length := by
      have := h.suffix.length_le
      rw [length_sizes] at this
      omega
    refine ⟨hshape, sizes (neededCells (q ++ a)), sizes u₂, by rw [hbefore, sizes_append], hdiv₂,
      ?_, ?_⟩
    · rw [hafter, sizes_append, sizes_append, sizes_outer, sizes_inner hu₂]
    · have hlen₂ : (strides u₂).length = part.length := by rw [length_strides, hu₂]
      rw [hafter, hbefore, tileStridesStep, strides_append, strides_append, strides_append,
        strides_outer, strides_inner hu₂, lead_append_of_length _ hlen₂,
        trail_append_of_length _ hlen₂]
      simp only [Int.cast_id]

/-- **The canonical tiling** of cells computes the cells that are needed. -/
theorem Canonicalizing.run : ∀ {tiles : List Tile} {shape : Tile} {rank : ℕ}
    {front ones u : List Cell} {tiled : List ℤ}, Canonicalizing shape rank front ones u →
      (tiles.Pairwise fun t u => u.length ≤ t.length) → (∀ t ∈ tiles, t.length ≤ rank) →
      (∀ t ∈ tiles, t ≠ []) → (∀ t ∈ tiles, ∀ d ∈ t, 0 < d) →
      Tiles tiles (sizes (front ++ ones ++ u)) tiled →
      let cells := tileCells tiles (front ++ ones ++ u)
      sizes cells = tiled ∧ strides cells = tileStrides tiles (strides (front ++ ones ++ u)) ∧
        (∀ c ∈ cells, c.needed = false → c.size = 1) ∧
        Tiles (canonicalizeLoop shape tiles) (sizes (neededCells (front ++ ones ++ u)))
          (sizes (neededCells cells)) ∧
        strides (neededCells cells) =
          tileStrides (canonicalizeLoop shape tiles) (strides (neededCells (front ++ ones ++ u)))
  | [], shape, rank, front, ones, u, tiled, h, _, _, _, _, hrun => by
      cases hrun
      refine ⟨rfl, rfl, fun c hc hdropped => ?_, .nil, rfl⟩
      rcases List.mem_append.mp hc with hc | hc
      · exact h.dropped c hc hdropped
      · rw [h.all_needed c hc] at hdropped
        exact absurd hdropped (by simp)
  | tile :: tiles, shape, rank, front, ones, u, tiled, h, hdec, hrank, hne, hpos, hrun => by
      obtain ⟨hle, hdec⟩ := List.pairwise_cons.mp hdec
      obtain ⟨hrank, -⟩ := List.forall_mem_cons.mp hrank
      obtain ⟨hne, hne'⟩ := List.forall_mem_cons.mp hne
      obtain ⟨hpos, hpos'⟩ := List.forall_mem_cons.mp hpos
      generalize hcells : sizes (front ++ ones ++ u) = all at hrun
      cases hrun with
      | @cons _ _ pre dims _ hdiv hrun =>
          obtain ⟨front', ones', u', hstep, hsizes, hstrides, hredundant, hkept⟩ :=
            h.step hne rfl hpos hrank hcells hdiv
          rw [← hsizes] at hrun
          simp only [tileCells, List.foldl_cons, hstep]
          by_cases hsuffix : canonicalTile tile <:+ shape
          · obtain ⟨h', hneeded⟩ := hredundant hsuffix
            obtain ⟨h₁, h₂, h₃, h₄, h₅⟩ := h'.run hdec hle hne' hpos' hrun
            rw [canonicalizeLoop, if_pos hsuffix, ← hneeded]
            exact ⟨h₁, by rw [← tileCells, h₂, hstrides]; rfl, h₃, h₄, h₅⟩
          · obtain ⟨h', -, pre', dims', hbefore, hdiv', hafter, hstrides'⟩ := hkept hsuffix
            obtain ⟨h₁, h₂, h₃, h₄, h₅⟩ := h'.run hdec hle hne' hpos' hrun
            rw [canonicalizeLoop, if_neg hsuffix, hbefore]
            refine ⟨h₁, by rw [← tileCells, h₂, hstrides]; rfl, h₃, .cons hdiv' (hafter ▸ h₄), ?_⟩
            rw [← tileCells, h₅, hstrides']
            rfl

/-- The canonical tiling has tiles of decreasing rank. -/
theorem Canonicalizing.decreasing : ∀ {tiles : List Tile} {shape : Tile} {rank : ℕ}
    {front ones u : List Cell} {tiled : List ℤ}, Canonicalizing shape rank front ones u →
      (tiles.Pairwise fun t u => u.length ≤ t.length) → (∀ t ∈ tiles, t.length ≤ rank) →
      (∀ t ∈ tiles, t ≠ []) → (∀ t ∈ tiles, ∀ d ∈ t, 0 < d) →
      Tiles tiles (sizes (front ++ ones ++ u)) tiled →
      (shape :: canonicalizeLoop shape tiles).Pairwise fun t u => u.length ≤ t.length
  | [], _, _, _, _, _, _, _, _, _, _, _, _ => List.pairwise_singleton _ _
  | tile :: tiles, shape, rank, front, ones, u, tiled, h, hdec, hrank, hne, hpos, hrun => by
      obtain ⟨hle, hdec⟩ := List.pairwise_cons.mp hdec
      obtain ⟨hrank, -⟩ := List.forall_mem_cons.mp hrank
      obtain ⟨hne, hne'⟩ := List.forall_mem_cons.mp hne
      obtain ⟨hpos, hpos'⟩ := List.forall_mem_cons.mp hpos
      generalize hcells : sizes (front ++ ones ++ u) = all at hrun
      cases hrun with
      | @cons _ _ pre dims _ hdiv hrun =>
          obtain ⟨front', ones', u', -, hsizes, -, hredundant, hkept⟩ :=
            h.step hne rfl hpos hrank hcells hdiv
          rw [← hsizes] at hrun
          by_cases hsuffix : canonicalTile tile <:+ shape
          · rw [canonicalizeLoop, if_pos hsuffix]
            exact (hredundant hsuffix).1.decreasing hdec hle hne' hpos' hrun
          · obtain ⟨h', hshape, -⟩ := hkept hsuffix
            have ih := h'.decreasing hdec hle hne' hpos' hrun
            rw [canonicalizeLoop, if_neg hsuffix]
            refine List.pairwise_cons.mpr ⟨fun t ht => ?_, ih⟩
            rcases List.mem_cons.mp ht with rfl | ht
            · exact hshape
            · exact ((List.pairwise_cons.mp ih).1 t ht).trans hshape

end Run

/-- A canonical tile is not empty, and has sizes of the tile. -/
theorem canonicalTile_valid {tile : Tile} (hpos : ∀ d ∈ tile, 0 < d) :
    canonicalTile tile ≠ [] ∧ ∀ d ∈ canonicalTile tile, 0 < d := by
  by_cases hne : tile = []
  · subst hne
    simp [canonicalTile]
  · obtain ⟨m, hm, hpne, -⟩ := canonicalTile_spec hne
    exact ⟨hpne, fun d hd => hpos d (hm ▸ List.mem_append_right _ hd)⟩

theorem canonicalizeLoop_valid : ∀ {tiles : List Tile} {shape : Tile},
    (∀ t ∈ tiles, ∀ d ∈ t, 0 < d) →
      ∀ t ∈ canonicalizeLoop shape tiles, t ≠ [] ∧ ∀ d ∈ t, 0 < d
  | [], _, _, t, ht => absurd ht (by simp [canonicalizeLoop])
  | tile :: tiles, shape, hpos, t, ht => by
      obtain ⟨htile, hpos⟩ := List.forall_mem_cons.mp hpos
      rw [canonicalizeLoop] at ht
      split at ht
      · exact canonicalizeLoop_valid hpos t ht
      · rcases List.mem_cons.mp ht with rfl | ht
        · exact canonicalTile_valid htile
        · exact canonicalizeLoop_valid hpos t ht

/-! ## The tiled tiling -/

/-- The cells of an array; all are needed. -/
def mkCells (sizes strides : List ℤ) : List Cell :=
  List.zipWith (fun size stride => ⟨size, stride, true⟩) sizes strides

theorem sizes_mkCells : ∀ {ds ss : List ℤ}, ds.length = ss.length → sizes (mkCells ds ss) = ds
  | [], [], _ => rfl
  | d :: _, _ :: _, h => congrArg (d :: ·) (sizes_mkCells (Nat.succ.inj h))

theorem strides_mkCells : ∀ {ds ss : List ℤ}, ds.length = ss.length → strides (mkCells ds ss) = ss
  | [], [], _ => rfl
  | _ :: _, s :: _, h => congrArg (s :: ·) (strides_mkCells (Nat.succ.inj h))

theorem length_mkCells {ds ss : List ℤ} (h : ds.length = ss.length) :
    (mkCells ds ss).length = ds.length := by
  rw [← length_sizes, sizes_mkCells h]

theorem needed_mkCells : ∀ {ds ss : List ℤ}, ∀ c ∈ mkCells ds ss, c.needed = true
  | [], _, _, h => absurd h (by simp [mkCells])
  | _ :: _, [], _, h => absurd h (by simp [mkCells])
  | _ :: ds, _ :: ss, c, h => by
      rcases List.mem_cons.mp h with rfl | h
      · rfl
      · exact @needed_mkCells ds ss c h

theorem tileCells_frame : ∀ {tiles : List Tile} (pre : List Cell) {u : List Cell},
    (∀ t ∈ tiles, t.length ≤ u.length) → (∀ t ∈ tiles, t ≠ []) →
      tileCells tiles (pre ++ u) = pre ++ tileCells tiles u
  | [], _, _, _, _ => rfl
  | tile :: tiles, pre, u, hle, hne => by
      obtain ⟨htile, hle⟩ := List.forall_mem_cons.mp hle
      obtain ⟨hne, hne'⟩ := List.forall_mem_cons.mp hne
      obtain ⟨hframe, hlen⟩ := @cellStep_frame tile pre u htile hne
      simp only [tileCells, List.foldl_cons, hframe]
      exact tileCells_frame pre (fun t ht => (hle t ht).trans hlen) hne'

/--
**A tiling and its canonical form**, on any shape they apply to: the dimensions in front
of the tiled base tile are the same, and of the tiled base tile the canonical tiling has
the cells that are needed.
-/
theorem tiled_cells {minShape : Tile} {tiles : List Tile} {shape tiled ss : List ℤ}
    (hdec : (minShape :: tiles).Pairwise fun t u => u.length ≤ t.length)
    (hne : ∀ t ∈ minShape :: tiles, t ≠ []) (hpos : ∀ t ∈ minShape :: tiles, ∀ d ∈ t, 0 < d)
    (h : Tiles (minShape :: tiles) shape tiled) (hss : ss.length = shape.length) :
    let cells := tileCells tiles (mkCells minShape (trail minShape.length ss))
    (∀ c ∈ cells, c.needed = false → c.size = 1) ∧
      (canonicalTiling (minShape :: tiles)).Pairwise (fun t u => u.length ≤ t.length) ∧
      ∃ front : List Cell, front.length = shape.length ∧
        tiled = sizes (front ++ cells) ∧
        tileStrides (minShape :: tiles) ss = strides (front ++ cells) ∧
        Tiles (canonicalTiling (minShape :: tiles)) shape (sizes (front ++ neededCells cells)) ∧
        tileStrides (canonicalTiling (minShape :: tiles)) ss =
          strides (front ++ neededCells cells) := by
  obtain ⟨hle, hdec⟩ := List.pairwise_cons.mp hdec
  obtain ⟨hbase, hne⟩ := List.forall_mem_cons.mp hne
  obtain ⟨-, hpos⟩ := List.forall_mem_cons.mp hpos
  cases h with
  | @cons _ _ pre dims _ hdiv h =>
      have hdims := hdiv.length_eq
      rw [List.length_append] at hss
      have htrail : (trail minShape.length ss).length = minShape.length := length_trail (by omega)
      have hlead : (lead minShape.length ss).length = pre.length := by
        rw [lead, List.length_take]
        omega
      generalize hss₁ : lead minShape.length ss = ss₁ at hlead
      generalize hss₂ : trail minShape.length ss = ss₂ at htrail ⊢
      intro cells
      -- the cells of the first step
      let front := mkCells (pre ++ List.zipWith (fun dim t => dim.tdiv t) dims minShape)
        (ss₁ ++ List.zipWith (fun s t => s * t) ss₂ minShape)
      have hfront : (pre ++ List.zipWith (fun dim t => dim.tdiv t) dims minShape).length =
          (ss₁ ++ List.zipWith (fun s t => s * t) ss₂ minShape).length := by
        simp only [List.length_append, List.length_zipWith]
        omega
      have hsizes : sizes (front ++ mkCells minShape ss₂) =
          pre ++ (List.zipWith (fun dim t => dim.tdiv t) dims minShape ++ minShape) := by
        rw [sizes_append, sizes_mkCells hfront, sizes_mkCells htrail.symm, List.append_assoc]
      have hstrides : strides (front ++ mkCells minShape ss₂) = tileStridesStep ss minShape := by
        rw [strides_append, strides_mkCells hfront, strides_mkCells htrail.symm, tileStridesStep,
          hss₁, hss₂, List.append_assoc]
        simp only [Int.cast_id]
      have hstart : Canonicalizing minShape minShape.length front [] (mkCells minShape ss₂) := by
        refine ⟨by simp, needed_mkCells, ?_, ?_, ?_, ?_⟩
        · rw [ne_eq, ← List.length_eq_zero_iff, length_mkCells htrail.symm]
          simpa using hbase
        · exact (sizes_mkCells htrail.symm).symm ▸ List.suffix_rfl
        · rw [length_mkCells htrail.symm]
          simp
        · intro c hc hdropped
          rw [needed_mkCells c (by simpa using hc)] at hdropped
          exact absurd hdropped (by simp)
      rw [← hsizes] at h
      have hrun := hstart.run hdec hle hne hpos (by simpa using h)
      have hdec' := hstart.decreasing hdec hle hne hpos (by simpa using h)
      have hframe : tileCells tiles (front ++ mkCells minShape ss₂) = front ++ cells :=
        tileCells_frame front (by rwa [length_mkCells htrail.symm]) hne
      have hneeded : neededCells (front ++ mkCells minShape ss₂) =
          front ++ mkCells minShape ss₂ := by
        rw [neededCells_append, neededCells_of_all needed_mkCells, neededCells_of_all needed_mkCells]
      have hneeded' : neededCells (front ++ cells) = front ++ neededCells cells := by
        rw [neededCells_append, neededCells_of_all needed_mkCells]
      simp only [List.append_nil, hframe, hneeded, hneeded', hstrides] at hrun
      obtain ⟨h₁, h₂, h₃, h₄, h₅⟩ := hrun
      refine ⟨fun c hc => h₃ c (List.mem_append_right _ hc), hdec', front, ?_, h₁.symm, h₂.symm,
        .cons hdiv (hsizes ▸ h₄), h₅.symm⟩
      rw [length_mkCells hfront, List.length_append, List.length_append, List.length_zipWith]
      omega

end JaxDas.TiledLayout
