import Mathlib.Algebra.BigOperators.Group.List.Basic
import Mathlib.Algebra.Order.Ring.Int
import Mathlib.Data.Int.Cast.Lemmas
import Mathlib.Tactic.LinearCombination
import Mathlib.Tactic.Ring
import JaxDas.Lib.Fallible
import JaxDas.Lib.Related

/-!
# Tilings

A tile acts on the trailing dimensions of an array: each is unfolded into the number
of tiles and the position inside a tile, and the latter are moved to the end. A tiling
does this once for every tile.

Shapes, strides and indices are computed by loops of their own, which is why there is
something to prove. `Tiles` is the run that they have in common; what one of its steps
does to each of the three is said in the lemmas about steps, and the results about
tilings follow by induction over the run.

Divisions are those of C++, which truncate. Strides are taken from an arbitrary
commutative ring: the integers, or the integers modulo `2^64`.
-/

namespace JaxDas.TiledLayout

open Related

/-- The sizes of a tile. -/
abbrev Tile := List ℤ

/-- `Tiling`, with what `Create` has checked. -/
structure Tiling where
  tiles : List Tile
  decreasing : tiles.Pairwise fun t u => u.length ≤ t.length
  nonempty : ∀ t ∈ tiles, t ≠ []
  positive : ∀ t ∈ tiles, ∀ d ∈ t, 0 < d

/-- The loop of `Tiling::Create`; there is no last tile at first. -/
def checkTiles : Option ℕ → List Tile → Except String Unit
  | _, [] => .ok ()
  | lastTileRank, tile :: tiles =>
      if lastTileRank.any (· < tile.length) then .error "Tiles must have a decreasing rank"
      else if tile.isEmpty then .error "Tiles must not be empty"
      else if tile.any (· ≤ 0) then .error "Tile shape must only have positive sizes"
      else checkTiles (some tile.length) tiles

/-- What the checks come to. -/
theorem checkTiles_ok : ∀ {tiles : List Tile} {r : Option ℕ}, checkTiles r tiles = .ok () →
    (∀ n ∈ r, ∀ t ∈ tiles, t.length ≤ n) ∧ (tiles.Pairwise fun t u => u.length ≤ t.length) ∧
      (∀ t ∈ tiles, t ≠ []) ∧ ∀ t ∈ tiles, ∀ d ∈ t, 0 < d
  | [], _, _ => by simp
  | tile :: tiles, r, h => by
      unfold checkTiles at h
      rcases ite_ok h with ⟨_, h⟩ | ⟨hrank, h⟩
      · exact absurd h (by simp)
      rcases ite_ok h with ⟨_, h⟩ | ⟨hempty, h⟩
      · exact absurd h (by simp)
      rcases ite_ok h with ⟨_, h⟩ | ⟨hpos, h⟩
      · exact absurd h (by simp)
      obtain ⟨hle, hdec, hne, hp⟩ := checkTiles_ok h
      have hle' := hle tile.length rfl
      refine ⟨fun n hn t ht => ?_, List.pairwise_cons.mpr ⟨hle', hdec⟩,
        List.forall_mem_cons.mpr ⟨by simpa using hempty, hne⟩, List.forall_mem_cons.mpr ⟨?_, hp⟩⟩
      · obtain rfl : r = some n := hn
        have hn : tile.length ≤ n := by simpa using hrank
        rcases List.mem_cons.mp ht with rfl | ht
        · exact hn
        · exact (hle' t ht).trans hn
      · simpa using hpos

/-- `Tiling::Create`. -/
def Tiling.create (tiles : List Tile) : Except String Tiling :=
  match h : checkTiles none tiles with
  | .ok () =>
      .ok { tiles
            decreasing := (checkTiles_ok h).2.1
            nonempty := (checkTiles_ok h).2.2.1
            positive := (checkTiles_ok h).2.2.2 }
  | .error e => .error e

theorem checkTiles_of_valid : ∀ {tiles : List Tile} {r : Option ℕ},
    (∀ n ∈ r, ∀ t ∈ tiles, t.length ≤ n) → (tiles.Pairwise fun t u => u.length ≤ t.length) →
      (∀ t ∈ tiles, t ≠ []) → (∀ t ∈ tiles, ∀ d ∈ t, 0 < d) → checkTiles r tiles = .ok ()
  | [], _, _, _, _, _ => rfl
  | tile :: tiles, r, hr, hdec, hne, hpos => by
      have hrank : r.any (· < tile.length) = false := by
        cases r with
        | none => rfl
        | some n => simpa using hr n rfl tile List.mem_cons_self
      have hempty : tile.isEmpty = false := by
        simpa using hne tile List.mem_cons_self
      have hall : tile.any (· ≤ 0) = false := by
        simpa using hpos tile List.mem_cons_self
      obtain ⟨hle, hdec⟩ := List.pairwise_cons.mp hdec
      unfold checkTiles
      rw [hrank, hempty, hall]
      refine checkTiles_of_valid (fun n hn t ht => ?_) hdec
        (fun t ht => hne t (List.mem_cons_of_mem _ ht)) fun t ht => hpos t (List.mem_cons_of_mem _ ht)
      injection hn with hn
      exact hn ▸ hle t ht

/-- `Create` accepts every tiling. -/
theorem Tiling.create_tiles (tiling : Tiling) : Tiling.create tiling.tiles = .ok tiling := by
  have h := checkTiles_of_valid (r := none) (fun n hn => absurd hn (by simp)) tiling.decreasing
    tiling.nonempty tiling.positive
  unfold Tiling.create
  split
  · rfl
  · rename_i e he
    rw [h] at he
    exact absurd he (by simp)

/-! ## The loops -/

section Loops

variable {β : Type}

/-- All but the last `n` elements. -/
def lead (n : ℕ) (xs : List β) : List β := xs.take (xs.length - n)

/-- The last `n` elements. -/
def trail (n : ℕ) (xs : List β) : List β := xs.drop (xs.length - n)

/-- One round of `TileShape`. -/
def tileShapeStep (shape : List ℤ) (tile : Tile) : Except String (List ℤ) :=
  if shape.length < tile.length then .error "Tiling does not apply to shape"
  else if (List.zipWith (fun dim t => dim.tmod t) (trail tile.length shape) tile).any (· ≠ 0) then
    .error "Dimension not divisible by tile size"
  else .ok (lead tile.length shape ++
    (List.zipWith (fun dim t => dim.tdiv t) (trail tile.length shape) tile ++ tile))

/-- One round of `UntileShape`. -/
def untileShapeStep (shape : List ℤ) (tile : Tile) : Except String (List ℤ) :=
  if shape.length < tile.length * 2 then .error "Invalid tiled shape"
  else
    let outer := (trail (2 * tile.length) shape).take tile.length
    let inner := (trail (2 * tile.length) shape).drop tile.length
    if inner ≠ tile then .error "Tiling dimension mismatch"
    else .ok (lead (2 * tile.length) shape ++ List.zipWith (· * ·) outer inner)

/-- One round of `TileStrides`. -/
def tileStridesStep {R : Type} [CommRing R] (strides : List R) (tile : Tile) : List R :=
  lead tile.length strides ++
    (List.zipWith (fun (s : R) (t : ℤ) => s * (t : R)) (trail tile.length strides) tile ++
      trail tile.length strides)

/-- One round of `TileIndices`. -/
def tileIndicesStep (indices : List ℤ) (tile : Tile) : List ℤ :=
  lead tile.length indices ++
    (List.zipWith (fun i t => i.tdiv t) (trail tile.length indices) tile ++
      List.zipWith (fun i t => i.tmod t) (trail tile.length indices) tile)

/-- One round of `UntileIndices`. -/
def untileIndicesStep (indices : List ℤ) (tile : Tile) : List ℤ :=
  let outer := (trail (2 * tile.length) indices).take tile.length
  let inner := (trail (2 * tile.length) indices).drop tile.length
  lead (2 * tile.length) indices ++
    List.zipWith (· + ·) (List.zipWith (· * ·) outer tile) inner

/-- `Tiling::TileShape`. -/
def tileShape (tiles : List Tile) (shape : List ℤ) : Except String (List ℤ) :=
  tiles.foldlM tileShapeStep shape

/-- `Tiling::UntileShape`. -/
def untileShape (tiles : List Tile) (shape : List ℤ) : Except String (List ℤ) :=
  tiles.reverse.foldlM untileShapeStep shape

/-- `Tiling::TileStrides`. -/
def tileStrides {R : Type} [CommRing R] (tiles : List Tile) (strides : List R) : List R :=
  tiles.foldl tileStridesStep strides

/-- `Tiling::TileIndices`. -/
def tileIndices (tiles : List Tile) (indices : List ℤ) : List ℤ :=
  tiles.foldl tileIndicesStep indices

/-- `Tiling::UntileIndices`. -/
def untileIndices (tiles : List Tile) (indices : List ℤ) : List ℤ :=
  tiles.reverse.foldl untileIndicesStep indices

theorem lead_append (xs ys : List β) : lead ys.length (xs ++ ys) = xs := by simp [lead]

theorem trail_append (xs ys : List β) : trail ys.length (xs ++ ys) = ys := by simp [trail]

theorem lead_append_of_length {n : ℕ} (xs : List β) {ys : List β} (h : ys.length = n) :
    lead n (xs ++ ys) = xs := by rw [← h, lead_append]

theorem trail_append_of_length {n : ℕ} (xs : List β) {ys : List β} (h : ys.length = n) :
    trail n (xs ++ ys) = ys := by rw [← h, trail_append]

theorem lead_append_trail {n : ℕ} (xs : List β) : lead n xs ++ trail n xs = xs :=
  List.take_append_drop _ _

theorem length_trail {n : ℕ} {xs : List β} (h : n ≤ xs.length) : (trail n xs).length = n := by
  rw [trail, List.length_drop]
  omega

end Loops

/-! ## The run of a tiling -/

/--
A tiling applies to the shape `shape`, and makes `tiled` of it. In one step the trailing
dimensions `dims` are divided by a tile.
-/
inductive Tiles : List Tile → List ℤ → List ℤ → Prop where
  | nil {shape : List ℤ} : Tiles [] shape shape
  | cons {tile : Tile} {tiles : List Tile} {pre dims tiled : List ℤ} :
      List.Forall₂ (fun dim t => t ∣ dim) dims tile →
      Tiles tiles (pre ++ (List.zipWith (fun dim t => dim.tdiv t) dims tile ++ tile)) tiled →
      Tiles (tile :: tiles) (pre ++ dims) tiled

/-- The test of the loop over the dimensions of a tile. -/
theorem divides_iff : ∀ {dims : List ℤ} {tile : Tile}, dims.length = tile.length →
    ((List.zipWith (fun dim t => dim.tmod t) dims tile).any (· ≠ 0) = false ↔
      List.Forall₂ (fun dim t => t ∣ dim) dims tile)
  | [], [], _ => by simp
  | [], _ :: _, h => absurd h (by simp)
  | _ :: _, [], h => absurd h (by simp)
  | dim :: dims, t :: tile, h => by
      rw [List.zipWith_cons_cons, List.any_cons, Bool.or_eq_false_iff, List.forall₂_cons,
        divides_iff (Nat.succ.inj h), Int.dvd_iff_tmod_eq_zero]
      simp

theorem tileShapeStep_ok {shape next : List ℤ} {tile : Tile}
    (h : tileShapeStep shape tile = .ok next) :
    ∃ pre dims, shape = pre ++ dims ∧ List.Forall₂ (fun dim t => t ∣ dim) dims tile ∧
      next = pre ++ (List.zipWith (fun dim t => dim.tdiv t) dims tile ++ tile) := by
  unfold tileShapeStep at h
  rcases ite_ok h with ⟨_, h⟩ | ⟨hlen, h⟩
  · exact absurd h (by simp)
  rcases ite_ok h with ⟨_, h⟩ | ⟨hdiv, h⟩
  · exact absurd h (by simp)
  injection h with h
  have htrail : (trail tile.length shape).length = tile.length := length_trail (by omega)
  exact ⟨_, _, (lead_append_trail shape).symm, (divides_iff htrail).mp (Bool.eq_false_iff.mpr hdiv),
    h.symm⟩

/-- **When `TileShape` succeeds** the tiling has a run. -/
theorem tiles_of_tileShape : ∀ {tiles : List Tile} {shape tiled : List ℤ},
    tileShape tiles shape = .ok tiled → Tiles tiles shape tiled
  | [], shape, tiled, h => by
      injection h with h
      exact h ▸ .nil
  | tile :: tiles, shape, tiled, h => by
      unfold tileShape at h
      rw [List.foldlM_cons] at h
      obtain ⟨next, hstep, h⟩ := bind_ok.mp h
      obtain ⟨pre, dims, rfl, hdiv, rfl⟩ := tileShapeStep_ok hstep
      exact .cons hdiv (tiles_of_tileShape h)

theorem tileShapeStep_of_dvd {pre dims : List ℤ} {tile : Tile}
    (hdiv : List.Forall₂ (fun dim t => t ∣ dim) dims tile) :
    tileShapeStep (pre ++ dims) tile =
      .ok (pre ++ (List.zipWith (fun dim t => dim.tdiv t) dims tile ++ tile)) := by
  have hlen := hdiv.length_eq
  unfold tileShapeStep
  rw [lead_append_of_length pre hlen, trail_append_of_length pre hlen,
    if_neg (by rw [List.length_append]; omega), (divides_iff hlen).mpr hdiv]
  rfl

/-- A tiling that has a run applies. -/
theorem tileShape_of_tiles {tiles : List Tile} {shape tiled : List ℤ} (h : Tiles tiles shape tiled) :
    tileShape tiles shape = .ok tiled := by
  induction h with
  | nil => rfl
  | cons hdiv _ ih =>
      unfold tileShape at ih ⊢
      rw [List.foldlM_cons, tileShapeStep_of_dvd hdiv]
      exact ih

theorem tileShape_iff {tiles : List Tile} {shape tiled : List ℤ} :
    tileShape tiles shape = .ok tiled ↔ Tiles tiles shape tiled :=
  ⟨tiles_of_tileShape, tileShape_of_tiles⟩

end JaxDas.TiledLayout
