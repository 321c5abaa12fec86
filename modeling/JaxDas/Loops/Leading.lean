import JaxDas.Loops.Scan

/-!
# Arrays along their first axis

Cutting arrays along the first axis, putting them together, and splitting the axis in two. An array
is given by its parts along the axis.
-/

namespace JaxDas

variable {α : Type}

namespace NdArray

/-- `slice_in_dim(x, start, limit)`. -/
def sliceInDim (x : NdArray α) (start limit : ℕ) : NdArray α :=
  stackLeading x.shape.tail (limit - start) fun i => x.slice 0 (start + i)

/-- `lax.concatenate([x, y], 0)`. -/
def concat (x y : NdArray α) : NdArray α :=
  stackLeading x.shape.tail (x.shape.headD 0 + y.shape.headD 0) fun i =>
    if i < x.shape.headD 0 then x.slice 0 i else y.slice 0 (i - x.shape.headD 0)

/-- `lax.reshape(x, (n, k, *x.shape[1:]))`. -/
def blocks (n k : ℕ) (x : NdArray α) : NdArray α :=
  stackLeading (k :: x.shape.tail) n fun i =>
    stackLeading x.shape.tail k fun j => x.slice 0 (i * k + j)

/-- `lax.reshape(y, (n * k, *y.shape[2:]))`. -/
def unblocks (n k : ℕ) (y : NdArray α) : NdArray α :=
  stackLeading y.shape.tail.tail (n * k) fun i => (y.slice 0 (i / k)).slice 0 (i % k)

/-- `dynamic_update_index_in_dim(y, upd, i, 0)`, with the index in bounds. -/
def updateIndex (y upd : NdArray α) (i : ℕ) : NdArray α :=
  stackLeading y.shape.tail (y.shape.headD 0) fun j => if j = i then upd else y.slice 0 j

variable {x y : NdArray α} {n m k : ℕ} {s : List ℕ}

theorem slice_leading (hx : x.shape = n :: s) {i : ℕ} (hi : i < n) : (x.slice 0 i).shape = s :=
  slice_shape (k := 0) hx (Nat.zero_le _) hi

theorem sliceInDim_spec (hx : x.shape = n :: s) (start : ℕ) {limit : ℕ} (hlimit : limit ≤ n) :
    (x.sliceInDim start limit).shape = (limit - start) :: s ∧
      ∀ i < limit - start, (x.sliceInDim start limit).slice 0 i = x.slice 0 (start + i) := by
  have htail : x.shape.tail = s := by rw [hx, List.tail_cons]
  rw [sliceInDim, htail]
  refine stackLeading_spec fun i hi => ?_
  exact slice_leading hx (by omega)

theorem concat_spec (hx : x.shape = n :: s) (hy : y.shape = m :: s) :
    (x.concat y).shape = (n + m) :: s ∧
      ∀ i < n + m, (x.concat y).slice 0 i = if i < n then x.slice 0 i else y.slice 0 (i - n) := by
  have hx' : x.shape.headD 0 = n := by rw [hx, List.headD_cons]
  have hy' : y.shape.headD 0 = m := by rw [hy, List.headD_cons]
  have htail : x.shape.tail = s := by rw [hx, List.tail_cons]
  rw [concat, hx', hy', htail]
  refine stackLeading_spec fun i hi => ?_
  split
  · exact slice_leading hx ‹_›
  · exact slice_leading hy (by omega)

theorem block_lt {i j : ℕ} (hi : i < n) (hj : j < k) : i * k + j < n * k :=
  calc i * k + j < (i + 1) * k := by rw [Nat.succ_mul]; omega
    _ ≤ n * k := Nat.mul_le_mul_right k hi

theorem blocks_spec (hx : x.shape = (n * k) :: s) : (x.blocks n k).shape = n :: k :: s ∧
    ∀ i < n, ∀ j < k, ((x.blocks n k).slice 0 i).slice 0 j = x.slice 0 (i * k + j) := by
  have htail : x.shape.tail = s := by rw [hx, List.tail_cons]
  have hblock : ∀ i < n, (stackLeading s k fun j => x.slice 0 (i * k + j)).shape = k :: s ∧
      ∀ j < k, (stackLeading s k fun j => x.slice 0 (i * k + j)).slice 0 j =
        x.slice 0 (i * k + j) := by
    intro i hi
    exact stackLeading_spec fun j hj => slice_leading hx (block_lt hi hj)
  have hspec := stackLeading_spec fun i hi => (hblock i hi).1
  rw [blocks, htail]
  refine ⟨hspec.1, fun i hi j hj => ?_⟩
  rw [hspec.2 i hi, (hblock i hi).2 j hj]

theorem unblocks_spec (hy : y.shape = n :: k :: s) : (y.unblocks n k).shape = (n * k) :: s ∧
    ∀ i < n * k, (y.unblocks n k).slice 0 i = (y.slice 0 (i / k)).slice 0 (i % k) := by
  have htail : y.shape.tail.tail = s := by rw [hy, List.tail_cons, List.tail_cons]
  rw [unblocks, htail]
  refine stackLeading_spec fun i hi => ?_
  have hk : 0 < k := by
    rcases Nat.eq_zero_or_pos k with h | h
    · rw [h, Nat.mul_zero] at hi
      omega
    · exact h
  have hi' : i / k < n := (Nat.div_lt_iff_lt_mul hk).mpr hi
  exact slice_leading (slice_leading hy hi') (Nat.mod_lt i hk)

theorem updateIndex_spec (hy : y.shape = n :: s) (hx : x.shape = s) (i : ℕ) :
    (y.updateIndex x i).shape = n :: s ∧
      ∀ j < n, (y.updateIndex x i).slice 0 j = if j = i then x else y.slice 0 j := by
  have hhead : y.shape.headD 0 = n := by rw [hy, List.headD_cons]
  have htail : y.shape.tail = s := by rw [hy, List.tail_cons]
  rw [updateIndex, hhead, htail]
  refine stackLeading_spec fun j hj => ?_
  split
  · exact hx
  · exact slice_leading hy hj

end NdArray

/-! ## Lists of arrays -/

/-- Arrays of so many parts along their first axis. -/
def Stacked (n : ℕ) (avals : List (List ℕ)) (xs : List (NdArray α)) : Prop :=
  xs.map NdArray.shape = stackedAvals n avals

variable {n m k : ℕ}

theorem Stacked.sliceInDim : ∀ {avals : List (List ℕ)} {xs : List (NdArray α)},
    Stacked n avals xs → ∀ (start : ℕ) {limit : ℕ}, limit ≤ n →
      Stacked (limit - start) avals (xs.map fun x => x.sliceInDim start limit) ∧
        ∀ i < limit - start,
          slices i (xs.map fun x => x.sliceInDim start limit) = slices (start + i) xs
  | [], [], _, _, _, _ => ⟨rfl, fun _ _ => rfl⟩
  | aval :: avals, x :: xs, h, start, limit, hlimit => by
      injection h with hx h
      obtain ⟨hshapes, hslices⟩ := Stacked.sliceInDim h start hlimit
      obtain ⟨hshape, hslice⟩ := NdArray.sliceInDim_spec hx start hlimit
      refine ⟨congrArg₂ _ hshape hshapes, fun i hi => ?_⟩
      exact congrArg₂ List.cons (hslice i hi) (hslices i hi)

theorem Stacked.concat : ∀ {avals : List (List ℕ)} {xs ys : List (NdArray α)}, Stacked n avals xs →
    Stacked m avals ys → Stacked (n + m) avals (List.zipWith NdArray.concat xs ys) ∧
      ∀ i < n + m, slices i (List.zipWith NdArray.concat xs ys) =
        if i < n then slices i xs else slices (i - n) ys
  | [], [], [], _, _ => ⟨rfl, fun i _ => by split <;> rfl⟩
  | aval :: avals, x :: xs, y :: ys, hx, hy => by
      injection hx with hx hxs
      injection hy with hy hys
      obtain ⟨hshapes, hslices⟩ := Stacked.concat hxs hys
      obtain ⟨hshape, hslice⟩ := NdArray.concat_spec hx hy
      refine ⟨congrArg₂ _ hshape hshapes, fun i hi => ?_⟩
      refine (congrArg₂ List.cons (hslice i hi) (hslices i hi)).trans ?_
      split <;> rfl

theorem Stacked.blocks : ∀ {avals : List (List ℕ)} {xs : List (NdArray α)},
    Stacked (n * k) avals xs →
      Stacked n (stackedAvals k avals) (xs.map (NdArray.blocks n k)) ∧
        ∀ i < n, ∀ j < k, slices j (slices i (xs.map (NdArray.blocks n k))) =
          slices (i * k + j) xs
  | [], [], _ => ⟨rfl, fun _ _ _ _ => rfl⟩
  | aval :: avals, x :: xs, h => by
      injection h with hx h
      obtain ⟨hshapes, hslices⟩ := Stacked.blocks h
      obtain ⟨hshape, hslice⟩ := NdArray.blocks_spec hx
      refine ⟨congrArg₂ _ hshape hshapes, fun i hi j hj => ?_⟩
      exact congrArg₂ List.cons (hslice i hi j hj) (hslices i hi j hj)

theorem Stacked.unblocks : ∀ {avals : List (List ℕ)} {ys : List (NdArray α)},
    Stacked n (stackedAvals k avals) ys →
      Stacked (n * k) avals (ys.map (NdArray.unblocks n k)) ∧
        ∀ i < n * k, slices i (ys.map (NdArray.unblocks n k)) = slices (i % k) (slices (i / k) ys)
  | [], [], _ => ⟨rfl, fun _ _ => rfl⟩
  | aval :: avals, y :: ys, h => by
      injection h with hy h
      obtain ⟨hshapes, hslices⟩ := Stacked.unblocks h
      obtain ⟨hshape, hslice⟩ := NdArray.unblocks_spec hy
      refine ⟨congrArg₂ _ hshape hshapes, fun i hi => ?_⟩
      exact congrArg₂ List.cons (hslice i hi) (hslices i hi)

theorem Stacked.updateIndex (i : ℕ) : ∀ {avals : List (List ℕ)} {ys upds : List (NdArray α)},
    Stacked n avals ys → upds.map NdArray.shape = avals →
      Stacked n avals (List.zipWith (fun y upd => y.updateIndex upd i) ys upds) ∧
        ∀ j < n, slices j (List.zipWith (fun y upd => y.updateIndex upd i) ys upds) =
          if j = i then upds else slices j ys
  | [], [], [], _, _ => ⟨rfl, fun j _ => by split <;> rfl⟩
  | aval :: avals, y :: ys, upd :: upds, h, hupd => by
      injection h with hy h
      injection hupd with hu hupd
      obtain ⟨hshapes, hslices⟩ := Stacked.updateIndex i h hupd
      obtain ⟨hshape, hslice⟩ := NdArray.updateIndex_spec hy hu i
      refine ⟨congrArg₂ _ hshape hshapes, fun j hj => ?_⟩
      refine (congrArg₂ List.cons (hslice j hj) (hslices j hj)).trans ?_
      split <;> rfl

/-- Arrays are determined by their parts. -/
theorem Stacked.ext : ∀ {avals : List (List ℕ)} {xs ys : List (NdArray α)}, Stacked n avals xs →
    Stacked n avals ys → (∀ i < n, slices i xs = slices i ys) → xs = ys
  | [], [], [], _, _, _ => rfl
  | aval :: avals, x :: xs, y :: ys, hx, hy, h => by
      injection hx with hx hxs
      injection hy with hy hys
      have hhead : x = y := by
        refine @NdArray.ext_slices _ _ aval 0 n _ hx hy (Nat.zero_le _) fun i hi => ?_
        injection h i hi
      have htail : xs = ys := by
        refine Stacked.ext hxs hys fun i hi => ?_
        injection h i hi
      rw [hhead, htail]

end JaxDas
