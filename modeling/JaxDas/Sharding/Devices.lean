import JaxDas.Sharding.HloSharding

/-!
# The devices of an iota tiling

In the list that `iota_tile` makes, the device at the coordinates `c` stands at the number that `c`
makes when the axes are read in the order of the permutation; and every device is in it once.
-/

namespace JaxDas.Sharding

variable {A : Type} [DecidableEq A]

/-- Looking up a value through the position of its key. -/
theorem getD_map_idxOf {α β : Type} [DecidableEq β] {f : α → β} {g : α → ℕ} :
    ∀ {l : List α}, (l.map f).Nodup → ∀ {a : α}, a ∈ l →
      (l.map g).getD ((l.map f).idxOf (f a)) 0 = g a
  | b :: l, hl, a, ha => by
      rw [List.map_cons, List.nodup_cons] at hl
      rw [List.map_cons, List.map_cons, List.idxOf_cons]
      rcases List.mem_cons.mp ha with rfl | ha
      · simp
      · have hne : f b ≠ f a := fun h => hl.1 (h ▸ List.mem_map_of_mem ha)
        rw [beq_eq_false_iff_ne.mpr hne]
        exact getD_map_idxOf hl.2 ha

variable {axes flat : List (A × ℕ)}

/-- The permutation that puts the axes in another order. -/
def positions (axes flat : List (A × ℕ)) : List ℕ :=
  flat.map fun a => (axes.map Prod.fst).idxOf a.1

theorem pick_positions (hnd : (axes.map Prod.fst).Nodup) (hsub : flat ⊆ axes) (g : A × ℕ → ℕ) :
    pick (positions axes flat) (axes.map g) = flat.map g := by
  rw [pick, positions, List.map_map]
  exact List.map_congr_left fun a ha => getD_map_idxOf hnd (hsub ha)

theorem positions_self (hnd : (axes.map Prod.fst).Nodup) :
    positions axes axes = List.range axes.length := by
  refine List.ext_getElem (by simp [positions]) fun n hn _ => ?_
  have hn' : n < (axes.map Prod.fst).length := by simpa [positions] using hn
  have h := hnd.idxOf_getElem n hn'
  simpa [positions] using h

theorem positions_perm (hnd : (axes.map Prod.fst).Nodup) (hperm : flat.Perm axes) :
    (positions axes flat).Perm (List.range axes.length) := by
  rw [← positions_self hnd]
  exact hperm.map _

theorem transposeIndex_positions (hnd : (axes.map Prod.fst).Nodup) (hperm : flat.Perm axes)
    (g : A × ℕ → ℕ) : transposeIndex (positions axes flat) (flat.map g) = axes.map g := by
  have hpnd : (positions axes flat).Nodup :=
    (positions_perm hnd hperm).nodup_iff.mpr List.nodup_range
  have hlen : (positions axes flat).length = axes.length := by
    rw [positions, List.length_map, hperm.length_eq]
  rw [transposeIndex, hlen, ← positions_self hnd]
  unfold positions
  rw [List.map_map]
  exact List.map_congr_left fun a ha => getD_map_idxOf hpnd (hperm.mem_iff.mpr ha)

/-- The device at the coordinates `c`. -/
theorem getElem?_iotaDevices (hnd : (axes.map Prod.fst).Nodup) (hperm : flat.Perm axes)
    {c : A → ℕ} (hc : Digits c axes) :
    (iotaDevices (axes.map Prod.snd) (positions axes flat))[radix c flat]? =
      some (radix c axes) := by
  have hflat : Digits c flat := hc.subset hperm.subset
  rw [iotaDevices, pick_positions hnd hperm.subset Prod.snd, List.getElem?_map, radix,
    getElem?_multiIndices hflat.within, Option.map_some,
    transposeIndex_positions hnd hperm fun a => c a.1]
  rfl

theorem length_iotaDevices (hnd : (axes.map Prod.fst).Nodup) (hperm : flat.Perm axes) :
    (iotaDevices (axes.map Prod.snd) (positions axes flat)).length = volume axes := by
  rw [iotaDevices, List.length_map, length_multiIndices, pick_positions hnd hperm.subset Prod.snd,
    ← volume_perm hperm]
  rfl

/-- Every device, once. -/
theorem iotaDevices_perm (hnd : (axes.map Prod.fst).Nodup) (hperm : flat.Perm axes) :
    (iotaDevices (axes.map Prod.snd) (positions axes flat)).Perm (List.range (volume axes)) := by
  have hsub : List.range (volume axes) ⊆
      iotaDevices (axes.map Prod.snd) (positions axes flat) := by
    intro v hv
    obtain ⟨c, hc, rfl⟩ := exists_radix hnd (List.mem_range.mp hv)
    exact List.mem_of_getElem? (getElem?_iotaDevices hnd hperm hc)
  refine (List.Subperm.perm_of_length_le (List.nodup_range.subperm hsub) ?_).symm
  rw [length_iotaDevices hnd hperm, List.length_range]

end JaxDas.Sharding
