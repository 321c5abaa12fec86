import JaxDas.Sharding.Strided
import JaxDas.Sharding.Tiles

/-!
# The axis order of a transposed iota

The iota tiling of a permutation of the axes is a list with several strides: each axis has the
stride that it has in the mesh, which is the number of devices in a slice of the axes after it. The
strides tell the axes apart, so `unflattenArray` finds the permutation.
-/

namespace JaxDas.Sharding

variable {A : Type} [DecidableEq A]

/-- How far apart two devices are that are next to each other along an axis. -/
def strideOf : List (A × ℕ) → A → ℕ
  | [], _ => 0
  | a :: axes, name => if a.1 = name then volume axes else strideOf axes name

theorem strideOf_head (a : A × ℕ) (axes : List (A × ℕ)) : strideOf (a :: axes) a.1 = volume axes :=
  if_pos rfl

theorem strideOf_tail {a b : A × ℕ} {axes : List (A × ℕ)} (hnd : ((a :: axes).map Prod.fst).Nodup)
    (hb : b ∈ axes) : strideOf (a :: axes) b.1 = strideOf axes b.1 := by
  have hne : a.1 ≠ b.1 := by
    intro heq
    exact (List.nodup_cons.mp hnd).1 (heq ▸ List.mem_map_of_mem hb)
  exact if_neg hne

/-- The size and the stride of an axis. -/
def dimOf (axes : List (A × ℕ)) (a : A × ℕ) : ℕ × ℕ := (a.2, strideOf axes a.1)

/-! ## Numbers by strides -/

/-- The number with the digit `c a` for each name `a`, by the strides of the names. -/
def weigh (st c : A → ℕ) : List (A × ℕ) → ℕ
  | [] => 0
  | a :: l => c a.1 * st a.1 + weigh st c l

omit [DecidableEq A] in
theorem weigh_perm {st c : A → ℕ} {l m : List (A × ℕ)} (h : l.Perm m) :
    weigh st c l = weigh st c m := by
  induction h with
  | nil => rfl
  | cons a _ ih => rw [weigh, weigh, ih]
  | swap a b l =>
      simp only [weigh]
      omega
  | trans _ _ ih ih' => rw [ih, ih']

omit [DecidableEq A] in
theorem weigh_congr {st st' c : A → ℕ} : ∀ {l : List (A × ℕ)}, (∀ a ∈ l, st a.1 = st' a.1) →
    weigh st c l = weigh st' c l
  | [], _ => rfl
  | a :: l, h => by
      rw [weigh, weigh, h a List.mem_cons_self,
        weigh_congr fun b hb => h b (List.mem_cons_of_mem _ hb)]

omit [DecidableEq A] in
theorem weigh_concat (st c : A → ℕ) (a : A × ℕ) : ∀ l : List (A × ℕ),
    weigh st c (l ++ [a]) = weigh st c l + c a.1 * st a.1
  | [] => by simp [weigh]
  | b :: l => by
      rw [List.cons_append, weigh, weigh, weigh_concat st c a l, Nat.add_assoc]

theorem radix_eq_weigh {c : A → ℕ} : ∀ {axes : List (A × ℕ)}, (axes.map Prod.fst).Nodup →
    radix c axes = weigh (strideOf axes) c axes
  | [], _ => rfl
  | a :: axes, hnd => by
      rw [radix_cons, weigh, strideOf_head, radix_eq_weigh (List.nodup_cons.mp hnd).2]
      congr 1
      exact weigh_congr fun b hb => (strideOf_tail hnd hb).symm

/-- The element at the number that the digits make in one order of the axes is the number that they
make by the strides. -/
theorem getElem?_strided {axes : List (A × ℕ)} {c : A → ℕ} {flat : List (A × ℕ)}
    (hc : Digits c flat) :
    (strided (flat.reverse.map (dimOf axes)))[radix c flat]? =
      some (weigh (strideOf axes) c flat) := by
  induction flat using List.reverseRecOn with
  | nil => rfl
  | append_singleton flat a ih =>
      have hflat : Digits c flat := fun b hb => hc b (List.mem_append_left _ hb)
      have ha : c a.1 < a.2 := hc a (List.mem_append_right _ List.mem_cons_self)
      have h := getElem?_strided_cons (strideOf axes a.1) ha (ih hflat)
      rw [List.reverse_append, radix_append, weigh_concat]
      simpa [dimOf] using h

/-- The iota tiling, as a list with the strides of the axes. -/
theorem iotaDevices_eq_strided {axes flat : List (A × ℕ)} (hnd : (axes.map Prod.fst).Nodup)
    (hperm : flat.Perm axes) :
    iotaDevices (axes.map Prod.snd) (positions axes flat) =
      strided (flat.reverse.map (dimOf axes)) := by
  have hflat : (flat.map Prod.fst).Nodup := (hperm.map Prod.fst).nodup_iff.mpr hnd
  have hlen : (strided (flat.reverse.map (dimOf axes))).length = volume axes := by
    rw [length_strided, List.map_map]
    exact volume_perm ((List.reverse_perm flat).trans hperm)
  refine List.ext_getElem (by rw [length_iotaDevices hnd hperm, hlen]) fun k hk hk' => ?_
  rw [length_iotaDevices hnd hperm, ← volume_perm hperm] at hk
  -- the position has digits in the order of the permutation
  obtain ⟨c, hc, rfl⟩ := exists_radix hflat hk
  have haxes : Digits c axes := hc.subset hperm.symm.subset
  have h := getElem?_iotaDevices hnd hperm haxes
  rw [radix_eq_weigh hnd, ← weigh_perm hperm, ← getElem?_strided hc] at h
  rw [← Option.some_inj, ← List.getElem?_eq_getElem, ← List.getElem?_eq_getElem, h]

/-! ## Axes of size one -/

theorem strided_filter : ∀ dims : List (ℕ × ℕ),
    strided (dims.filter fun d => d.1 ≠ 1) = strided dims
  | [] => rfl
  | (n, st) :: dims => by
      by_cases hn : n = 1
      · subst hn
        rw [List.filter_cons_of_neg (by simp), strided_filter dims, strided]
        simp
      · rw [List.filter_cons_of_pos (by simpa using hn), strided, strided, strided_filter dims]

theorem strideOf_filter {a : A × ℕ} (ha : a.2 ≠ 1) : ∀ {axes : List (A × ℕ)},
    (axes.map Prod.fst).Nodup → a ∈ axes →
      strideOf (axes.filter fun b => b.2 ≠ 1) a.1 = strideOf axes a.1
  | b :: axes, hnd, hmem => by
      rcases List.mem_cons.mp hmem with rfl | hmem
      · rw [List.filter_cons_of_pos (by simpa using ha), strideOf_head, strideOf_head,
          volume_filter]
      · have ih := strideOf_filter ha (List.nodup_cons.mp hnd).2 hmem
        rw [strideOf_tail hnd hmem, ← ih]
        by_cases hb : b.2 = 1
        · rw [List.filter_cons_of_neg (by simpa using hb)]
        · have hmem' : a ∈ axes.filter fun b => b.2 ≠ 1 :=
            List.mem_filter.mpr ⟨hmem, by simpa using ha⟩
          have hnd' : ((b :: axes.filter fun b => b.2 ≠ 1).map Prod.fst).Nodup :=
            hnd.sublist ((List.filter_sublist.cons_cons b).map _)
          rw [List.filter_cons_of_pos (by simpa using hb), strideOf_tail hnd' hmem']

/-- The iota tiling does not mind axes of size one. -/
theorem iotaDevices_filter {axes flat : List (A × ℕ)} (hnd : (axes.map Prod.fst).Nodup)
    (hperm : flat.Perm axes) :
    iotaDevices ((axes.filter fun a => a.2 ≠ 1).map Prod.snd)
        (positions (axes.filter fun a => a.2 ≠ 1) (flat.filter fun a => a.2 ≠ 1)) =
      iotaDevices (axes.map Prod.snd) (positions axes flat) := by
  have hnd' : ((axes.filter fun a => a.2 ≠ 1).map Prod.fst).Nodup :=
    hnd.sublist (List.filter_sublist.map _)
  rw [iotaDevices_eq_strided hnd hperm, iotaDevices_eq_strided hnd' (hperm.filter _),
    ← strided_filter (flat.reverse.map _), List.filter_map, ← List.filter_reverse]
  refine congrArg strided (List.map_congr_left fun a ha => ?_)
  obtain ⟨ha, h1⟩ := List.mem_filter.mp ha
  have hmem := hperm.mem_iff.mp (List.mem_reverse.mp ha)
  rw [dimOf, dimOf, strideOf_filter (by simpa using h1) hnd hmem]

/-! ## The strides tell the axes apart -/

theorem strideOf_lt {b : A × ℕ} : ∀ {axes : List (A × ℕ)}, (axes.map Prod.fst).Nodup →
    (∀ a ∈ axes, 1 < a.2) → b ∈ axes → strideOf axes b.1 < volume axes
  | a :: axes, hnd, hpos, hb => by
      have ha := hpos a List.mem_cons_self
      have hpos' : ∀ b ∈ axes, 1 < b.2 := fun b hb => hpos b (List.mem_cons_of_mem _ hb)
      have hvol : 0 < volume axes := volume_pos fun b hb => Nat.lt_trans Nat.one_pos (hpos' b hb)
      have hle : 2 * volume axes ≤ a.2 * volume axes := Nat.mul_le_mul_right _ ha
      rw [volume_cons]
      rcases List.mem_cons.mp hb with rfl | hb
      · rw [strideOf_head]
        omega
      · have ih := strideOf_lt (List.nodup_cons.mp hnd).2 hpos' hb
        rw [strideOf_tail hnd hb]
        omega

theorem strides_nodup : ∀ {axes : List (A × ℕ)}, (axes.map Prod.fst).Nodup →
    (∀ a ∈ axes, 1 < a.2) → (axes.map fun a => strideOf axes a.1).Nodup
  | [], _, _ => .nil
  | a :: axes, hnd, hpos => by
      have hnd' := (List.nodup_cons.mp hnd).2
      have hpos' : ∀ b ∈ axes, 1 < b.2 := fun b hb => hpos b (List.mem_cons_of_mem _ hb)
      have htail : (axes.map fun b => strideOf (a :: axes) b.1) =
          axes.map fun b => strideOf axes b.1 :=
        List.map_congr_left fun b hb => strideOf_tail hnd hb
      rw [List.map_cons, strideOf_head, htail, List.nodup_cons]
      refine ⟨?_, strides_nodup hnd' hpos'⟩
      intro hmem
      obtain ⟨b, hb, heq⟩ := List.mem_map.mp hmem
      exact absurd heq (Nat.ne_of_lt (strideOf_lt hnd' hpos' hb))

theorem stridesForSizes_eq : ∀ {axes : List (A × ℕ)}, (axes.map Prod.fst).Nodup →
    (∀ a ∈ axes, 1 < a.2) →
      stridesForSizes (axes.map Prod.snd) = axes.map fun a => strideOf axes a.1
  | [], _, _ => rfl
  | a :: axes, hnd, hpos => by
      have ha := hpos a List.mem_cons_self
      rw [List.map_cons, stridesForSizes, List.map_cons, strideOf_head,
        stridesForSizes_eq (List.nodup_cons.mp hnd).2 fun b hb => hpos b (List.mem_cons_of_mem _ hb)]
      congr 1
      · exact Nat.mul_div_cancel_left _ (Nat.lt_trans Nat.one_pos ha)
      · exact List.map_congr_left fun b hb => (strideOf_tail hnd hb).symm

/-- The value of a key that occurs once. -/
theorem getItem_of_mem {κ ν : Type} [DecidableEq κ] {items : List (κ × ν)}
    (hnd : (items.map Prod.fst).Nodup) {key : κ} {value : ν} (h : (key, value) ∈ items) :
    getItem items key = .ok value := by
  have hrev : (items.reverse.map Prod.fst).Nodup := by
    rw [List.map_reverse]
    exact List.nodup_reverse.mpr hnd
  rw [getItem, lookup_eq_some_of_nodup hrev (List.mem_reverse.mpr h)]

/-! ## The axis order -/

/-- The axis order of every transposed iota, for axes of size above one. -/
theorem unflatten_iota {axes flat : List (A × ℕ)} (hnd : (axes.map Prod.fst).Nodup)
    (hpos : ∀ a ∈ axes, 1 < a.2) (hperm : flat.Perm axes) :
    unflattenArray axes (iotaDevices (axes.map Prod.snd) (positions axes flat)) =
      .ok (flat.map Prod.fst) := by
  have hfilter : (axes.filter fun a => a.2 ≠ 1) = axes :=
    List.filter_eq_self.mpr fun a ha => by simpa using Nat.ne_of_gt (hpos a ha)
  obtain ⟨superdims, hmerges⟩ := exists_merges (flat.reverse.map (dimOf axes))
  have hmem : ∀ a ∈ flat, a ∈ axes := fun a ha => hperm.mem_iff.mp ha
  have hdims : ∀ d ∈ flat.reverse.map (dimOf axes), ∃ a ∈ axes, dimOf axes a = d := by
    intro d hd
    obtain ⟨a, ha, rfl⟩ := List.mem_map.mp hd
    exact ⟨a, hmem a (List.mem_reverse.mp ha), rfl⟩
  have hdpos : ∀ d ∈ flat.reverse.map (dimOf axes), 1 < d.1 := by
    intro d hd
    obtain ⟨a, ha, rfl⟩ := hdims d hd
    exact hpos a ha
  -- the two dictionaries have a key for every axis
  have hstrides := strides_nodup hnd hpos
  have hsizes : ∀ d ∈ flat.reverse.map (dimOf axes),
      getItem ((stridesForSizes (axes.map Prod.snd)).zip (axes.map Prod.snd)) d.2 = .ok d.1 := by
    intro d hd
    obtain ⟨a, ha, rfl⟩ := hdims d hd
    rw [stridesForSizes_eq hnd hpos, List.zip_map']
    refine getItem_of_mem ?_ (List.mem_map.mpr ⟨a, ha, rfl⟩)
    rwa [List.map_map]
  have hnames : ∀ a ∈ flat,
      getItem (((axes.map Prod.snd).zip (stridesForSizes (axes.map Prod.snd))).zip
        (axes.map Prod.fst)) (dimOf axes a) = .ok a.1 := by
    intro a ha
    rw [stridesForSizes_eq hnd hpos, List.zip_map', List.zip_map']
    refine getItem_of_mem ?_ (List.mem_map.mpr ⟨a, hmem a ha, rfl⟩)
    rw [List.map_map]
    refine List.Nodup.of_map Prod.snd ?_
    rwa [List.map_map]
  have hexplode : explodeSuperdims (axes.map Prod.snd) superdims =
      .ok (flat.map (dimOf axes)) := by
    rw [explodeSuperdims, explodeLoop_merges hmerges hdpos hsizes, ← List.map_reverse,
      List.reverse_reverse]
  rw [iotaDevices_eq_strided hnd hperm]
  unfold unflattenArray
  simp only [hfilter]
  rw [unflattenSuperdims_strided hmerges hdpos, ok_bind, hexplode, ok_bind]
  refine mapM_of_forall₂ ?_
  rw [List.forall₂_map_left_iff, List.forall₂_map_right_iff, List.forall₂_same]
  exact hnames

/-- The axis order of every transposed iota, but for the axes of size one. -/
theorem unflattenArray_iotaDevices {mesh : Mesh A} {flat : List (A × ℕ)}
    (hperm : flat.Perm mesh.axes) :
    unflattenArray mesh.axes (iotaDevices (mesh.axes.map Prod.snd) (positions mesh.axes flat)) =
      .ok ((flat.filter fun a => a.2 ≠ 1).map Prod.fst) := by
  rw [← iotaDevices_filter mesh.nodup hperm]
  have hpos : ∀ a ∈ mesh.axes.filter fun a => a.2 ≠ 1, 1 < a.2 := by
    intro a ha
    obtain ⟨ha, h1⟩ := List.mem_filter.mp ha
    have h0 := mesh.pos a ha
    have h1 : a.2 ≠ 1 := by simpa using h1
    omega
  have h := unflatten_iota (mesh.nodup.sublist (List.filter_sublist.map _)) hpos (hperm.filter _)
  rw [← h]
  unfold unflattenArray
  simp only [List.filter_filter, Bool.and_self]

end JaxDas.Sharding
