import JaxDas.Sharding.ProcessIndex

/-!
# Every process has its share

What the processes get from `get_process_index_and_count` fits together: they all raise, or their
indices name sets of slices that partition the dimension. With the sets of equal size, the size of a
process times their number is the size of the whole.
-/

namespace JaxDas.Sharding

/-! ## What holds across the processes -/

def TensorSharding.processes (s : TensorSharding) : List ℕ :=
  s.device_assignment.map Device.process_index

/-- The slices of a dimension that a process addresses. -/
def addressed (device_map : List (Device × Option (List Slice))) (dim pid : ℕ) : Finset Slice :=
  groupOf (device_map.filterMap fun item => (sliceOf dim item).toOption) pid

/-- Every process gets the number of distinct sets of slices and the index of its own. -/
structure Consistent (order : SetOrder (Finset Slice)) (s : TensorSharding) (ndims dim n : ℕ)
    (index : ℕ → ℕ) : Prop where
  returns : ∀ pid ∈ s.processes, getProcessIndexAndCount order s pid dim ndims = .ok (index pid, n)
  covers : ∀ i, i < n ↔ ∃ pid ∈ s.processes, index pid = i
  same : ∀ shape device_map, shape.length = ndims → 0 < shape.getD dim 0 →
    s.devicesIndicesMap shape = .ok device_map → ∀ pid ∈ s.processes, ∀ pid' ∈ s.processes,
      (index pid = index pid' ↔ addressed device_map dim pid = addressed device_map dim pid')
  partition : ∀ shape device_map, shape.length = ndims → 0 < shape.getD dim 0 →
    s.devicesIndicesMap shape = .ok device_map → ∀ pid ∈ s.processes, ∀ pid' ∈ s.processes,
      (addressed device_map dim pid).card = (addressed device_map dim pid').card ∧
        (addressed device_map dim pid ≠ addressed device_map dim pid' →
          Disjoint (addressed device_map dim pid) (addressed device_map dim pid'))

/-! ## The numbers of the slices -/

theorem sliceAt_injOn {dim n : ℕ} (hdim : 0 < dim) (hdvd : n ∣ dim) :
    Set.InjOn (sliceAt dim n) {k | k < n} := by
  intro k hk k' hk' heq
  have hlt : k < n := hk
  have hlt' : k' < n := hk'
  unfold sliceAt at heq
  split at heq
  · omega
  · have hpos : 0 < dim / n := Nat.div_pos (Nat.le_of_dvd hdim hdvd) (by omega)
    exact Nat.eq_of_mul_eq_mul_right hpos (Slice.range.inj heq).1

theorem exists_within {k n : ℕ} : ∀ {parts : List ℕ} {dim : ℕ}, parts[dim]? = some n →
    (∀ m ∈ parts, 0 < m) → k < n → ∃ t, Within parts t ∧ t.getD dim 0 = k
  | m :: parts, 0, hn, hpos, hk => by
      obtain rfl := Option.some.inj hn
      obtain ⟨-, hpos⟩ := List.forall_mem_cons.mp hpos
      refine ⟨k :: parts.map fun _ => 0, .cons hk ?_, rfl⟩
      exact List.forall₂_map_left_iff.mpr (List.forall₂_same.mpr hpos)
  | m :: parts, dim + 1, hn, hpos, hk => by
      obtain ⟨hm, hpos⟩ := List.forall_mem_cons.mp hpos
      obtain ⟨t, ht, hget⟩ := @exists_within k n parts dim hn hpos hk
      exact ⟨0 :: t, .cons hm ht, hget⟩

namespace Tiling

variable {s : TensorSharding} {ndims : ℕ} (T : Tiling s ndims) (dim : ℕ)

/-- The process of every device and the number of its slice. -/
def numbers : List (ℕ × ℕ) :=
  (s.device_assignment.zip T.tiles).map fun e => (e.1.process_index, e.2.getD dim 0)

theorem keys_numbers : (T.numbers dim).map Prod.fst = s.processes := by
  rw [numbers, List.map_map, TensorSharding.processes]
  conv_rhs => rw [← List.map_fst_zip (Nat.le_of_eq T.length_tiles.symm), List.map_map]
  rfl

theorem values_numbers : (T.numbers dim).map Prod.snd = T.tiles.map (·.getD dim 0) := by
  rw [numbers, List.map_map]
  conv_rhs => rw [← List.map_snd_zip (Nat.le_of_eq T.length_tiles), List.map_map]
  rfl

variable {dim} {n : ℕ} (hn : T.parts[dim]? = some n)
include hn

theorem getD_tile_lt {t : List ℕ} (ht : t ∈ T.tiles) :
    t[dim]? = some (t.getD dim 0) ∧ t.getD dim 0 < n := by
  have hw := (T.mem_tiles t).mp ht
  obtain ⟨hlt, rfl⟩ := List.getElem?_eq_some_iff.mp hn
  have hlen : dim < t.length := by rwa [hw.length_eq]
  rw [List.getD_eq_getElem _ _ hlen]
  exact ⟨List.getElem?_eq_getElem hlen, List.Forall₂.get hw hlen hlt⟩

/-- Every slice is somewhere. -/
theorem mem_values {k : ℕ} : k ∈ (T.numbers dim).map Prod.snd ↔ k < n := by
  rw [values_numbers, List.mem_map]
  constructor
  · rintro ⟨t, ht, rfl⟩
    exact (T.getD_tile_lt hn ht).2
  · intro hk
    have hpos : ∀ m ∈ T.parts, 0 < m := fun m hm => Nat.pos_of_dvd_of_pos (T.dvd m hm) T.pos
    obtain ⟨t, ht, hget⟩ := exists_within hn hpos hk
    exact ⟨t, (T.mem_tiles t).mpr ht, hget⟩

theorem groupOf_numbers_lt {pid k : ℕ} (hk : k ∈ groupOf (T.numbers dim) pid) : k < n :=
  (T.mem_values hn).mp (List.mem_map_of_mem (mem_groupOf.mp hk))

theorem toFinset_values : ((T.numbers dim).map Prod.snd).toFinset = Finset.range n := by
  ext k
  rw [List.mem_toFinset, T.mem_values hn, Finset.mem_range]

variable {shape : List ℕ} {size : ℕ} (hsize : shape[dim]? = some size)
include hsize

theorem getElem?_slices {t : List ℕ} (ht : t ∈ T.tiles) :
    (tileSlices shape T.parts t)[dim]? = some (sliceAt size n (t.getD dim 0)) :=
  getElem?_tileSlices hsize hn (T.getD_tile_lt hn ht).1

/-- `v[dim]` of every device that satisfies a test. -/
theorem mapM_sliceOf {l : List (Device × List ℕ)} (hl : ∀ e ∈ l, e.2 ∈ T.tiles) :
    (l.map fun e => (e.1, some (tileSlices shape T.parts e.2))).mapM (sliceOf dim) =
      .ok ((l.map fun e => (e.1.process_index, e.2.getD dim 0)).map
        (Prod.map id (sliceAt size n))) := by
  induction l with
  | nil => rfl
  | cons e l ih =>
      obtain ⟨he, hl⟩ := List.forall_mem_cons.mp hl
      have hone : sliceOf dim (e.1, some (tileSlices shape T.parts e.2)) =
          .ok (e.1.process_index, sliceAt size n (e.2.getD dim 0)) := by
        rw [sliceOf]
        simp only [T.getElem?_slices hn hsize he]
      rw [List.map_cons, List.mapM_cons, hone, ih hl]
      rfl

end Tiling

/-! ## Shares -/

/-- The processes have shares of `n` slices: `count` different ones. -/
structure Shares (items : List (ℕ × ℕ)) (n count : ℕ) (index : ℕ → ℕ) : Prop where
  covers : ∀ i, i < count ↔ ∃ pid ∈ items.map Prod.fst, index pid = i
  same : ∀ pid ∈ items.map Prod.fst, ∀ pid' ∈ items.map Prod.fst,
    (index pid = index pid' ↔ groupOf items pid = groupOf items pid')
  disjoint : ∀ pid ∈ items.map Prod.fst, ∀ pid' ∈ items.map Prod.fst,
    groupOf items pid ≠ groupOf items pid' → Disjoint (groupOf items pid) (groupOf items pid')
  total : ∀ pid ∈ items.map Prod.fst, count * (groupOf items pid).card = n

/-- Everybody has everything. -/
theorem shares_whole {items : List (ℕ × ℕ)} {n : ℕ} (hne : items ≠ [])
    (h : ∀ pid ∈ items.map Prod.fst, groupOf items pid = Finset.range n) :
    Shares items n 1 fun _ => 0 := by
  obtain ⟨item, hitem⟩ := List.exists_mem_of_ne_nil items hne
  refine ⟨fun i => ?_, fun pid hpid pid' hpid' => iff_of_true rfl ?_,
    fun pid hpid pid' hpid' hne => absurd ?_ hne, fun pid hpid => ?_⟩
  · rw [Nat.lt_one_iff]
    exact ⟨fun hi => ⟨item.1, List.mem_map_of_mem hitem, hi.symm⟩, fun ⟨_, _, hi⟩ => hi.symm⟩
  · rw [h pid hpid, h pid' hpid']
  · rw [h pid hpid, h pid' hpid']
  · rw [h pid hpid, Finset.card_range, Nat.one_mul]

/-- Distinct sets of one size whose sizes add up to the size of the union. -/
theorem shares_of_uniform {items : List (ℕ × ℕ)} {n : ℕ} {f : ℕ → Slice}
    {o : SetOrder (Finset Slice)} (hvalues : (items.map Prod.snd).toFinset = Finset.range n)
    (hf : Set.InjOn f {k | k < n})
    (hcard : ∀ pid ∈ items.map Prod.fst, ∀ pid' ∈ items.map Prod.fst,
      (groupOf (items.map (Prod.map id f)) pid).card =
        (groupOf (items.map (Prod.map id f)) pid').card)
    (hsum : ((distinctGroups o (items.map (Prod.map id f))).map Finset.card).sum =
      ((items.map (Prod.map id f)).map Prod.snd).toFinset.card) :
    Shares items n (distinctGroups o (items.map (Prod.map id f))).length
      fun pid => (distinctGroups o (items.map (Prod.map id f))).idxOf
        (groupOf (items.map (Prod.map id f)) pid) := by
  have hkeys : (items.map (Prod.map id f)).map Prod.fst = items.map Prod.fst := by
    rw [List.map_map]
    rfl
  have hsubset : ∀ pid, (groupOf items pid : Set ℕ) ⊆ {k | k < n} := by
    intro pid k hk
    have hmem : k ∈ (items.map Prod.snd).toFinset :=
      List.mem_toFinset.mpr (List.mem_map_of_mem (mem_groupOf.mp hk))
    rw [hvalues] at hmem
    exact Finset.mem_range.mp hmem
  have himage : ∀ pid pid', groupOf (items.map (Prod.map id f)) pid =
      groupOf (items.map (Prod.map id f)) pid' ↔ groupOf items pid = groupOf items pid' := by
    intro pid pid'
    rw [groupOf_map, groupOf_map, ← Finset.coe_inj, Finset.coe_image, Finset.coe_image,
      hf.image_eq_image_iff (hsubset pid) (hsubset pid'), Finset.coe_inj]
  have hcardImage : ∀ pid, (groupOf (items.map (Prod.map id f)) pid).card =
      (groupOf items pid).card := by
    intro pid
    rw [groupOf_map]
    exact Finset.card_image_of_injOn (hf.mono (hsubset pid))
  have hall : ((items.map (Prod.map id f)).map Prod.snd).toFinset.card = n := by
    have himage : ((items.map (Prod.map id f)).map Prod.snd).toFinset =
        (items.map Prod.snd).toFinset.image f := by
      ext sl
      simp only [List.mem_toFinset, Finset.mem_image, List.map_map, List.mem_map]
      constructor
      · rintro ⟨item, hitem, rfl⟩
        exact ⟨item.2, ⟨item, hitem, rfl⟩, rfl⟩
      · rintro ⟨_, ⟨item, hitem, rfl⟩, rfl⟩
        exact ⟨item, hitem, rfl⟩
    have hrange : Set.InjOn f (Finset.range n) := by
      rw [Finset.coe_range]
      exact hf
    rw [himage, hvalues, Finset.card_image_of_injOn hrange, Finset.card_range]
  refine ⟨fun i => ?_, fun pid hpid pid' _ => ?_, fun pid hpid pid' hpid' hne => ?_,
    fun pid hpid => ?_⟩
  · rw [lt_length_distinctGroups, hkeys]
  · rw [idxOf_distinctGroups (hkeys ▸ hpid), himage]
  · have hdisjoint := disjoint_of_sum hsum (hkeys ▸ hpid) (hkeys ▸ hpid')
      ((himage pid pid').not.mpr hne)
    rw [groupOf_map, groupOf_map] at hdisjoint
    exact hdisjoint.of_image_finset
  · rw [← hcardImage, length_mul_card hsum (n := (groupOf (items.map (Prod.map id f)) pid).card)
      fun pid' hpid' => hcard pid' (hkeys ▸ hpid') pid hpid, hall]

/-! ## What every process gets -/

theorem addressableDevices_eq {s : TensorSharding} {pid : ℕ} (hpid : pid ∈ s.processes) :
    ∃ d rest, s.addressableDevices pid = d :: rest ∧ d.process_index = pid := by
  obtain ⟨d, hd, hprocess⟩ := List.mem_map.mp hpid
  have hmem : d ∈ s.addressableDevices pid :=
    List.mem_filter.mpr ⟨hd, decide_eq_true hprocess⟩
  cases haddr : s.addressableDevices pid with
  | nil => rw [haddr] at hmem; cases hmem
  | cons d' rest =>
      have hd' : d' ∈ s.addressableDevices pid := haddr ▸ List.mem_cons_self
      exact ⟨d', rest, rfl, of_decide_eq_true (List.mem_filter.mp hd').2⟩

namespace Tiling

variable {s : TensorSharding} {ndims dim n : ℕ} (T : Tiling s ndims) (hn : T.parts[dim]? = some n)
  (order : SetOrder (Finset Slice))

/-- The processes and slices that are collected. -/
def globalSlices (dim n : ℕ) : List (ℕ × Slice) :=
  (T.numbers dim).map (Prod.map id (sliceAt s.numDevices n))

theorem keys_globalSlices : (T.globalSlices dim n).map Prod.fst = s.processes := by
  rw [globalSlices, List.map_map, ← T.keys_numbers dim]
  rfl

section

include hn

theorem dim_lt : dim < ndims := by
  rw [← T.length_parts]
  exact (List.getElem?_eq_some_iff.mp hn).1

theorem getProcessIndexAndCount_eq {pid : ℕ} (hpid : pid ∈ s.processes)
    (hearly : ¬ (s.isFullyAddressable pid = true ∨ s.is_fully_replicated = true)) :
    getProcessIndexAndCount order s pid dim ndims =
      if ((groupSets (T.globalSlices dim n)).map Prod.snd).any
          (fun x => x.card ≠ (groupOf (T.globalSlices dim n) pid).card) then .error .nonUniform
      else if ((distinctGroups order (T.globalSlices dim n)).map Finset.card).sum ≠
          ((T.globalSlices dim n).map Prod.snd).toFinset.card then .error .nonUniform
      else .ok ((distinctGroups order (T.globalSlices dim n)).idxOf
          (groupOf (T.globalSlices dim n) pid),
        (distinctGroups order (T.globalSlices dim n)).length) := by
  obtain ⟨d, rest, haddr, rfl⟩ := addressableDevices_eq hpid
  have hdvd : List.Forall₂ (fun dim n => n ∣ dim) (List.replicate ndims s.numDevices) T.parts := by
    refine List.forall₂_iff_get.mpr
      ⟨by rw [List.length_replicate, T.length_parts], fun i hi _ => ?_⟩
    have hget : (List.replicate ndims s.numDevices).get ⟨i, hi⟩ = s.numDevices :=
      List.getElem_replicate hi
    rw [hget]
    exact T.dvd _ (List.get_mem ..)
  have hsize : (List.replicate ndims s.numDevices)[dim]? = some s.numDevices := by
    rw [List.getElem?_replicate, if_pos (T.dim_lt hn)]
  have hslices : ((s.device_assignment.zip T.tiles).map fun e => (e.1,
      some (tileSlices (List.replicate ndims s.numDevices) T.parts e.2))).mapM (sliceOf dim) =
        .ok (T.globalSlices dim n) :=
    T.mapM_sliceOf hn hsize fun e he => (List.of_mem_zip he).2
  have hlookup : (groupSets (T.globalSlices dim n)).lookup d.process_index =
      some (groupOf (T.globalSlices dim n) d.process_index) := by
    rw [lookup_groupSets, if_pos]
    rwa [keys_globalSlices]
  rw [getProcessIndexAndCount, if_neg hearly, T.indices _ hdvd, Except.mapError, ok_bind, hslices,
    ok_bind]
  simp only [haddr, hlookup, Option.getD_some]
  rfl

end

/-- The processes have the same sets in the dimension that is cut for `num_devices`. -/
def Uniform (dim n : ℕ) : Prop :=
  (∀ pid ∈ s.processes, ∀ pid' ∈ s.processes, (groupOf (T.globalSlices dim n) pid).card =
    (groupOf (T.globalSlices dim n) pid').card) ∧
  ((distinctGroups order (T.globalSlices dim n)).map Finset.card).sum =
    ((T.globalSlices dim n).map Prod.snd).toFinset.card

theorem any_card_iff {pid : ℕ} (hpid : pid ∈ s.processes) :
    ((groupSets (T.globalSlices dim n)).map Prod.snd).any
      (fun x => x.card ≠ (groupOf (T.globalSlices dim n) pid).card) = true ↔
    ¬ ∀ pid ∈ s.processes, ∀ pid' ∈ s.processes, (groupOf (T.globalSlices dim n) pid).card =
      (groupOf (T.globalSlices dim n) pid').card := by
  rw [List.any_eq_true]
  constructor
  · rintro ⟨x, hx, hne⟩ hall
    obtain ⟨pid', hpid', rfl⟩ := mem_groupSets_values.mp hx
    rw [T.keys_globalSlices] at hpid'
    exact of_decide_eq_true hne (hall pid' hpid' pid hpid)
  · intro hnot
    by_contra hnone
    refine hnot fun pid₁ h₁ pid₂ h₂ => ?_
    have hsame : ∀ pid' ∈ s.processes, (groupOf (T.globalSlices dim n) pid').card =
        (groupOf (T.globalSlices dim n) pid).card := by
      intro pid' hpid'
      by_contra hne
      refine hnone ⟨_, mem_groupSets_values.mpr ⟨pid', ?_, rfl⟩, decide_eq_true hne⟩
      rwa [T.keys_globalSlices]
    rw [hsame pid₁ h₁, hsame pid₂ h₂]

theorem numbers_ne_nil : T.numbers dim ≠ [] := by
  intro hnil
  have hlen : s.processes.length = 0 := by rw [← T.keys_numbers dim, hnil]; rfl
  rw [TensorSharding.processes, List.length_map] at hlen
  exact T.pos.ne' hlen

include hn

/-- Where all take the early exit, everybody has everything. -/
theorem groupOf_early (hearly : ∃ pid ∈ s.processes,
      s.isFullyAddressable pid = true ∨ s.is_fully_replicated = true) {pid : ℕ}
    (hpid : pid ∈ s.processes) : groupOf (T.numbers dim) pid = Finset.range n := by
  obtain ⟨pid₀, hpid₀, haddr | hfull⟩ := hearly
  · -- there is no other process
    have hone : ∀ d ∈ s.device_assignment, d.process_index = pid₀ :=
      (of_decide_eq_true haddr).2
    have hall : ∀ p ∈ s.processes, p = pid₀ := by
      intro p hp
      obtain ⟨d, hd, rfl⟩ := List.mem_map.mp hp
      exact hone d hd
    rw [← T.toFinset_values hn]
    ext k
    rw [mem_groupOf, List.mem_toFinset, List.mem_map]
    constructor
    · exact fun hmem => ⟨_, hmem, rfl⟩
    · rintro ⟨⟨p, k⟩, hmem, rfl⟩
      have hp : p ∈ s.processes := T.keys_numbers dim ▸ List.mem_map_of_mem hmem
      rwa [hall pid hpid, ← hall p hp]
  · obtain rfl : n = 1 := T.replicated hfull n (List.mem_of_getElem? hn)
    ext k
    rw [Finset.mem_range, Nat.lt_one_iff]
    constructor
    · exact fun hk => Nat.lt_one_iff.mp (T.groupOf_numbers_lt hn hk)
    · rintro rfl
      rw [← T.keys_numbers dim] at hpid
      obtain ⟨⟨p, k⟩, hmem, rfl⟩ := List.mem_map.mp hpid
      have hk := T.groupOf_numbers_lt hn (mem_groupOf.mpr hmem)
      obtain rfl : k = 0 := by omega
      exact mem_groupOf.mpr hmem

/-- All processes raise, or what they get are shares. -/
theorem raises_or_shares :
    (∀ pid ∈ s.processes, getProcessIndexAndCount order s pid dim ndims = .error .nonUniform) ∨
    ∃ count index, (∀ pid ∈ s.processes,
        getProcessIndexAndCount order s pid dim ndims = .ok (index pid, count)) ∧
      Shares (T.numbers dim) n count index := by
  by_cases hearly : ∃ pid ∈ s.processes,
      s.isFullyAddressable pid = true ∨ s.is_fully_replicated = true
  · refine .inr ⟨1, fun _ => 0, fun pid hpid => if_pos ?_, shares_whole T.numbers_ne_nil ?_⟩
    · obtain ⟨pid₀, hpid₀, haddr | hfull⟩ := hearly
      · obtain ⟨d, hd, rfl⟩ := List.mem_map.mp hpid
        rw [(of_decide_eq_true haddr).2 d hd]
        exact .inl haddr
      · exact .inr hfull
    · intro pid hpid
      exact T.groupOf_early hn hearly (T.keys_numbers dim ▸ hpid)
  · simp only [not_exists, not_and] at hearly
    by_cases huniform : T.Uniform order dim n
    · refine .inr ⟨_, _, fun pid hpid => ?_, shares_of_uniform (T.toFinset_values hn)
        (sliceAt_injOn T.pos (T.dvd n (List.mem_of_getElem? hn))) ?_ huniform.2⟩
      · have hany := (T.any_card_iff hpid).not.mpr (not_not.mpr huniform.1)
        rw [T.getProcessIndexAndCount_eq hn order hpid (hearly pid hpid), if_neg hany,
          if_neg (not_not.mpr huniform.2)]
        rfl
      · rw [T.keys_numbers]
        exact huniform.1
    · refine .inl fun pid hpid => ?_
      rw [T.getProcessIndexAndCount_eq hn order hpid (hearly pid hpid)]
      by_cases hcard : ∀ pid ∈ s.processes, ∀ pid' ∈ s.processes,
          (groupOf (T.globalSlices dim n) pid).card = (groupOf (T.globalSlices dim n) pid').card
      · rw [if_neg ((T.any_card_iff hpid).not.mpr (not_not.mpr hcard)),
          if_pos fun hsum => huniform ⟨hcard, hsum⟩]
      · rw [if_pos ((T.any_card_iff hpid).mpr hcard)]

variable {shape : List ℕ} {size : ℕ} (hshape : shape.length = ndims)
  (hsize : shape[dim]? = some size)

omit hn in
include hshape in
/-- A shape that the sharding takes is divided by the parts. -/
theorem divides_of_ok {device_map : List (Device × Option (List Slice))}
    (h : s.devicesIndicesMap shape = .ok device_map) :
    List.Forall₂ (fun dim n => n ∣ dim) shape T.parts ∧
      s.shardShape shape = .ok (List.zipWith (· / ·) shape T.parts) := by
  rw [TensorSharding.devicesIndicesMap] at h
  obtain ⟨shards, hshards, -⟩ := bind_ok.mp h
  obtain ⟨hdvd, rfl⟩ := T.shards shape hshape shards hshards
  exact ⟨hdvd, hshards⟩

include hsize

theorem dvd_size_of_divides (hdvd : List.Forall₂ (fun dim n => n ∣ dim) shape T.parts) :
    n ∣ size := by
  obtain ⟨hlt, rfl⟩ := List.getElem?_eq_some_iff.mp hsize
  obtain ⟨hlt', rfl⟩ := List.getElem?_eq_some_iff.mp hn
  exact List.Forall₂.get hdvd hlt hlt'

include hshape

/-- The slices of a process in a dimension of any size. -/
theorem addressed_eq {device_map : List (Device × Option (List Slice))}
    (h : s.devicesIndicesMap shape = .ok device_map) (pid : ℕ) :
    addressed device_map dim pid = (groupOf (T.numbers dim) pid).image (sliceAt size n) := by
  obtain ⟨hdvd, -⟩ := T.divides_of_ok hshape h
  obtain rfl := Except.ok.inj ((T.indices shape hdvd).symm.trans h)
  rw [addressed, filterMap_toOption (T.mapM_sliceOf hn hsize fun e he => (List.of_mem_zip he).2),
    groupOf_map]
  rfl

theorem addressed_spec {device_map : List (Device × Option (List Slice))} (hpos : 0 < size)
    (h : s.devicesIndicesMap shape = .ok device_map) (pid pid' : ℕ) :
    (addressed device_map dim pid).card = (groupOf (T.numbers dim) pid).card ∧
      (addressed device_map dim pid = addressed device_map dim pid' ↔
        groupOf (T.numbers dim) pid = groupOf (T.numbers dim) pid') ∧
      (Disjoint (groupOf (T.numbers dim) pid) (groupOf (T.numbers dim) pid') →
        Disjoint (addressed device_map dim pid) (addressed device_map dim pid')) := by
  have hf := sliceAt_injOn hpos (T.dvd_size_of_divides hn hsize (T.divides_of_ok hshape h).1)
  have hsubset : ∀ pid, (groupOf (T.numbers dim) pid : Set ℕ) ⊆ {k | k < n} :=
    fun pid k hk => T.groupOf_numbers_lt hn hk
  rw [T.addressed_eq hn hshape hsize h, T.addressed_eq hn hshape hsize h]
  refine ⟨Finset.card_image_of_injOn (hf.mono (hsubset pid)), ?_, fun hd => ?_⟩
  · rw [← Finset.coe_inj, Finset.coe_image, Finset.coe_image,
      hf.image_eq_image_iff (hsubset pid) (hsubset pid'), Finset.coe_inj]
  · rw [Finset.disjoint_left]
    intro sl hsl hsl'
    obtain ⟨k, hk, rfl⟩ := Finset.mem_image.mp hsl
    obtain ⟨k', hk', heq⟩ := Finset.mem_image.mp hsl'
    obtain rfl := hf (hsubset pid' hk') (hsubset pid hk) heq
    exact Finset.disjoint_left.mp hd hk hk'

/-- The size that a process has is that of its slices. -/
theorem numAddressableIndices_eq {pid local_dim : ℕ}
    (h : numAddressableIndices s pid dim shape = .ok local_dim) :
    n ∣ size ∧
      local_dim = size / n * ((groupOf (T.numbers dim) pid).image (sliceAt size n)).card := by
  rw [numAddressableIndices] at h
  obtain ⟨device_map, hmap, h⟩ := bind_ok.mp h
  obtain ⟨hdvd, hshards⟩ := T.divides_of_ok hshape (mapError_eq_ok hmap)
  obtain rfl := Except.ok.inj ((T.indices shape hdvd).symm.trans (mapError_eq_ok hmap))
  obtain ⟨slices, hslices, h⟩ := bind_ok.mp h
  obtain ⟨shards, hshards', h⟩ := bind_ok.mp h
  obtain rfl := Except.ok.inj (hshards.symm.trans (mapError_eq_ok hshards'))
  have hget : (List.zipWith (· / ·) shape T.parts)[dim]? = some (size / n) := by
    rw [List.getElem?_zipWith, hsize, hn]
  rw [hget] at h
  refine ⟨T.dvd_size_of_divides hn hsize hdvd, ?_⟩
  rw [List.filter_map] at hslices
  obtain rfl := Except.ok.inj ((T.mapM_sliceOf hn hsize fun e he =>
    (List.of_mem_zip (List.mem_filter.mp he).1).2).symm.trans hslices)
  rw [← Except.ok.inj h, ← groupOf_map, groupOf, numbers, List.filter_map, List.filter_map]
  rfl

end Tiling

/-! ## The distribution -/

theorem Shares.consistent {order : SetOrder (Finset Slice)} {s : TensorSharding}
    {ndims dim n count : ℕ} {index : ℕ → ℕ} (T : Tiling s ndims) (hn : T.parts[dim]? = some n)
    (h : Shares (T.numbers dim) n count index)
    (hreturns : ∀ pid ∈ s.processes,
      getProcessIndexAndCount order s pid dim ndims = .ok (index pid, count)) :
    Consistent order s ndims dim count index := by
  obtain ⟨hcovers, hsame, hdisjoint, htotal⟩ := h
  rw [T.keys_numbers] at hcovers hsame hdisjoint htotal
  have hsize : ∀ {shape : List ℕ}, shape.length = ndims →
      shape[dim]? = some (shape.getD dim 0) := by
    intro shape hshape
    have hlt : dim < shape.length := hshape ▸ T.dim_lt hn
    rw [List.getD_eq_getElem _ _ hlt, List.getElem?_eq_getElem hlt]
  refine ⟨hreturns, hcovers, fun shape device_map hshape hpos hmap pid hpid pid' hpid' => ?_,
    fun shape device_map hshape hpos hmap pid hpid pid' hpid' => ?_⟩
  · obtain ⟨-, hiff, -⟩ := T.addressed_spec hn hshape (hsize hshape) hpos hmap pid pid'
    rw [hiff, hsame pid hpid pid' hpid']
  · obtain ⟨hcard, hiff, hd⟩ := T.addressed_spec hn hshape (hsize hshape) hpos hmap pid pid'
    obtain ⟨hcard', -⟩ := T.addressed_spec hn hshape (hsize hshape) hpos hmap pid' pid
    have hcount : 0 < count := Nat.zero_lt_of_lt ((hcovers _).mpr ⟨pid, hpid, rfl⟩)
    refine ⟨?_, fun hne => hd (hdisjoint pid hpid pid' hpid' (hiff.not.mp hne))⟩
    rw [hcard, hcard']
    exact Nat.eq_of_mul_eq_mul_left hcount ((htotal pid hpid).trans (htotal pid' hpid').symm)

/-- The size that a process has, times the number of the sets, is the size of the whole. -/
theorem Shares.global {s : TensorSharding} {ndims dim n count size pid local_dim : ℕ}
    {index : ℕ → ℕ} {shape : List ℕ} (T : Tiling s ndims) (hn : T.parts[dim]? = some n)
    (h : Shares (T.numbers dim) n count index) (hpid : pid ∈ s.processes)
    (hshape : shape.length = ndims) (hsize : shape[dim]? = some size)
    (hlocal : numAddressableIndices s pid dim shape = .ok local_dim) :
    local_dim * count = size := by
  obtain ⟨hdvd, rfl⟩ := T.numAddressableIndices_eq hn hshape hsize hlocal
  rcases Nat.eq_zero_or_pos size with rfl | hpos
  · rw [Nat.zero_div, Nat.zero_mul, Nat.zero_mul]
  · have hcard : ((groupOf (T.numbers dim) pid).image (sliceAt size n)).card =
        (groupOf (T.numbers dim) pid).card :=
      Finset.card_image_of_injOn
        ((sliceAt_injOn hpos hdvd).mono fun k hk => T.groupOf_numbers_lt hn hk)
    rw [hcard, Nat.mul_assoc, Nat.mul_comm _ count, h.total pid ((T.keys_numbers dim).symm ▸ hpid),
      Nat.div_mul_cancel hdvd]

/-- `get_process_index_and_count` distributes every dimension in the same way in every process, and
`local_to_global_shape` finds the sizes of the whole. -/
theorem getProcessIndexAndCount_consistent (order : SetOrder (Finset Slice)) {s : TensorSharding}
    {ndims replicas : ℕ} {hlo : HloSharding} {parts : List ℕ}
    (h : Assigns s ndims hlo parts replicas) :
    (∀ dim < ndims,
      (∀ pid ∈ s.processes, getProcessIndexAndCount order s pid dim ndims = .error .nonUniform) ∨
        ∃ n index, Consistent order s ndims dim n index) ∧
    ∀ pid ∈ s.processes, ∀ local_shape global_shape : List ℕ, local_shape.length = ndims →
      global_shape.length = ndims →
      (∀ i local_dim, local_shape[i]? = some local_dim →
        numAddressableIndices s pid i global_shape = .ok local_dim) →
      ∃ r, localToGlobalShape order s pid local_shape = .ok r ∧ r.length = ndims ∧
        ∀ i dim : ℕ, r[i]? = some (some dim) → global_shape[i]? = some dim := by
  obtain ⟨T⟩ := h.nonempty_tiling
  have hparts : ∀ dim < ndims, ∃ n, T.parts[dim]? = some n := by
    intro dim hdim
    rw [← T.length_parts] at hdim
    exact ⟨_, List.getElem?_eq_getElem hdim⟩
  refine ⟨fun dim hdim => ?_, fun pid hpid local_shape global_shape hlocal hglobal hsizes => ?_⟩
  · obtain ⟨n, hn⟩ := hparts dim hdim
    refine (T.raises_or_shares hn order).imp_right ?_
    rintro ⟨count, index, hreturns, hshares⟩
    exact ⟨count, index, hshares.consistent T hn hreturns⟩
  · -- a dimension is left out or has the size of the whole
    have hdims : ∀ i local_dim, local_shape[i]? = some local_dim →
        ∃ x, globalDim order s pid ndims i local_dim = .ok x ∧
          ∀ dim, x = some dim → global_shape[i]? = some dim := by
      intro i local_dim hi
      obtain ⟨hlt, -⟩ := List.getElem?_eq_some_iff.mp hi
      obtain ⟨n, hn⟩ := hparts i (hlocal ▸ hlt)
      have hsize : global_shape[i]? = some global_shape[i] :=
        List.getElem?_eq_getElem (by omega)
      rw [globalDim]
      rcases T.raises_or_shares hn order with hraise | ⟨count, index, hreturns, hshares⟩
      · rw [hraise pid hpid]
        exact ⟨none, rfl, fun dim hdim => by cases hdim⟩
      · rw [hreturns pid hpid]
        refine ⟨_, rfl, fun dim hdim => ?_⟩
        rw [← Option.some.inj hdim, hsize]
        exact congrArg some
          (hshares.global T hn hpid hglobal hsize (hsizes i local_dim hi)).symm
    have hitem : ∀ e ∈ local_shape.zipIdx, ∃ x, globalDim order s pid ndims e.2 e.1 = .ok x := by
      intro e he
      obtain ⟨x, hx, -⟩ := hdims e.2 e.1 (List.mem_zipIdx_iff_getElem?.mp he)
      exact ⟨x, hx⟩
    obtain ⟨r, hr⟩ := mapM_exists hitem
    have hall := mapM_ok hr
    have hlength : r.length = local_shape.length := by
      rw [← hall.length_eq, List.length_zipIdx]
    refine ⟨r, by rw [localToGlobalShape, hlocal, hr], hlength.trans hlocal, fun i dim hi => ?_⟩
    obtain ⟨hlt, hget⟩ := List.getElem?_eq_some_iff.mp hi
    have hlt' : i < local_shape.length := hlength ▸ hlt
    have hone := List.Forall₂.get hall (by rwa [List.length_zipIdx]) hlt
    rw [List.get_eq_getElem, List.getElem_zipIdx, List.get_eq_getElem, hget] at hone
    obtain ⟨x, hx, hdim⟩ := hdims i local_shape[i] (List.getElem?_eq_getElem hlt')
    rw [Nat.zero_add] at hone
    exact hdim dim (Except.ok.inj (hx.symm.trans hone))

/-- Eight devices of four processes; the rows and the columns are cut in two. -/
def gridSharding : TensorSharding :=
  gspmdSharding [⟨0, 0⟩, ⟨1, 0⟩, ⟨2, 1⟩, ⟨3, 1⟩, ⟨4, 2⟩, ⟨5, 2⟩, ⟨6, 3⟩, ⟨7, 3⟩]
    (.tiled [2, 2, 2] [0, 2, 1, 3, 4, 6, 5, 7] true [])

theorem gridSharding_assigns : Assigns gridSharding 2
    (.tiled [2, 2, 2] [0, 2, 1, 3, 4, 6, 5, 7] true []) [2, 2] 2 where
  convert := rfl
  pos := by decide
  devices := by
    rintro dims devices last types heq
    obtain ⟨rfl, rfl, rfl, rfl⟩ := HloSharding.tiled.inj heq
    exact ⟨by decide, rfl, rfl, rfl⟩
  unreduced := by decide
  replicated := by decide

def firstSeen : SetOrder (Finset Slice) := ⟨List.dedup, fun _ => .refl _⟩

/-- Each process has four of the eight rows and all columns. -/
theorem gridSharding_consistent :
    ((∀ pid ∈ gridSharding.processes,
        getProcessIndexAndCount firstSeen gridSharding pid 0 2 = .error .nonUniform) ∨
      ∃ n index, Consistent firstSeen gridSharding 2 0 n index) ∧
    ∃ r, localToGlobalShape firstSeen gridSharding 0 [4, 6] = .ok r ∧ r.length = 2 ∧
      ∀ i dim : ℕ, r[i]? = some (some dim) → [8, 6][i]? = some dim := by
  have h := getProcessIndexAndCount_consistent firstSeen gridSharding_assigns
  refine ⟨h.1 0 (by decide), h.2 0 (by decide) [4, 6] [8, 6] rfl rfl fun i local_dim hi => ?_⟩
  match i, hi with
  | 0, hi =>
      obtain rfl := Option.some.inj hi
      rfl
  | 1, hi =>
      obtain rfl := Option.some.inj hi
      rfl

end JaxDas.Sharding
