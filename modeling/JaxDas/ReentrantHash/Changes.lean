import JaxDas.ReentrantHash.Search

/-!
# Operations that change the table

An element goes into a free slot of its probe, so it is found again; an erased one leaves a
tombstone, so that those behind it still are. The load is kept low enough for every probe to
end, whatever `float` makes of the sizes.
-/

namespace JaxDas.ReentrantHash

variable {Key : Type} {W : ℕ} {hash : Key → ℕ} {eqv : Key → Key → Bool} {T T' : Table Key}

/-- What `clear` may hide, other empty bytes make up for. -/
def Seen (W : ℕ) (T : Table Key) : Prop := Mirrored W T ∨ 16 ≤ T.capacity ∨ W = 16

/-- The elements of a table. -/
def Table.Has (T : Table Key) (k : Key) : Prop := ∃ i, T.slots i = some k

theorem WF.open (h : WF W hash eqv T) (hseen : Seen W T) (hpos : 0 < T.capacity) : Open W T :=
  h.shape.open h.counts hpos (h.room hpos) hseen

/-! ## Fresh tables -/

theorem stored_eq_empty (h : ∀ i, T.slots i = none) : T.stored = ∅ := by
  rw [Table.stored, Finset.filter_eq_empty_iff]
  intro i _
  rw [h i]
  exact Bool.false_ne_true

theorem tombs_eq_empty (h : ∀ i < T.capacity, T.ctrl i ≠ .deleted) : T.tombs = ∅ := by
  rw [Table.tombs, Finset.filter_eq_empty_iff]
  exact fun i hi => h i (Finset.mem_range.mp hi)

/-- A table without elements, with nothing but empty bytes in front of the mirrored ones. -/
theorem wf_blank (hsizes : 0 < T.capacity → Sizes W T.capacity)
    (hctrl : ∀ p < T.capacity + W, T.ctrl p = .empty ∨ (p = T.capacity ∧ T.ctrl p = .sentinel))
    (hcap : 0 < T.capacity ∨ T.ctrl 0 = .empty)
    (hslots : ∀ i, T.slots i = none) (hsize : T.size = 0) (hdel : T.numDeleted = 0) :
    WF W hash eqv T := by
  have hempty : ∀ p < T.capacity, T.ctrl p = .empty := by
    intro p hp
    rcases hctrl p (by omega) with he | ⟨rfl, -⟩
    · exact he
    · omega
  refine ⟨⟨hsizes, ?_, ?_, ?_, ?_, fun i _ => hslots i⟩, ⟨?_, ?_⟩, ?_, ?_, ?_⟩
  · intro i hi hiW
    rcases hctrl (i + T.capacity) (by omega) with he | ⟨heq, hs⟩
    · exact .inl (by rw [he, hempty i hi])
    · obtain rfl : i = 0 := by omega
      exact .inr ⟨rfl, by rwa [Nat.zero_add] at hs, hempty 0 hi⟩
  · intro p hp hpW
    rcases hctrl p hpW with he | ⟨rfl, -⟩
    · exact he
    · have h0 : T.capacity = 0 := by omega
      rcases hcap with hpos | he
      · omega
      · rw [h0]
        exact he
  · intro i hi
    rw [hempty i hi]
    exact Ctrl.noConfusion
  · intro i hi b
    rw [hempty i hi, hslots i]
    constructor
    · exact fun h => nomatch h
    · rintro ⟨k, hk, -⟩
      exact nomatch hk
  · rw [hsize, stored_eq_empty hslots, Finset.card_empty]
  · rw [hdel, tombs_eq_empty, Finset.card_empty]
    intro i hi
    rw [hempty i hi]
    exact Ctrl.noConfusion
  · intro hpos
    have := (hsizes hpos).eight_le
    refine ⟨?_, fun _ => ?_⟩ <;> omega
  · intro i k hk
    rw [hslots i] at hk
    exact nomatch hk
  · intro i j a b hi
    rw [hslots i] at hi
    exact nomatch hi

theorem reset_ctrl (T : Table Key) {capacity p : ℕ} (hp : p < capacity + W) :
    (T.reset W capacity).ctrl p = .empty := if_neg (by omega)

theorem wf_reset (hW : W = 8 ∨ W = 16) (T : Table Key) {capacity : ℕ}
    (h : 0 < capacity → Sizes W capacity) : WF W hash eqv (T.reset W capacity) := by
  refine wf_blank h ?_ ?_ (fun _ => rfl) rfl rfl
  · exact fun p hp => .inl (reset_ctrl T hp)
  · exact .inr (reset_ctrl T (by rcases hW with rfl | rfl <;> omega))

theorem mirrored_reset (T : Table Key) (capacity : ℕ) : Mirrored W (T.reset W capacity) := by
  intro i hi hiW
  have hi : i < capacity := hi
  rw [reset_ctrl T (show i < capacity + W by omega)]
  exact reset_ctrl T (show i + capacity < capacity + W by omega)

theorem wf_clear (h : WF W hash eqv T) : WF W hash eqv (T.clear W) := by
  by_cases h0 : T.capacity = 0
  · rwa [Table.clear, if_pos h0]
  · rw [Table.clear, if_neg h0]
    refine wf_blank h.shape.sizes ?_ (.inl (by change 0 < T.capacity; omega)) (fun _ => rfl) rfl rfl
    intro p hp
    have hp : p < T.capacity + W := hp
    change (if p = T.capacity then Ctrl.sentinel
      else if p < T.capacity + W then Ctrl.empty else T.ctrl p) = Ctrl.empty ∨ _
    by_cases hpc : p = T.capacity
    · exact .inr ⟨hpc, if_pos hpc⟩
    · exact .inl (by rw [if_neg hpc, if_pos hp])

/-! ## Slots -/

theorem Free.notMem_stored (h : Shape W hash T) {x idx : ℕ} (hf : Free W T x idx) :
    idx ∉ T.stored := by
  intro hmem
  rw [Table.stored, Finset.mem_filter] at hmem
  obtain ⟨k, hk⟩ := Option.isSome_iff_exists.mp hmem.2
  have hfull := (h.full_iff idx hf.lt _).mpr ⟨k, hk, rfl⟩
  have := hf.free
  rw [hfull] at this
  exact Bool.false_ne_true this

theorem Free.slot (h : Shape W hash T) {x idx : ℕ} (hf : Free W T x idx) :
    T.slots idx = none := by
  by_contra hne
  obtain ⟨k, hk⟩ := Option.ne_none_iff_exists'.mp hne
  refine hf.notMem_stored h ?_
  rw [Table.stored, Finset.mem_filter, Finset.mem_range, hk]
  exact ⟨hf.lt, rfl⟩

/-- An element put into a free slot of its probe. -/
theorem WF.stores (h : WF W hash eqv T) {idx : ℕ} {key : Key} (hf : Free W T (hash key) idx)
    (hw : Wrote W T T' idx (.full (h2 (hash key))) (some key)) (hroom : Room T 1)
    (hsize : T'.size = T.size + 1)
    (hdel : T'.numDeleted = if T.ctrl idx = .deleted then T.numDeleted - 1 else T.numDeleted)
    (hnew : ∀ k, T.Has k → eqv k key = false ∧ eqv key k = false) : WF W hash eqv T' := by
  refine ⟨?_, ⟨?_, ?_⟩, ?_, ?_, ?_⟩
  · refine h.shape.wrote hw hf.lt Ctrl.noConfusion ?_
    intro b
    constructor
    · rintro hb
      exact ⟨key, rfl, Ctrl.full.inj hb⟩
    · rintro ⟨k, hk, rfl⟩
      rw [Option.some.inj hk]
  · rw [hsize, hw.stored_some hf.lt rfl, Finset.card_insert_of_notMem (hf.notMem_stored h.shape),
      h.counts.size]
  · rw [hdel, hw.tombs_other Ctrl.noConfusion, h.counts.numDeleted]
    by_cases hd : T.ctrl idx = .deleted
    · rw [if_pos hd, Finset.card_erase_of_mem]
      exact Finset.mem_filter.mpr ⟨Finset.mem_range.mpr hf.lt, hd⟩
    · rw [if_neg hd, Finset.erase_eq_of_notMem]
      exact fun hmem => hd (Finset.mem_filter.mp hmem).2
  · intro _
    have hle : T'.numDeleted ≤ T.numDeleted := by
      rw [hdel]
      split <;> omega
    have := hroom.1
    refine ⟨by rw [hw.capacity]; omega, ?_⟩
    rw [hw.capacity]
    intro h16
    have := hroom.2 h16
    omega
  · intro i k hk
    rw [hw.slots] at hk
    by_cases hi : i = idx
    · rw [if_pos hi] at hk
      obtain rfl := Option.some.inj hk
      exact hi ▸ hf.reach.wrote hw Ctrl.noConfusion
    · rw [if_neg hi] at hk
      exact (h.reach i k hk).wrote hw Ctrl.noConfusion
  · refine hw.distinct h.distinct ?_
    rintro k hk i a ha
    obtain rfl := Option.some.inj hk
    exact hnew a ⟨i, ha⟩

/-- Where an element was put, the elements are those before and the new one. -/
theorem Wrote.has_some (h : Shape W hash T) {x idx : ℕ} {c : Ctrl} {key : Key}
    (hf : Free W T x idx) (hw : Wrote W T T' idx c (some key)) (k : Key) :
    T'.Has k ↔ T.Has k ∨ k = key := by
  constructor
  · rintro ⟨i, hi⟩
    rw [hw.slots] at hi
    by_cases hidx : i = idx
    · rw [if_pos hidx] at hi
      exact .inr (Option.some.inj hi).symm
    · rw [if_neg hidx] at hi
      exact .inl ⟨i, hi⟩
  · rintro (⟨i, hi⟩ | rfl)
    · refine ⟨i, ?_⟩
      rw [hw.slots, if_neg]
      · exact hi
      · rintro rfl
        rw [hf.slot h] at hi
        exact nomatch hi
    · exact ⟨idx, by rw [hw.slots, if_pos rfl]⟩

theorem wf_erase (h : WF W hash eqv T) {idx : ℕ} (he : T.erase W idx = some T') :
    WF W hash eqv T' := by
  obtain ⟨hidx, ⟨b, hb⟩, hw, hsize, hdel, -⟩ := erase_eq_some he
  obtain ⟨k, hk, -⟩ := (h.shape.full_iff idx hidx b).mp hb
  have hstored : idx ∈ T.stored := by
    rw [Table.stored, Finset.mem_filter, Finset.mem_range, hk]
    exact ⟨hidx, rfl⟩
  have hpos : 0 < T.size := by
    rw [h.counts.size]
    exact Finset.card_pos.mpr ⟨idx, hstored⟩
  refine ⟨?_, ⟨?_, ?_⟩, ?_, ?_, ?_⟩
  · refine h.shape.wrote hw hidx Ctrl.noConfusion ?_
    intro b
    constructor
    · exact fun h => Ctrl.noConfusion h
    · rintro ⟨k, hk, -⟩
      cases hk
  · rw [hsize, hw.stored_none rfl, Finset.card_erase_of_mem hstored, h.counts.size]
  · rw [hdel, hw.tombs_deleted hidx rfl, Finset.card_insert_of_notMem, h.counts.numDeleted]
    intro hmem
    have := (Finset.mem_filter.mp hmem).2
    rw [hb] at this
    cases this
  · rw [hw.capacity]
    intro hcap
    have := h.room hcap
    refine ⟨?_, fun h16 => ?_⟩
    · have := this.1
      rw [hw.capacity]
      omega
    · rw [hw.capacity] at h16 ⊢
      have := this.2 h16
      omega
  · intro i k hk
    rw [hw.slots] at hk
    by_cases hi : i = idx
    · rw [if_pos hi] at hk
      cases hk
    · rw [if_neg hi] at hk
      exact (h.reach i k hk).wrote hw Ctrl.noConfusion
  · refine hw.distinct h.distinct ?_
    intro k hk
    cases hk

/-! ## The load -/

/-- A `float` is off by at most one part in `2 ^ 24`. -/
theorem asFloat_ge (n : ℕ) : n * 16777215 ≤ asFloat n * 16777216 := by
  rw [asFloat]
  split
  · omega
  · rename_i hn
    have hn : 16777216 ≤ n := by simpa using hn
    have hlog : 24 ≤ Nat.log 2 n := Nat.le_log_of_pow_le (by omega) (by simpa using hn)
    have hpow := Nat.pow_log_le_self 2 (show n ≠ 0 by omega)
    have hunit : 2 ^ Nat.log 2 n = 8388608 * 2 ^ (Nat.log 2 n - 23) := by
      rw [show 8388608 = 2 ^ 23 from rfl, ← Nat.pow_add]
      congr 1
      omega
    generalize 2 ^ (Nat.log 2 n - 23) = unit at hunit
    have hpos : 0 < unit := by
      rcases Nat.eq_zero_or_pos unit with rfl | h
      · have := Nat.two_pow_pos (Nat.log 2 n)
        omega
      · exact h
    have hdiv := Nat.div_add_mod n unit
    have hmod := Nat.mod_lt n hpos
    have hcomm : n / unit * unit = unit * (n / unit) := Nat.mul_comm _ _
    have hsucc : (n / unit + 1) * unit = unit * (n / unit) + unit := by ring
    simp only
    split <;> omega

/-- A capacity is a `float`. -/
theorem asFloat_two_pow (k : ℕ) : asFloat (2 ^ k) = 2 ^ k := by
  rw [asFloat]
  split
  · rfl
  · rename_i hk
    have hk : 23 ≤ k := by
      by_contra hlt
      exact hk (Nat.pow_lt_pow_right (by omega) (by omega))
    have hdiv : 2 ^ (k - 23) ∣ 2 ^ k := Nat.pow_dvd_pow 2 (by omega)
    have hpos : 0 < 2 ^ (k - 23) := Nat.two_pow_pos _
    simp only [Nat.log_pow (by omega : 1 < 2), Nat.mod_eq_zero_of_dvd hdiv]
    rw [if_pos (.inl (by omega)), Nat.div_mul_cancel hdiv]

/-- Where `insert` does not rehash there is room. -/
theorem room_of_not_overloaded (hsizes : Sizes W T.capacity) (h : T.overloaded = false) :
    Room T 1 := by
  rw [Table.overloaded, Bool.or_eq_false_iff, decide_eq_false_iff_not] at h
  obtain ⟨k, hk, hcap⟩ := hsizes.capacity
  have hle := h.1
  have h8 := hsizes.eight_le
  rw [hcap, asFloat_two_pow, ← hcap] at hle
  have hge := asFloat_ge (T.size + T.numDeleted + 1)
  refine ⟨?_, fun h16 => ?_⟩ <;> omega

end JaxDas.ReentrantHash
