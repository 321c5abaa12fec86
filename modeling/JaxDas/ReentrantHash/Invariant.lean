import JaxDas.ReentrantHash.Probing

/-!
# What holds of a table

`Shape` is what the arrays of a table have to do with each other. `clear` writes the
sentinel over the byte that mirrors slot 0, so that byte may hide that slot 0 is empty;
`Mirrored` says that it does not. A table with an empty slot besides slot 0, or with
groups that reach beyond all mirrored bytes, shows an empty byte to every probe even so.
-/

namespace JaxDas.ReentrantHash

variable {Key : Type} {W : ℕ} {hash : Key → ℕ} {eqv : Key → Key → Bool}

/-! ## The invariant -/

/-- The arrays fit together. -/
structure Shape (W : ℕ) (hash : Key → ℕ) (T : Table Key) : Prop where
  sizes : 0 < T.capacity → Sizes W T.capacity
  /-- A mirrored byte is that of its slot, or the sentinel in front of an empty slot 0. -/
  mirror : ∀ i, i < T.capacity → i < W →
    T.ctrl (i + T.capacity) = T.ctrl i ∨
      (i = 0 ∧ T.ctrl T.capacity = .sentinel ∧ T.ctrl 0 = .empty)
  /-- Bytes behind the mirrored ones are empty. -/
  pad : ∀ p, 2 * T.capacity ≤ p → p < T.capacity + W → T.ctrl p = .empty
  noSentinel : ∀ i, i < T.capacity → T.ctrl i ≠ .sentinel
  full_iff : ∀ i, i < T.capacity → ∀ b,
    T.ctrl i = .full b ↔ ∃ k, T.slots i = some k ∧ h2 (hash k) = b
  beyond : ∀ i, T.capacity ≤ i → T.slots i = none

/-- The first group is repeated at the end. -/
def Mirrored (W : ℕ) (T : Table Key) : Prop :=
  ∀ i, i < T.capacity → i < W → T.ctrl (i + T.capacity) = T.ctrl i

/-- The slots with an element. -/
def Table.stored (T : Table Key) : Finset ℕ :=
  (Finset.range T.capacity).filter fun i => (T.slots i).isSome

/-- The slots of erased elements. -/
def Table.tombs (T : Table Key) : Finset ℕ :=
  (Finset.range T.capacity).filter fun i => T.ctrl i = .deleted

structure Counts (T : Table Key) : Prop where
  size : T.size = T.stored.card
  numDeleted : T.numDeleted = T.tombs.card

/-- There is room for `x` more elements, with one empty slot left, and two in all tables
but the smallest. -/
def Room (T : Table Key) (x : ℕ) : Prop :=
  T.size + T.numDeleted + x < T.capacity ∧
    (16 ≤ T.capacity → T.size + T.numDeleted + x + 2 ≤ T.capacity)

/-- The probe for a key gets to the slot: no group before shows an empty byte. -/
def Reaches (W : ℕ) (T : Table Key) (hash i : ℕ) : Prop :=
  ∃ n, (∃ o < W, Shows W T.capacity (probeAt W T.capacity hash n + o) i) ∧
    ∀ m < n, ∀ o < W, T.ctrl (probeAt W T.capacity hash m + o) ≠ .empty

/-- What every operation keeps. -/
structure WF (W : ℕ) (hash : Key → ℕ) (eqv : Key → Key → Bool) (T : Table Key) : Prop where
  shape : Shape W hash T
  counts : Counts T
  room : 0 < T.capacity → Room T 0
  reach : ∀ i k, T.slots i = some k → Reaches W T (hash k) i
  distinct : ∀ i j a b, T.slots i = some a → T.slots j = some b → eqv a b = true → i = j

/-- Every probe sees an empty byte. -/
def Open (W : ℕ) (T : Table Key) : Prop :=
  ∀ hash, ∃ n < T.capacity, ∃ o < W, T.ctrl (probeAt W T.capacity hash n + o) = .empty

/-! ## Reading a group -/

section Reading

variable {T : Table Key}

theorem Shape.lt_capacity (h : Shape W hash T) {i : ℕ} {k : Key} (hk : T.slots i = some k) :
    i < T.capacity := by
  by_contra hi
  rw [h.beyond i (by omega)] at hk
  exact nomatch hk

/-- A byte that shows a slot is its byte, except where the sentinel hides slot 0. -/
theorem Shape.ctrl_of_shows (h : Shape W hash T) {p i : ℕ} (hs : Shows W T.capacity p i)
    (hi : i < T.capacity) : T.ctrl p = T.ctrl i ∨
      (i = 0 ∧ T.ctrl p = .sentinel ∧ T.ctrl 0 = .empty) := by
  rcases hs with rfl | ⟨hiW, rfl⟩
  · exact .inl rfl
  · rcases h.mirror i hi hiW with he | ⟨rfl, hsent, hempty⟩
    · exact .inl he
    · exact .inr ⟨rfl, by rwa [Nat.zero_add], hempty⟩

/-- Every byte of a group shows a slot or is behind the mirrored bytes, and empty. -/
theorem Shape.shows_or_pad (h : Shape W hash T) {s o : ℕ} (hs : s < T.capacity)
    (ho : o < W) : Shows W T.capacity (s + o) ((s + o) % T.capacity) ∨
      (2 * T.capacity ≤ s + o ∧ T.ctrl (s + o) = .empty) := by
  by_cases hp : s + o < 2 * T.capacity
  · exact .inl (shows_mod hs ho hp)
  · exact .inr ⟨by omega, h.pad _ (by omega) (by omega)⟩

/-- Where the code sees a full byte there is an element with this `H2`. -/
theorem Shape.slot_of_full (h : Shape W hash T) (hpos : 0 < T.capacity) {s o b : ℕ}
    (hs : s < T.capacity) (ho : o < W) (hb : T.ctrl (s + o) = .full b) :
    ∃ k, T.slots ((s + o) % T.capacity) = some k ∧ h2 (hash k) = b := by
  have hmod : (s + o) % T.capacity < T.capacity := Nat.mod_lt _ hpos
  rcases h.shows_or_pad hs ho with hshow | ⟨-, hempty⟩
  · rcases h.ctrl_of_shows hshow hmod with he | ⟨-, hsent, -⟩
    · exact (h.full_iff _ hmod b).mp (he ▸ hb)
    · rw [hsent] at hb
      exact nomatch hb
  · rw [hempty] at hb
    exact nomatch hb

/-- Where an element is shown its `H2` is seen. -/
theorem Shape.full_of_shows (h : Shape W hash T) {p i : ℕ} {k : Key} (hk : T.slots i = some k)
    (hs : Shows W T.capacity p i) : T.ctrl p = .full (h2 (hash k)) := by
  have hi := h.lt_capacity hk
  have hfull : T.ctrl i = .full (h2 (hash k)) := (h.full_iff i hi _).mpr ⟨k, hk, rfl⟩
  rcases h.ctrl_of_shows hs hi with he | ⟨rfl, -, hempty⟩
  · rw [he, hfull]
  · rw [hempty] at hfull
    exact nomatch hfull

/-- A slot that is no element and no tombstone is empty. -/
theorem Shape.empty_of_notMem (h : Shape W hash T) {i : ℕ} (hi : i < T.capacity)
    (hnot : i ∉ T.stored ∪ T.tombs) : T.ctrl i = .empty := by
  rw [Finset.mem_union, not_or, Table.stored, Table.tombs, Finset.mem_filter, Finset.mem_filter]
    at hnot
  cases hc : T.ctrl i with
  | empty => rfl
  | deleted => exact absurd ⟨Finset.mem_range.mpr hi, hc⟩ hnot.2
  | sentinel => exact absurd hc (h.noSentinel i hi)
  | full b =>
      obtain ⟨k, hk, -⟩ := (h.full_iff i hi b).mp hc
      exact absurd ⟨Finset.mem_range.mpr hi, hk ▸ rfl⟩ hnot.1

theorem stored_lt {i : ℕ} (h : i ∈ T.stored) : i < T.capacity :=
  Finset.mem_range.mp (Finset.mem_filter.mp h).1

theorem tombs_lt {i : ℕ} (h : i ∈ T.tombs) : i < T.capacity :=
  Finset.mem_range.mp (Finset.mem_filter.mp h).1

/-- There is an empty slot outside of any set that leaves room for one. -/
theorem Shape.exists_empty (h : Shape W hash T) (hc : Counts T) (s : Finset ℕ)
    (hroom : T.size + T.numDeleted + s.card < T.capacity) :
    ∃ i < T.capacity, i ∉ s ∧ T.ctrl i = .empty := by
  have hcard : ((T.stored ∪ T.tombs) ∪ s).card < (Finset.range T.capacity).card := by
    have hunion := Finset.card_union_le (T.stored ∪ T.tombs) s
    have hunion' := Finset.card_union_le T.stored T.tombs
    rw [Finset.card_range]
    have := hc.size
    have := hc.numDeleted
    omega
  obtain ⟨i, hi, hnot⟩ := Finset.exists_mem_notMem_of_card_lt_card hcard
  rw [Finset.mem_union, not_or] at hnot
  have hi := Finset.mem_range.mp hi
  exact ⟨i, hi, hnot.2, h.empty_of_notMem hi hnot.1⟩

/-- Every probe sees an empty byte, if nothing is hidden, there are two empty slots, or a
group of 16 reaches beyond the mirrored bytes of 8 slots. -/
theorem Shape.open (h : Shape W hash T) (hc : Counts T) (hpos : 0 < T.capacity) (hroom : Room T 0)
    (hseen : Mirrored W T ∨ 16 ≤ T.capacity ∨ W = 16) : Open W T := by
  intro x
  have hsizes := h.sizes hpos
  have h8 := hsizes.eight_le
  -- what is enough for an empty slot `e`
  have hsee : ∀ e < T.capacity, T.ctrl e = .empty →
      (e ≠ 0 ∨ T.ctrl T.capacity ≠ .sentinel) →
      ∃ n < T.capacity, ∃ o < W, T.ctrl (probeAt W T.capacity x n + o) = .empty := by
    intro e he hempty hclear
    obtain ⟨n, hn, o, ho, hshow⟩ := exists_shows hsizes x he
    refine ⟨n, hn, o, ho, ?_⟩
    rcases hshow with heq | ⟨heW, heq⟩
    · rw [heq, hempty]
    · rcases h.mirror e he heW with hm | ⟨rfl, hsent, -⟩
      · rw [heq, hm, hempty]
      · exact absurd hsent (hclear.resolve_left (· rfl))
  obtain ⟨e, he, -, hempty⟩ := h.exists_empty hc ∅ (by simpa using hroom.1)
  by_cases hhidden : e ≠ 0 ∨ T.ctrl T.capacity ≠ .sentinel
  · exact hsee e he hempty hhidden
  · obtain ⟨he0, hsent⟩ := not_or.mp hhidden
    rw [not_not] at he0 hsent
    subst he0
    rcases hseen with hm | h16 | h16
    · have := hm 0 he (by rcases hsizes.width with rfl | rfl <;> omega)
      rw [Nat.zero_add, hsent, hempty] at this
      exact nomatch this
    · have := hroom.2 h16
      obtain ⟨e, he, hne, hempty⟩ := h.exists_empty hc {0} (by rw [Finset.card_singleton]; omega)
      exact hsee e he hempty (.inl (by simpa using hne))
    · subst h16
      by_cases h16 : 16 ≤ T.capacity
      · have := hroom.2 h16
        obtain ⟨e, he, hne, hempty⟩ := h.exists_empty hc {0} (by rw [Finset.card_singleton]; omega)
        exact hsee e he hempty (.inl (by simpa using hne))
      · have hcap : T.capacity = 8 := by
          obtain ⟨k, hk, hk'⟩ := hsizes.capacity
          have : k < 4 := by
            by_contra hk4
            have := Nat.pow_le_pow_right (by omega : 0 < 2) (show 4 ≤ k by omega)
            omega
          obtain rfl : k = 3 := by omega
          exact hk'
        -- a group at position 0 shows slot 0 itself, any other one reaches byte 16
        have hlt := probeAt_lt hpos 16 x 0
        by_cases h0 : probeAt 16 T.capacity x 0 = 0
        · exact ⟨0, hpos, 0, by omega, by rw [h0]; exact hempty⟩
        · refine ⟨0, hpos, 16 - probeAt 16 T.capacity x 0, by omega, ?_⟩
          rw [show probeAt 16 T.capacity x 0 + (16 - probeAt 16 T.capacity x 0) = 16 by omega]
          exact h.pad 16 (by omega) (by omega)

end Reading

/-! ## Writing a slot -/

/-- `T'` is `T` with a control byte and a slot replaced. -/
structure Wrote (W : ℕ) (T T' : Table Key) (idx : ℕ) (c : Ctrl) (v : Option Key) : Prop where
  ctrl : ∀ p, T'.ctrl p = if Shows W T.capacity p idx then c else T.ctrl p
  slots : ∀ i, T'.slots i = if i = idx then v else T.slots i
  capacity : T'.capacity = T.capacity

theorem setCtrlMirrored_ctrl (T : Table Key) (idx : ℕ) (c : Ctrl) (p : ℕ) :
    (T.setCtrlMirrored W idx c).ctrl p = if Shows W T.capacity p idx then c else T.ctrl p := by
  rw [Table.setCtrlMirrored]
  unfold Shows
  by_cases hW : idx < W
  · rw [if_pos hW]
    by_cases hp : p = idx + T.capacity
    · simp [hp, hW]
    · by_cases hi : p = idx <;> simp [Function.update_apply, hp, hi]
  · rw [if_neg hW]
    by_cases hi : p = idx <;> simp [hi, hW]

theorem setCtrlMirrored_capacity (T : Table Key) (idx : ℕ) (c : Ctrl) :
    (T.setCtrlMirrored W idx c).capacity = T.capacity := by
  rw [Table.setCtrlMirrored]
  split <;> rfl

theorem wrote_place (T : Table Key) (idx b : ℕ) (key : Key) :
    Wrote W T (T.place W idx b key) idx (.full b) (some key) where
  ctrl := setCtrlMirrored_ctrl T idx _
  slots i := Function.update_apply T.slots idx _ i
  capacity := setCtrlMirrored_capacity T idx _

theorem wrote_add (T : Table Key) (idx b : ℕ) (key : Key) :
    Wrote W T (T.add W idx b key) idx (.full b) (some key) where
  ctrl := setCtrlMirrored_ctrl T idx _
  slots i := Function.update_apply T.slots idx _ i
  capacity := setCtrlMirrored_capacity T idx _

/-- What `erase` does when its `CHECK`s pass. -/
theorem erase_eq_some {T T' : Table Key} {idx : ℕ} (h : T.erase W idx = some T') :
    idx < T.capacity ∧ (∃ b, T.ctrl idx = .full b) ∧ Wrote W T T' idx .deleted none ∧
      T'.size = T.size - 1 ∧ T'.numDeleted = T.numDeleted + 1 ∧ T'.version = T.version + 1 := by
  rw [Table.erase] at h
  split at h
  · rename_i hidx
    cases hc : T.ctrl idx with
    | full b =>
        rw [hc] at h
        obtain rfl := Option.some.inj h
        exact ⟨hidx, ⟨b, rfl⟩, ⟨setCtrlMirrored_ctrl T idx _,
          fun i => Function.update_apply T.slots idx _ i, setCtrlMirrored_capacity T idx _⟩,
          rfl, rfl, rfl⟩
    | _ => rw [hc] at h; exact nomatch h
  · exact nomatch h

section Writing

variable {T T' : Table Key} {idx : ℕ} {c : Ctrl} {v : Option Key}

theorem shows_slot_iff {capacity i j : ℕ} (hi : i < capacity) : Shows W capacity i j ↔ i = j :=
  or_iff_left fun h => by omega

theorem shows_mirror_iff {capacity i j : ℕ} (hi : i < W) (hj : j < capacity) :
    Shows W capacity (i + capacity) j ↔ i = j := by
  constructor
  · rintro (h | ⟨-, h⟩) <;> omega
  · rintro rfl
    exact .inr ⟨hi, rfl⟩

theorem Shape.wrote (h : Shape W hash T) (hw : Wrote W T T' idx c v) (hidx : idx < T.capacity)
    (hsent : c ≠ .sentinel)
    (hfull : ∀ b, c = .full b ↔ ∃ k, v = some k ∧ h2 (hash k) = b) : Shape W hash T' where
  sizes hpos := by
    rw [hw.capacity] at hpos ⊢
    exact h.sizes hpos
  mirror i hi hiW := by
    rw [hw.capacity] at hi ⊢
    simp only [hw.ctrl, shows_slot_iff hi, shows_mirror_iff hiW hidx]
    by_cases hne : i = idx
    · exact .inl (by rw [if_pos hne, if_pos hne])
    · rw [if_neg hne, if_neg hne]
      rcases h.mirror i hi hiW with he | ⟨rfl, hs, he⟩
      · exact .inl he
      · refine .inr ⟨rfl, ?_, ?_⟩
        · rw [if_neg, hs]
          rintro (heq | ⟨-, heq⟩) <;> omega
        · rw [if_neg, he]
          rintro (heq | ⟨-, heq⟩) <;> omega
  pad p hp hp' := by
    rw [hw.capacity] at hp hp'
    rw [hw.ctrl, if_neg, h.pad p hp hp']
    rintro (heq | ⟨-, heq⟩) <;> omega
  noSentinel i hi := by
    rw [hw.capacity] at hi
    rw [hw.ctrl]
    split
    · exact hsent
    · exact h.noSentinel i hi
  full_iff i hi b := by
    rw [hw.capacity] at hi
    rw [hw.ctrl, hw.slots]
    simp only [shows_slot_iff hi]
    by_cases hne : i = idx
    · rw [if_pos hne, if_pos hne]
      exact hfull b
    · rw [if_neg hne, if_neg hne]
      exact h.full_iff i hi b
  beyond i hi := by
    rw [hw.capacity] at hi
    rw [hw.slots, if_neg (by omega)]
    exact h.beyond i hi

theorem Mirrored.wrote (h : Mirrored W T) (hw : Wrote W T T' idx c v) (hidx : idx < T.capacity) :
    Mirrored W T' := by
  intro i hi hiW
  rw [hw.capacity] at hi ⊢
  simp only [hw.ctrl, shows_slot_iff hi, shows_mirror_iff hiW hidx]
  rw [h i hi hiW]

/-- Nothing that was not empty becomes empty, so what was reached still is. -/
theorem Reaches.wrote {x i : ℕ} (h : Reaches W T x i) (hw : Wrote W T T' idx c v)
    (hempty : c ≠ .empty) : Reaches W T' x i := by
  obtain ⟨n, hshow, hbefore⟩ := h
  refine ⟨n, by rwa [hw.capacity], ?_⟩
  intro m hm o ho
  rw [hw.capacity, hw.ctrl]
  split
  · exact hempty
  · exact hbefore m hm o ho

theorem Wrote.stored_some (hw : Wrote W T T' idx c v) (hidx : idx < T.capacity) {k : Key}
    (hv : v = some k) : T'.stored = insert idx T.stored := by
  ext i
  simp only [Table.stored, Finset.mem_filter, Finset.mem_range, Finset.mem_insert, hw.capacity,
    hw.slots, hv]
  by_cases hi : i = idx
  · simp [hi, hidx]
  · simp [hi]

theorem Wrote.stored_none (hw : Wrote W T T' idx c v) (hv : v = none) :
    T'.stored = T.stored.erase idx := by
  ext i
  simp only [Table.stored, Finset.mem_filter, Finset.mem_range, Finset.mem_erase, hw.capacity,
    hw.slots, hv]
  by_cases hi : i = idx <;> simp [hi]

theorem Wrote.tombs_deleted (hw : Wrote W T T' idx c v) (hidx : idx < T.capacity)
    (hc : c = .deleted) : T'.tombs = insert idx T.tombs := by
  ext i
  simp only [Table.tombs, Finset.mem_filter, Finset.mem_range, Finset.mem_insert, hw.capacity,
    hw.ctrl, hc]
  by_cases hi : i = idx
  · simp [hi, hidx, Shows]
  · by_cases hlt : i < T.capacity
    · simp [hi, hlt, shows_slot_iff hlt]
    · simp [hi, hlt]

theorem Wrote.tombs_other (hw : Wrote W T T' idx c v) (hc : c ≠ .deleted) :
    T'.tombs = T.tombs.erase idx := by
  ext i
  simp only [Table.tombs, Finset.mem_filter, Finset.mem_range, Finset.mem_erase, hw.capacity,
    hw.ctrl]
  by_cases hlt : i < T.capacity
  · by_cases hi : i = idx
    · simp [hi, hc, Shows]
    · simp [hi, hlt, shows_slot_iff hlt]
  · simp [hlt]

/-- Elements of a table after a write: the new one, and those of the other slots. -/
theorem Wrote.distinct (hw : Wrote W T T' idx c v)
    (h : ∀ i j a b, T.slots i = some a → T.slots j = some b → eqv a b = true → i = j)
    (hnew : ∀ k, v = some k → ∀ i a, T.slots i = some a → eqv a k = false ∧ eqv k a = false) :
    ∀ i j a b, T'.slots i = some a → T'.slots j = some b → eqv a b = true → i = j := by
  intro i j a b hi hj hab
  rw [hw.slots] at hi hj
  by_cases hi' : i = idx
  · by_cases hj' : j = idx
    · rw [hi', hj']
    · rw [if_pos hi'] at hi
      rw [if_neg hj'] at hj
      rw [(hnew a hi j b hj).2] at hab
      exact nomatch hab
  · rw [if_neg hi'] at hi
    by_cases hj' : j = idx
    · rw [if_pos hj'] at hj
      rw [(hnew b hj i a hi).1] at hab
      exact nomatch hab
    · rw [if_neg hj'] at hj
      exact h i j a b hi hj hab

end Writing

end JaxDas.ReentrantHash
