import JaxDas.ReentrantHash.Changes

/-!
# Rehash

The elements of a table, one by one, go into a fresh one. Its capacity is chosen so that
all of them fit, and one more.
-/

namespace JaxDas.ReentrantHash

variable {Key : Type} {W : ℕ} {hash : Key → ℕ} {eqv : Key → Key → Bool} {T T' : Table Key}

/-! ## A free slot -/

theorem findFree_ok {x : ℕ} : ∀ {fuel n idx : ℕ},
    (∀ m < n, T.groupEmptyOrDeleted W (probeAt W T.capacity x m) = none) →
    T.findFree W fuel (probeAt W T.capacity x n) (n * W) = some idx →
    ∃ n', TargetOk W T x n' (some idx)
  | 0, _, _, _, hs => nomatch hs
  | fuel + 1, n, idx, hbefore, hs => by
      rw [Table.findFree] at hs
      cases hg : T.groupEmptyOrDeleted W (probeAt W T.capacity x n) with
      | some o =>
          rw [hg] at hs
          exact ⟨n + 1, n, Nat.lt_succ_self n, hbefore, o, hg, (Option.some.inj hs).symm⟩
      | none =>
          rw [hg] at hs
          simp only at hs
          rw [probeAt_succ, show n * W + W = (n + 1) * W by ring] at hs
          refine findFree_ok ?_ hs
          intro m hm
          rcases Nat.lt_succ_iff_lt_or_eq.mp hm with hm | rfl
          · exact hbefore m hm
          · exact hg

theorem findFree_ends (hopen : Open W T) {x : ℕ} : ∀ {fuel n : ℕ},
    (∀ m < n, T.groupEmptyOrDeleted W (probeAt W T.capacity x m) = none) →
    T.capacity ≤ n + fuel →
    ∃ idx, T.findFree W fuel (probeAt W T.capacity x n) (n * W) = some idx
  | 0, n, hbefore, hfuel => by
      obtain ⟨N, hN, o, ho, hempty⟩ := hopen x
      have := groupEmptyOrDeleted_none (hbefore N (by omega)) o ho
      rw [hempty] at this
      exact nomatch this
  | fuel + 1, n, hbefore, hfuel => by
      rw [Table.findFree]
      cases hg : T.groupEmptyOrDeleted W (probeAt W T.capacity x n) with
      | some o => exact ⟨_, rfl⟩
      | none =>
          simp only
          rw [probeAt_succ, show n * W + W = (n + 1) * W by ring]
          refine findFree_ends hopen ?_ (by omega)
          intro m hm
          rcases Nat.lt_succ_iff_lt_or_eq.mp hm with hm | rfl
          · exact hbefore m hm
          · exact hg

/-! ## The loop over the old slots -/

/-- The elements of the old table in some of its slots. -/
def pending (old : Table Key) (l : List ℕ) : ℕ := l.countP fun i => (old.slots i).isSome

/-- What holds of the new table while the slots `l` of the old one are left. -/
structure Refilling (W : ℕ) (hash : Key → ℕ) (eqv : Key → Key → Bool) (old : Table Key)
    (l : List ℕ) (T : Table Key) : Prop where
  wf : WF W hash eqv T
  mirrored : Mirrored W T
  pos : 0 < T.capacity
  numDeleted : T.numDeleted = 0
  /-- There is room for what is left, and one more. -/
  room : Room T (1 + pending old l)
  apart : ∀ k, T.Has k → ∀ j ∈ l, ∀ k', old.slots j = some k' →
    eqv k k' = false ∧ eqv k' k = false

/-- The slot that the loop finds for an element. -/
theorem Refilling.free {old : Table Key} {l : List ℕ} (h : Refilling W hash eqv old l T)
    {fuel idx : ℕ} {key : Key}
    (hs : T.findFree W fuel (h1 (hash key) % T.capacity) 0 = some idx) :
    Free W T (hash key) idx := by
  obtain ⟨n, ht⟩ := findFree_ok (x := hash key) (n := 0)
    (fun m hm => absurd hm (Nat.not_lt_zero m)) (by rw [probeAt_zero, Nat.zero_mul]; exact hs)
  exact ht.free h.wf.shape h.wf.counts h.pos (h.wf.room h.pos)

theorem Refilling.skip {old : Table Key} {i : ℕ} {l : List ℕ}
    (h : Refilling W hash eqv old (i :: l) T) (hi : old.slots i = none) :
    Refilling W hash eqv old l T := by
  refine ⟨h.wf, h.mirrored, h.pos, h.numDeleted, ?_, fun k hk j hj => ?_⟩
  · have := h.room
    rwa [pending, List.countP_cons_of_neg (by rw [hi]; exact Bool.false_ne_true)] at this
  · exact h.apart k hk j (List.mem_cons_of_mem i hj)

theorem Refilling.place (hsymm : ∀ a b, eqv a b = eqv b a) {old : Table Key}
    (hold : WF W hash eqv old) {i : ℕ} {l : List ℕ} (hnodup : (i :: l).Nodup)
    (h : Refilling W hash eqv old (i :: l) T) {key : Key} (hi : old.slots i = some key) {idx : ℕ}
    (hf : Free W T (hash key) idx) :
    Refilling W hash eqv old l (T.place W idx (h2 (hash key)) key) := by
  have hw := wrote_place (W := W) T idx (h2 (hash key)) key
  have hpending : pending old (i :: l) = pending old l + 1 :=
    List.countP_cons_of_pos (by rw [hi]; rfl)
  have hroom := h.room
  rw [hpending] at hroom
  have hctrl : T.ctrl idx ≠ .deleted := by
    intro hd
    have hmem : idx ∈ T.tombs := Finset.mem_filter.mpr ⟨Finset.mem_range.mpr hf.lt, hd⟩
    have := h.wf.counts.numDeleted
    rw [h.numDeleted] at this
    exact absurd (Finset.card_pos.mpr ⟨idx, hmem⟩) (by omega)
  have hdel : (T.place W idx (h2 (hash key)) key).numDeleted = T.numDeleted := by
    rw [Table.place, Table.setCtrlMirrored]
    split <;> rfl
  have hsize : (T.place W idx (h2 (hash key)) key).size = T.size + 1 := rfl
  refine ⟨?_, h.mirrored.wrote hw hf.lt, ?_, hdel.trans h.numDeleted, ?_, ?_⟩
  · refine h.wf.stores hf hw ?_ hsize (by rw [hdel, if_neg hctrl]) fun k hk => ?_
    · have := hroom.1
      exact ⟨by omega, fun h16 => by have := hroom.2 h16; omega⟩
    · exact h.apart k hk i List.mem_cons_self key hi
  · rw [hw.capacity]
    exact h.pos
  · rw [Room, hw.capacity, hdel, hsize]
    have := hroom.1
    exact ⟨by omega, fun h16 => by have := hroom.2 h16; omega⟩
  · intro k hk j hj k' hk'
    rcases (hw.has_some h.wf.shape hf k).mp hk with hk | rfl
    · exact h.apart k hk j (List.mem_cons_of_mem i hj) k' hk'
    · have hne : eqv k k' = false := by
        by_contra he
        rw [Bool.not_eq_false] at he
        have hij := hold.distinct i j k k' hi hk' he
        exact (List.nodup_cons.mp hnodup).1 (hij ▸ hj)
      exact ⟨hne, hsymm k' k ▸ hne⟩

/-- What the loop leaves. -/
structure Refilled (W : ℕ) (hash : Key → ℕ) (eqv : Key → Key → Bool) (old : Table Key)
    (l : List ℕ) (T T' : Table Key) : Prop where
  done : Refilling W hash eqv old [] T'
  capacity : T'.capacity = T.capacity
  version : T'.version = T.version
  size : T'.size = T.size + pending old l
  has : ∀ k, T'.Has k ↔ T.Has k ∨ ∃ i ∈ l, old.slots i = some k

theorem place_version (T : Table Key) (idx b : ℕ) (key : Key) :
    (T.place W idx b key).version = T.version := by
  rw [Table.place, Table.setCtrlMirrored]
  split <;> rfl

section Loop

variable (hsymm : ∀ a b, eqv a b = eqv b a) {old : Table Key} (hold : WF W hash eqv old)

include hsymm hold

theorem rehashLoop_ok {fuel : ℕ} : ∀ {l : List ℕ} {T T' : Table Key}, l.Nodup →
    (∀ i ∈ l, i < old.capacity) → Refilling W hash eqv old l T →
    old.rehashLoop W hash fuel l T = some T' → Refilled W hash eqv old l T T'
  | [], T, T', _, _, h, hs => by
      obtain rfl := Option.some.inj hs
      exact ⟨h, rfl, rfl, rfl, fun k => (or_iff_left fun ⟨i, hi, _⟩ =>
        absurd hi List.not_mem_nil).symm⟩
  | i :: l, T, T', hnodup, hlt, h, hs => by
      rw [Table.rehashLoop] at hs
      have hi := hlt i List.mem_cons_self
      have hrest := fun j hj => hlt j (List.mem_cons_of_mem i hj)
      cases hslot : old.slots i with
      | none =>
          have hctrl : ∀ b, old.ctrl i ≠ .full b := by
            intro b hb
            obtain ⟨k, hk, -⟩ := (hold.shape.full_iff i hi b).mp hb
            rw [hslot] at hk
            exact nomatch hk
          have hs' : old.rehashLoop W hash fuel l T = some T' := by
            cases hc : old.ctrl i with
            | full b => exact absurd hc (hctrl b)
            | _ => rw [hc] at hs; exact hs
          have ih := rehashLoop_ok (List.nodup_cons.mp hnodup).2 hrest (h.skip hslot) hs'
          refine ⟨ih.done, ih.capacity, ih.version, ?_, fun k => (ih.has k).trans ?_⟩
          · rw [ih.size, pending, pending, List.countP_cons_of_neg]
            rw [hslot]
            exact Bool.false_ne_true
          · simp [hslot]
      | some key =>
          have hctrl : old.ctrl i = .full (h2 (hash key)) :=
            (hold.shape.full_iff i hi _).mpr ⟨key, hslot, rfl⟩
          rw [hctrl, hslot] at hs
          simp only at hs
          cases hfree : T.findFree W fuel (h1 (hash key) % T.capacity) 0 with
          | none => rw [hfree] at hs; exact nomatch hs
          | some idx =>
              rw [hfree] at hs
              have hf := h.free hfree
              have hw := wrote_place (W := W) T idx (h2 (hash key)) key
              have ih := rehashLoop_ok (List.nodup_cons.mp hnodup).2 hrest
                (h.place hsymm hold hnodup hslot hf) hs
              refine ⟨ih.done, ih.capacity.trans hw.capacity, ?_, ?_, fun k => (ih.has k).trans ?_⟩
              · rw [ih.version, place_version]
              · have hsize : (T.place W idx (h2 (hash key)) key).size = T.size + 1 := rfl
                have hpending : pending old (i :: l) = pending old l + 1 :=
                  List.countP_cons_of_pos (by rw [hslot]; rfl)
                rw [ih.size, hsize, hpending]
                omega
              · rw [hw.has_some h.wf.shape hf k, or_assoc]
                refine or_congr_right ?_
                simp only [List.exists_mem_cons_iff, hslot, Option.some.injEq, eq_comm]

/-- The loop ends. -/
theorem rehashLoop_ends {fuel : ℕ} : ∀ {l : List ℕ} {T : Table Key}, l.Nodup →
    (∀ i ∈ l, i < old.capacity) → Refilling W hash eqv old l T → T.capacity ≤ fuel →
    ∃ T', old.rehashLoop W hash fuel l T = some T'
  | [], T, _, _, _, _ => ⟨T, rfl⟩
  | i :: l, T, hnodup, hlt, h, hfuel => by
      rw [Table.rehashLoop]
      have hi := hlt i List.mem_cons_self
      have hrest := fun j hj => hlt j (List.mem_cons_of_mem i hj)
      cases hslot : old.slots i with
      | none =>
          have ih := rehashLoop_ends (List.nodup_cons.mp hnodup).2 hrest (h.skip hslot) hfuel
          cases hc : old.ctrl i with
          | full b =>
              obtain ⟨k, hk, -⟩ := (hold.shape.full_iff i hi b).mp hc
              rw [hslot] at hk
              exact nomatch hk
          | _ => exact ih
      | some key =>
          have hctrl : old.ctrl i = .full (h2 (hash key)) :=
            (hold.shape.full_iff i hi _).mpr ⟨key, hslot, rfl⟩
          have hopen := h.wf.open (.inl h.mirrored) h.pos
          obtain ⟨idx, hidx⟩ := findFree_ends hopen (x := hash key) (n := 0)
            (fun m hm => absurd hm (Nat.not_lt_zero m)) (show T.capacity ≤ 0 + fuel by omega)
          rw [probeAt_zero, Nat.zero_mul] at hidx
          have hf := h.free hidx
          have hw := wrote_place (W := W) T idx (h2 (hash key)) key
          simp only [hctrl, hidx]
          exact rehashLoop_ends (List.nodup_cons.mp hnodup).2 hrest
            (h.place hsymm hold hnodup hslot hf) (hw.capacity ▸ hfuel)

end Loop

/-! ## The whole of it -/

theorem pending_range (h : Counts T) : pending T (List.range T.capacity) = T.size := by
  have hstored : T.stored.card
      = ((List.range T.capacity).filter fun i => decide ((T.slots i).isSome = true)).length := rfl
  rw [h.size, hstored, pending, List.countP_eq_length_filter]
  simp only [Bool.decide_eq_true]

theorem not_has_reset (T : Table Key) (capacity : ℕ) (k : Key) : ¬ (T.reset W capacity).Has k :=
  fun ⟨_, hi⟩ => nomatch hi

/-- The capacity that `insert` asks for and `Rehash` makes at least 8. -/
def Table.grown (T : Table Key) : ℕ := if T.newCapacity < 8 then 8 else T.newCapacity

/-- It is a power of two, with room for all elements and one more. -/
theorem grown_ok (hW : W = 8 ∨ W = 16) (h : WF W hash eqv T) :
    Sizes W T.grown ∧ T.size + 1 < T.grown ∧ (16 ≤ T.grown → T.size + 3 ≤ T.grown) := by
  rcases Nat.eq_zero_or_pos T.capacity with h0 | hpos
  · have hsize : T.size = 0 := by
      rw [h.counts.size, Table.stored, h0]
      rfl
    have hgrown : T.grown = 8 := by
      rw [Table.grown, Table.newCapacity, h0, hsize]
      rfl
    rw [hgrown, hsize]
    exact ⟨⟨hW, 3, Nat.le_refl 3, rfl⟩, by omega, fun _ => by omega⟩
  · have hsizes := h.shape.sizes hpos
    have h8 := hsizes.eight_le
    obtain ⟨k, hk, hcap⟩ := hsizes.capacity
    have hroom := (h.room hpos).1
    have hgrown : T.grown = T.newCapacity := by
      rw [Table.grown, if_neg]
      rw [Table.newCapacity]
      split <;> (try split) <;> omega
    rw [hgrown, Table.newCapacity]
    by_cases hhalf : T.capacity / 2 ≤ T.size
    · rw [if_pos hhalf]
      refine ⟨⟨hW, k + 1, by omega, by rw [hcap, Nat.pow_succ]⟩, by omega, fun _ => by omega⟩
    · rw [if_neg hhalf, if_neg (by omega)]
      exact ⟨hsizes, by omega, fun h16 => by omega⟩

section Rehash

variable (hW : W = 8 ∨ W = 16) (hsymm : ∀ a b, eqv a b = eqv b a) (h : WF W hash eqv T)

include hW h

theorem refilling_reset :
    Refilling W hash eqv T (List.range T.capacity) (T.reset W T.grown) := by
  obtain ⟨hsizes, hlt, hle⟩ := grown_ok hW h
  refine ⟨wf_reset hW T fun _ => hsizes, mirrored_reset T _, ?_, rfl, ?_, ?_⟩
  · have := hsizes.eight_le
    change 0 < T.grown
    omega
  · rw [pending_range h.counts]
    change 0 + 0 + (1 + T.size) < T.grown ∧ (16 ≤ T.grown → 0 + 0 + (1 + T.size) + 2 ≤ T.grown)
    exact ⟨by omega, fun h16 => by have := hle h16; omega⟩
  · exact fun k hk => absurd hk (not_has_reset T _ k)

include hsymm

/-- What a `Rehash` that `insert` asks for leaves. -/
theorem rehash_ok {fuel : ℕ} (hs : T.rehash W hash fuel T.newCapacity = some T') :
    WF W hash eqv T' ∧ Mirrored W T' ∧ T'.capacity = T.grown ∧ 0 < T'.capacity ∧ Room T' 1 ∧
      T.version < T'.version ∧ T'.size = T.size ∧ ∀ k, T'.Has k ↔ T.Has k := by
  have hr := rehashLoop_ok hsymm h List.nodup_range (fun i hi => List.mem_range.mp hi)
    (refilling_reset hW h) hs
  have hroom := hr.done.room
  refine ⟨hr.done.wf, hr.done.mirrored, hr.capacity, hr.done.pos, hroom, ?_, ?_, ?_⟩
  · rw [hr.version]
    exact Nat.lt_succ_self _
  · rw [hr.size, pending_range h.counts]
    exact Nat.zero_add _
  · intro k
    rw [hr.has k, or_iff_right (not_has_reset T _ k)]
    constructor
    · exact fun ⟨i, _, hi⟩ => ⟨i, hi⟩
    · exact fun ⟨i, hi⟩ => ⟨i, List.mem_range.mpr (h.shape.lt_capacity hi), hi⟩

theorem rehash_ends {fuel : ℕ} (hfuel : T.grown ≤ fuel) :
    ∃ T', T.rehash W hash fuel T.newCapacity = some T' :=
  rehashLoop_ends hsymm h List.nodup_range (fun _ hi => List.mem_range.mp hi)
    (refilling_reset hW h) hfuel

end Rehash

end JaxDas.ReentrantHash
