import JaxDas.WeakrefCache.Cache

/-!
# The three indexes of a cache agree

`Shape` is what the map, the heap and the reverse index say about each other at any
moment, also in the middle of a step. Between steps the state is `Settled`: the LRU list has
exactly the entries of the map, in order of last use.

In the middle of an eviction the two differ, and by what is said explicitly: an
entry can be linked without being mapped as long as it is still to be visited
(`evictEntries_ok`). The lookups by pointer are what makes this go through: they find
an entry that is mapped, and never another one in its place (`lookup_mapped`).
-/

namespace JaxDas.WeakrefCache

open IntrusiveList SlotTable

variable {Obj Def Call : Type}

/-- What map, heap and reverse index say about each other. -/
structure Shape (s : State Obj Def Call) : Prop where
  /-- A slot leads to an entry with the keys of the slot. -/
  slot : ∀ t ∈ s.entries, ∀ p ∈ t.2, ∃ c, s.heap p.2 = some c ∧ c.wrKey = t.1 ∧ c.key = p.1
  nodup : s.mapped.Nodup
  nonempty : ∀ t ∈ s.entries, t.2 ≠ []
  /-- Different slots of the first level hold different weakrefs. -/
  weak : (s.entries.map fun t => WeakKey.ids t.1).Nodup
  fresh : ∀ e, s.nextEntry ≤ e → s.heap e = none
  held : ∀ f ∈ s.frames, ∃ c, s.heap f.entry = some c
  made : ∀ e c, s.heap e = some c → ∀ r ∈ c.wrKey, r ∈ s.refs
  refs : ∀ r ∈ s.refs, r.id < s.nextRef
  refs_inj : ∀ r ∈ s.refs, ∀ r' ∈ s.refs, r.id = r'.id → r = r'
  /-- The reverse index has no dangling pointers, and only entries that hold the weakref. -/
  reverse : ∀ r, ∀ e ∈ s.reverseIndex r, ∃ c, s.heap e = some c ∧ r ∈ WeakKey.ids c.wrKey
  cleared : ∀ r, s.cleared r = true → r < s.nextRef

/-- No two slots under the same weak key have equal strong keys. -/
def Distinct (I : Interp Obj Def) (s : State Obj Def Call) : Prop :=
  ∀ t ∈ s.entries, t.2.Pairwise fun a b =>
    StrongKey.equal I a.1 b.1 = false ∧ StrongKey.equal I b.1 a.1 = false

/-- The reverse index has the mapped entries under all their weakrefs, but for `except`. -/
def Indexed (s : State Obj Def Call) (except : ℕ → Prop) : Prop :=
  ∀ e ∈ s.mapped, ∀ c, s.heap e = some c → ∀ r ∈ WeakKey.ids c.wrKey, ¬ except r →
    e ∈ s.reverseIndex r

/-- An entry that has not been destroyed is mapped, held by a call, or about to be released. -/
def Owned (s : State Obj Def Call) (deferred : List ℕ) : Prop :=
  ∀ e c, s.heap e = some c → e ∈ s.mapped ∨ s.Held e ∨ e ∈ deferred

/-- The LRU list is `is`, in order of last use. -/
structure Lru (s : State Obj Def Call) (is : List ℕ) : Prop where
  links : Represents s.links is
  size : s.lruSize = is.length
  order : is.Pairwise fun a b => s.lastUse b < s.lastUse a
  past : ∀ e ∈ is, s.lastUse e < s.clock

/-- A weakref of a mapped entry that has been cleared has its callback to come. -/
def Dying (s : State Obj Def Call) : Prop :=
  ∀ e ∈ s.mapped, ∀ c, s.heap e = some c → ∀ r ∈ WeakKey.ids c.wrKey, s.cleared r = true →
    r ∈ s.pending

/-- The indexes agree, with LRU list `is`; the entries `deferred` are about to be released. -/
structure Settled (I : Interp Obj Def) (s : State Obj Def Call) (is deferred : List ℕ) : Prop where
  shape : Shape s
  distinct : Distinct I s
  indexed : Indexed s fun _ => False
  owned : Owned s deferred
  lru : Lru s is
  listed : ∀ e, e ∈ is ↔ e ∈ s.mapped
  dying : Dying s

/--
The middle of an eviction. Entries of `todo` may be linked and no longer mapped, and
they include all that hold a weakref in `except`, which the reverse index no longer has.
-/
structure Evicting (I : Interp Obj Def) (s : State Obj Def Call) (except : ℕ → Prop)
    (todo deferred is : List ℕ) : Prop where
  shape : Shape s
  distinct : Distinct I s
  indexed : Indexed s except
  owned : Owned s deferred
  lru : Lru s is
  mapped : ∀ e ∈ s.mapped, e ∈ is
  linked : ∀ e ∈ is, e ∈ s.mapped ∨ e ∈ todo
  holders : ∀ e ∈ s.mapped, ∀ c, s.heap e = some c → ∀ r ∈ WeakKey.ids c.wrKey, except r → e ∈ todo
  live : ∀ e ∈ todo, ∃ c, s.heap e = some c
  dying : Dying s

/-! ## Parts of a state that do not matter -/

/-- `Shape` depends on some of the fields only. -/
theorem Shape.congr {s s' : State Obj Def Call} (h : Shape s) (hentries : s'.entries = s.entries)
    (hheap : s'.heap = s.heap) (hframes : s'.frames = s.frames)
    (hreverse : s'.reverseIndex = s.reverseIndex) (hrefs : s'.refs = s.refs)
    (hnextRef : s'.nextRef = s.nextRef) (hnextEntry : s'.nextEntry = s.nextEntry)
    (hcleared : s'.cleared = s.cleared) : Shape s' := by
  obtain ⟨h₁, h₂, h₃, h₄, h₅, h₆, h₇, h₈, h₉, h₁₀, h₁₁⟩ := h
  unfold State.mapped at h₂
  rw [← hentries] at h₁ h₂ h₃ h₄
  rw [← hheap] at h₁ h₅ h₆ h₇ h₁₀
  rw [← hframes] at h₆
  rw [← hreverse] at h₁₀
  rw [← hrefs] at h₇ h₈ h₉
  rw [← hnextRef] at h₈ h₁₁
  rw [← hnextEntry] at h₅
  rw [← hcleared] at h₁₁
  exact ⟨h₁, h₂, h₃, h₄, h₅, h₆, h₇, h₈, h₉, h₁₀, h₁₁⟩

section Unlink

variable {s : State Obj Def Call}

/-- Unlinking touches the list and its length only. -/
theorem unlinkIfLinked_fields (e : ℕ) :
    ∃ links size, s.unlinkIfLinked e = { s with links := links, lruSize := size } := by
  unfold State.unlinkIfLinked
  split
  · exact ⟨_, _, rfl⟩
  · exact ⟨s.links, s.lruSize, rfl⟩

theorem foldl_unlinkIfLinked_fields : ∀ (es : List ℕ) (s : State Obj Def Call),
    ∃ links size, es.foldl State.unlinkIfLinked s = { s with links := links, lruSize := size }
  | [], s => ⟨s.links, s.lruSize, rfl⟩
  | e :: es, s => by
      obtain ⟨l, n, h⟩ := unlinkIfLinked_fields (s := s) e
      rw [List.foldl_cons, h]
      obtain ⟨l', n', h'⟩ := foldl_unlinkIfLinked_fields es { s with links := l, lruSize := n }
      exact ⟨l', n', h'⟩

theorem Lru.unlinkIfLinked {is : List ℕ} (h : Lru s is) (e : ℕ) :
    Lru (s.unlinkIfLinked e) (is.erase e) := by
  unfold State.unlinkIfLinked
  by_cases he : e ∈ is
  · rw [if_pos ((h.links.isLinked_iff e).mpr he)]
    refine ⟨h.links.unlink he, ?_, h.order.sublist List.erase_sublist, fun x hx =>
      h.past x (List.mem_of_mem_erase hx)⟩
    have hpos := List.length_pos_of_mem he
    show s.lruSize - 1 = _
    rw [h.size, List.length_erase_of_mem he]
    omega
  · rw [if_neg fun hl => he ((h.links.isLinked_iff e).mp hl), List.erase_of_not_mem he]
    exact h

theorem Lru.foldl_unlinkIfLinked : ∀ (es : List ℕ) {s : State Obj Def Call} {is : List ℕ},
    Lru s is → ∃ js, Lru (es.foldl State.unlinkIfLinked s) js ∧ ∀ e, e ∈ js ↔ e ∈ is ∧ e ∉ es
  | [], _, is, h => ⟨is, h, by simp⟩
  | e :: es, s, is, h => by
      obtain ⟨js, hjs, hmem⟩ := Lru.foldl_unlinkIfLinked es (h.unlinkIfLinked e)
      refine ⟨js, hjs, fun x => ?_⟩
      rw [hmem, h.links.nodup.mem_erase_iff, List.mem_cons, not_or]
      constructor
      · rintro ⟨⟨hne, hx⟩, hes⟩; exact ⟨hx, hne, hes⟩
      · rintro ⟨hx, hne, hes⟩; exact ⟨⟨hne, hx⟩, hes⟩

/-- A new element, used just now, in front of the list. -/
theorem Lru.pushFront {is : List ℕ} (h : Lru s is) {e : ℕ} (he : e ∉ is) :
    Lru { s.pushFront e with lastUse := Function.update s.lastUse e s.clock
                             clock := s.clock + 1 } (e :: is) where
  links := h.links.pushFront he
  size := by
    show s.lruSize + 1 = _
    rw [h.size, List.length_cons]; push_cast; rfl
  order := by
    have hother : ∀ x ∈ is, Function.update s.lastUse e s.clock x = s.lastUse x := fun x hx =>
      have hne : x ≠ e := fun hxe => he (hxe ▸ hx)
      Function.update_of_ne hne _ _
    refine List.pairwise_cons.mpr ⟨fun x hx => ?_, ?_⟩
    · show Function.update s.lastUse e s.clock x < Function.update s.lastUse e s.clock e
      rw [hother x hx, Function.update_self]
      exact h.past x hx
    · refine h.order.imp_of_mem fun {a b} ha hb hab => ?_
      show Function.update s.lastUse e s.clock b < Function.update s.lastUse e s.clock a
      rw [hother a ha, hother b hb]
      exact hab
  past x hx := by
    show Function.update s.lastUse e s.clock x < s.clock + 1
    rcases List.mem_cons.mp hx with rfl | hx
    · rw [Function.update_self]; omega
    · have hne : x ≠ e := fun hxe => he (hxe ▸ hx)
      rw [Function.update_of_ne hne]
      exact Nat.lt_succ_of_lt (h.past x hx)

end Unlink

/-! ## Slots -/

section Slots

theorem mappedOf_append (ts us : List (Slot Obj Def)) :
    mappedOf (ts ++ us) = mappedOf ts ++ mappedOf us := by simp [mappedOf]

theorem mappedOf_cons (t : Slot Obj Def) (ts : List (Slot Obj Def)) :
    mappedOf (t :: ts) = t.2.map Prod.snd ++ mappedOf ts := by simp [mappedOf]

theorem mem_mappedOf {ts : List (Slot Obj Def)} {e : ℕ} :
    e ∈ mappedOf ts ↔ ∃ t ∈ ts, ∃ p ∈ t.2, p.2 = e := by simp [mappedOf]

theorem mappedOf_putCache {before after : List (Slot Obj Def)} {wrKey : WeakKey Obj}
    {cache : List (StrongKey Obj Def × ℕ)} :
    mappedOf (State.putCache before wrKey cache after) =
      mappedOf before ++ (cache.map Prod.snd ++ mappedOf after) := by
  unfold State.putCache
  split
  · rename_i h
    rw [List.isEmpty_iff.mp h, mappedOf_append]; rfl
  · rw [mappedOf_append, mappedOf_cons]

theorem mem_putCache {before after : List (Slot Obj Def)} {wrKey : WeakKey Obj}
    {cache : List (StrongKey Obj Def × ℕ)} {t : Slot Obj Def}
    (h : t ∈ State.putCache before wrKey cache after) :
    t ∈ before ++ after ∨ t = (wrKey, cache) ∧ cache ≠ [] := by
  unfold State.putCache at h
  split at h
  · exact .inl h
  · rename_i hne
    rw [List.mem_append, List.mem_cons] at h
    rw [List.mem_append]
    rcases h with h | h | h
    · exact .inl (.inl h)
    · exact .inr ⟨h, fun hnil => hne (by rw [hnil]; rfl)⟩
    · exact .inl (.inr h)

theorem putCache_ids {before after : List (Slot Obj Def)} {wrKey : WeakKey Obj}
    {cache cache' : List (StrongKey Obj Def × ℕ)} :
    ((State.putCache before wrKey cache' after).map fun t => WeakKey.ids t.1).Sublist
      ((before ++ (wrKey, cache) :: after).map fun t => WeakKey.ids t.1) := by
  unfold State.putCache
  split
  · exact (List.Sublist.append_left (List.sublist_cons_self _ _) _).map _
  · simp

variable {s : State Obj Def Call} {before after : List (Slot Obj Def)} {wrKey : WeakKey Obj}
  {cache cache' : List (StrongKey Obj Def × ℕ)}

/-- **Taking slots away** keeps the shape. -/
theorem Shape.putCache (h : Shape s) (hs : s.entries = before ++ (wrKey, cache) :: after)
    (hsub : cache'.Sublist cache) :
    Shape { s with entries := State.putCache before wrKey cache' after } := by
  have hmapped : s.mapped = mappedOf before ++ (cache.map Prod.snd ++ mappedOf after) := by
    rw [State.mapped, hs, mappedOf_append, mappedOf_cons]
  have hslot : ∀ t ∈ State.putCache before wrKey cache' after, ∃ u ∈ s.entries, u.1 = t.1 ∧
      t.2.Sublist u.2 ∧ t.2 ≠ [] := by
    intro t ht
    rcases mem_putCache ht with ht | ⟨rfl, hne⟩
    · have hmem : t ∈ s.entries := by
        rw [hs, List.mem_append, List.mem_cons]
        rcases List.mem_append.mp ht with ht | ht
        · exact .inl ht
        · exact .inr (.inr ht)
      exact ⟨t, hmem, rfl, List.Sublist.refl _, h.nonempty t hmem⟩
    · exact ⟨(wrKey, cache), by rw [hs]; simp, rfl, hsub, hne⟩
  refine ⟨fun t ht p hp => ?_, ?_, fun t ht => ?_, ?_, h.fresh, h.held, h.made, h.refs, h.refs_inj,
    h.reverse, h.cleared⟩
  · obtain ⟨u, hu, h₁, h₂, _⟩ := hslot t ht
    rw [← h₁]
    exact h.slot u hu p (h₂.subset hp)
  · show (mappedOf (State.putCache before wrKey cache' after)).Nodup
    rw [mappedOf_putCache]
    refine List.Nodup.sublist ?_ (hmapped ▸ h.nodup)
    exact List.Sublist.append_left (List.Sublist.append_right (hsub.map _) _) _
  · obtain ⟨_, _, _, _, hne⟩ := hslot t ht
    exact hne
  · exact List.Nodup.sublist putCache_ids (hs ▸ h.weak)

theorem Distinct.putCache {I : Interp Obj Def} (h : Distinct I s)
    (hs : s.entries = before ++ (wrKey, cache) :: after) (hsub : cache'.Sublist cache) :
    Distinct I { s with entries := State.putCache before wrKey cache' after } := by
  intro t ht
  rcases mem_putCache ht with ht | ⟨rfl, _⟩
  · refine h t ?_
    rw [hs, List.mem_append, List.mem_cons]
    rcases List.mem_append.mp ht with ht | ht
    · exact .inl ht
    · exact .inr (.inr ht)
  · exact (h (wrKey, cache) (by rw [hs]; simp)).sublist hsub

/-- Taking one entry out of its cache takes it out of the map. -/
theorem mapped_erase {b a : List (StrongKey Obj Def × ℕ)} {k : StrongKey Obj Def} {e : ℕ}
    (h : Shape s) (hs : s.entries = before ++ (wrKey, cache) :: after)
    (hc : cache = b ++ (k, e) :: a) (x : ℕ) :
    x ∈ mappedOf (State.putCache before wrKey (b ++ a) after) ↔ x ∈ s.mapped ∧ x ≠ e := by
  have hmapped : s.mapped = mappedOf before ++ ((b ++ (k, e) :: a).map Prod.snd ++ mappedOf after) := by
    rw [State.mapped, hs, hc, mappedOf_append, mappedOf_cons]
  have hnd := h.nodup
  rw [hmapped] at hnd ⊢
  rw [mappedOf_putCache]
  simp only [List.map_append, List.map_cons, List.mem_append, List.mem_cons,
    List.nodup_append, List.nodup_cons] at hnd ⊢
  obtain ⟨_, ⟨⟨_, ⟨hea, _⟩, hbe⟩, _, hmid⟩, hbefore⟩ := hnd
  constructor
  · rintro (hx | (hx | hx) | hx)
    · exact ⟨.inl hx, hbefore x hx e (.inl (.inr (.inl rfl)))⟩
    · exact ⟨.inr (.inl (.inl hx)), hbe x hx e (.inl rfl)⟩
    · exact ⟨.inr (.inl (.inr (.inr hx))), fun hxe => hea (hxe ▸ hx)⟩
    · exact ⟨.inr (.inr hx), fun hxe => hmid e (.inr (.inl rfl)) x hx hxe.symm⟩
  · rintro ⟨hx | (hx | hx | hx) | hx, hne⟩
    · exact .inl hx
    · exact .inr (.inl (.inl hx))
    · exact absurd hx hne
    · exact .inr (.inl (.inr hx))
    · exact .inr (.inr hx)

end Slots

/-! ## Lookups by pointer -/

section Lookups

variable {I : Interp Obj Def} {s : State Obj Def Call}

theorem findWeakPointer_ok {k wrKey : WeakKey Obj} {before after : List (Slot Obj Def)}
    {cache : List (StrongKey Obj Def × ℕ)}
    (h : s.findWeakPointer I k = some (before, (wrKey, cache), after)) :
    s.entries = before ++ (wrKey, cache) :: after ∧ WeakKey.ids wrKey = WeakKey.ids k := by
  obtain ⟨hs, hp, _⟩ := find_some h
  exact ⟨hs, WeakKey.pointerEqual_iff.mp (Bool.and_eq_true_iff.mp hp).2⟩

theorem findStrongPointer_ok {cache b a : List (StrongKey Obj Def × ℕ)} {k k' : StrongKey Obj Def}
    {e : ℕ} (h : State.findStrongPointer I cache k = some (b, (k', e), a)) :
    cache = b ++ (k', e) :: a ∧ StrongKey.pointerEqual I k' k = true := by
  obtain ⟨hs, hp, _⟩ := find_some h
  exact ⟨hs, (Bool.and_eq_true_iff.mp hp).2⟩

/-- A mapped entry is in the slot of its own keys. -/
theorem Shape.mem_slot (h : Shape s) {e : ℕ} {c : CacheEntry Obj Def} (he : e ∈ s.mapped)
    (hc : s.heap e = some c) :
    ∃ cache, (c.wrKey, cache) ∈ s.entries ∧ (c.key, e) ∈ cache := by
  obtain ⟨⟨wrKey, cache⟩, ht, ⟨k, e'⟩, hp, rfl⟩ := mem_mappedOf.mp he
  obtain ⟨c', hc', hw, hk⟩ := h.slot _ ht _ hp
  obtain rfl : c = c' := Option.some.inj (hc.symm.trans hc')
  dsimp only at hw hk
  exact ⟨cache, hw ▸ ht, hk ▸ hp⟩

/-- **A mapped entry is found by its pointers**, and no other one is found in its place. -/
theorem lookup_mapped (hI : I.PyLaws) (hD : I.DefLaws) (h : Shape s) (hd : Distinct I s) {e : ℕ}
    {c : CacheEntry Obj Def} (he : e ∈ s.mapped) (hc : s.heap e = some c) :
    ∃ before cache after b a,
      s.findWeakPointer I c.wrKey = some (before, (c.wrKey, cache), after) ∧
        State.findStrongPointer I cache c.key = some (b, (c.key, e), a) := by
  obtain ⟨cache, ht, hp⟩ := h.mem_slot he hc
  cases hweak : s.findWeakPointer I c.wrKey with
  | none =>
      have key := find_none hweak _ ht
      dsimp only at key
      rw [hI.reaches_self, Bool.true_and] at key
      exact absurd (WeakKey.pointerEqual_iff.mpr rfl) (by rw [key]; simp)
  | some found =>
      obtain ⟨before, ⟨wrKey, cache'⟩, after⟩ := found
      obtain ⟨hs, hids⟩ := findWeakPointer_ok hweak
      -- Slots are told apart by their weakrefs.
      have hsame : (wrKey, cache') = (c.wrKey, cache) :=
        List.inj_on_of_nodup_map h.weak (by rw [hs]; simp) ht hids
      injection hsame with h₁ h₂
      subst h₁ h₂
      cases hstrong : State.findStrongPointer I cache' c.key with
      | none =>
          have key := find_none hstrong _ hp
          dsimp only at key
          rw [hI.reaches_self, StrongKey.pointerEqual_refl hI hD] at key
          exact absurd key (by simp)
      | some found =>
          obtain ⟨b, ⟨k, e'⟩, a⟩ := found
          obtain ⟨hcache, hk⟩ := findStrongPointer_ok hstrong
          have heq := StrongKey.equal_of_pointerEqual hI hk
          have hpair := hd _ ht
          rw [hcache, List.pairwise_append, List.pairwise_cons] at hpair
          rw [hcache, List.mem_append, List.mem_cons] at hp
          rcases hp with hp | hp | hp
          · exact absurd heq (by rw [(hpair.2.2 _ hp _ List.mem_cons_self).2]; simp)
          · injection hp with h₁ h₂
            exact ⟨before, cache', after, b, a, rfl, by rw [hstrong, h₁, h₂]⟩
          · exact absurd heq (by rw [(hpair.2.1.1 _ hp).1]; simp)

end Lookups

/-! ## Releasing entries -/

section Release

variable {I : Interp Obj Def} {s : State Obj Def Call} {is deferred : List ℕ}

theorem mem_removeEntryFromReverseIndex {e r x : ℕ} {wrKey : WeakKey Obj} :
    x ∈ (s.removeEntryFromReverseIndex e wrKey).reverseIndex r ↔
      x ∈ s.reverseIndex r ∧ (x = e → r ∉ WeakKey.ids wrKey) := by
  have key : ∀ (k : WeakKey Obj) (index : ℕ → List ℕ),
      x ∈ k.foldl (fun index r =>
        Function.update index r.id ((index r.id).filter (· ≠ e))) index r ↔
        x ∈ index r ∧ (x = e → r ∉ WeakKey.ids k) := by
    intro k
    induction k with
    | nil => intro index; simp
    | cons r' k ih =>
        intro index
        rw [List.foldl_cons, ih]
        by_cases hr : r = r'.id
        · subst hr
          rw [Function.update_self, List.mem_filter]
          simp only [ne_eq, decide_not, Bool.not_eq_eq_eq_not, Bool.not_true, decide_eq_false_iff_not,
            List.map_cons, List.mem_cons, true_or, not_true_eq_false, imp_false]
          constructor
          · rintro ⟨⟨hx, hne⟩, _⟩; exact ⟨hx, hne⟩
          · rintro ⟨hx, hne⟩; exact ⟨⟨hx, hne⟩, fun he => absurd he hne⟩
        · rw [Function.update_of_ne hr]
          simp [hr]
  exact key wrKey s.reverseIndex

/-- **The destructor.** Of an entry that nobody has, nothing is left in any index. -/
theorem Settled.destroy {e : ℕ} (h : Settled I s is (e :: deferred)) (hmapped : e ∉ s.mapped)
    (hheld : ¬ s.Held e) : Settled I (s.destroy e) is deferred := by
  have hne : ∀ x ∈ s.mapped, x ≠ e := fun x hx hxe => hmapped (hxe ▸ hx)
  unfold State.destroy
  cases hc : s.heap e with
  | none =>
      refine ⟨h.shape, h.distinct, h.indexed, fun x c hx => ?_, h.lru, h.listed, h.dying⟩
      have hxe : x ≠ e := fun he => by rw [he, hc] at hx; exact absurd hx (by simp)
      simpa [hxe] using h.owned x c hx
  | some c =>
      have hnot : ¬ s.links.isLinked e = true := fun hl =>
        hmapped ((h.listed e).mp ((h.lru.links.isLinked_iff e).mp hl))
      have hunlink : s.unlinkIfLinked e = s := by rw [State.unlinkIfLinked, if_neg hnot]
      dsimp only
      rw [hunlink]
      -- The heap loses `e`, and the reverse index loses it under the weakrefs of its key.
      have hheap : ∀ x c', Function.update s.heap e none x = some c' → x ≠ e ∧ s.heap x = some c' := by
        intro x c' hx
        by_cases hxe : x = e
        · rw [hxe, Function.update_self] at hx; exact absurd hx (by simp)
        · rw [Function.update_of_ne hxe] at hx; exact ⟨hxe, hx⟩
      have hheap' : ∀ x, x ≠ e → Function.update s.heap e none x = s.heap x := fun x hx =>
        Function.update_of_ne hx _ _
      refine ⟨⟨fun t ht p hp => ?_, h.shape.nodup, h.shape.nonempty, h.shape.weak, fun x hx => ?_,
        fun f hf => ?_, fun x c' hx => ?_, h.shape.refs, h.shape.refs_inj, fun r x hx => ?_,
        h.shape.cleared⟩, h.distinct, fun x hx c' hc' r hr _ => ?_, fun x c' hx => ?_,
        ⟨h.lru.links, h.lru.size, h.lru.order, h.lru.past⟩, h.listed, fun x hx c' hc' => ?_⟩
      · have hpe : p.2 ≠ e := hne p.2 (mem_mappedOf.mpr ⟨t, ht, p, hp, rfl⟩)
        show ∃ c', Function.update s.heap e none p.2 = some c' ∧ _
        rw [hheap' _ hpe]
        exact h.shape.slot t ht p hp
      · show Function.update s.heap e none x = none
        by_cases hxe : x = e
        · rw [hxe, Function.update_self]
        · rw [hheap' x hxe, h.shape.fresh x hx]
      · have hfe : f.entry ≠ e := fun hfe => hheld ⟨f, hf, hfe⟩
        show ∃ c', Function.update s.heap e none f.entry = some c'
        rw [hheap' _ hfe]
        exact h.shape.held f hf
      · exact h.shape.made x c' (hheap x c' hx).2
      · obtain ⟨hx, hxe⟩ := mem_removeEntryFromReverseIndex.mp hx
        obtain ⟨c', hc', hr⟩ := h.shape.reverse r x hx
        have hxne : x ≠ e := fun he => by
          subst he
          obtain rfl : c = c' := Option.some.inj (hc.symm.trans hc')
          exact hxe rfl hr
        exact ⟨c', (hheap' x hxne).trans hc', hr⟩
      · obtain ⟨hxe, hc'⟩ := hheap x c' hc'
        exact mem_removeEntryFromReverseIndex.mpr ⟨h.indexed x hx c' hc' r hr id,
          fun he => absurd he hxe⟩
      · obtain ⟨hxe, hc'⟩ := hheap x c' hx
        exact (h.owned x c' hc').imp_right fun ho => ho.imp_right fun hm =>
          (List.mem_cons.mp hm).resolve_left hxe
      · exact h.dying x hx c' (hheap x c' hc').2

theorem Settled.release {e : ℕ} (h : Settled I s is (e :: deferred)) :
    Settled I (s.release e) is deferred := by
  unfold State.release
  split
  · rename_i hrefers
    refine ⟨h.shape, h.distinct, h.indexed, fun x c hx => ?_, h.lru, h.listed, h.dying⟩
    rcases h.owned x c hx with hm | hh | hd
    · exact .inl hm
    · exact .inr (.inl hh)
    · rcases List.mem_cons.mp hd with rfl | hd
      · exact hrefers.imp_right .inl
      · exact .inr (.inr hd)
  · rename_i hrefers
    rw [not_or] at hrefers
    exact h.destroy hrefers.1 hrefers.2

theorem Settled.releaseAll : ∀ {es : List ℕ} {s : State Obj Def Call},
    Settled I s is (es ++ deferred) → Settled I (s.releaseAll es) is deferred
  | [], _, h => h
  | e :: es, s, h => by
      have key : Settled I s is (e :: (es ++ deferred)) := h
      show Settled I ((s.release e).releaseAll es) is deferred
      exact Settled.releaseAll key.release

/-- Releasing an entry touches four fields, and brings no entry to life. -/
theorem release_fields (s : State Obj Def Call) (e : ℕ) :
    ∃ heap index links size, s.release e = { s with heap := heap, reverseIndex := index,
                                                    links := links, lruSize := size } ∧
      ∀ x c, heap x = some c → s.heap x = some c := by
  unfold State.release
  split
  · exact ⟨_, _, _, _, rfl, fun _ _ h => h⟩
  · unfold State.destroy
    split
    · exact ⟨_, _, _, _, rfl, fun _ _ h => h⟩
    · obtain ⟨links, size, hu⟩ := unlinkIfLinked_fields (s := s) e
      dsimp only
      rw [hu]
      refine ⟨_, _, _, _, rfl, fun x c hx => ?_⟩
      by_cases hxe : x = e
      · rw [hxe, Function.update_self] at hx; exact absurd hx (by simp)
      · rwa [Function.update_of_ne hxe] at hx

theorem releaseAll_fields : ∀ (es : List ℕ) (s : State Obj Def Call),
    ∃ heap index links size, s.releaseAll es = { s with heap := heap, reverseIndex := index,
                                                        links := links, lruSize := size } ∧
      ∀ x c, heap x = some c → s.heap x = some c
  | [], s => ⟨_, _, _, _, rfl, fun _ _ h => h⟩
  | e :: es, s => by
      obtain ⟨heap, index, links, size, h, hsub⟩ := release_fields s e
      obtain ⟨heap', index', links', size', h', hsub'⟩ := releaseAll_fields es (s.release e)
      rw [h] at h' hsub'
      refine ⟨heap', index', links', size', ?_, fun x c hx => hsub x c (hsub' x c hx)⟩
      show (s.release e).releaseAll es = _
      rw [h, h']

end Release

/-! ## Evicting entries -/

section Evict

variable {I : Interp Obj Def} {s : State Obj Def Call} {is deferred todo : List ℕ}
  {except : ℕ → Prop}

/-- An eviction is over when nothing is left to visit. -/
theorem Evicting.settled (h : Evicting I s except [] deferred is) : Settled I s is deferred where
  shape := h.shape
  distinct := h.distinct
  indexed e he c hc r hr _ := h.indexed e he c hc r hr fun hex =>
    absurd (h.holders e he c hc r hr hex) (by simp)
  owned := h.owned
  lru := h.lru
  listed e := ⟨fun he => (h.linked e he).resolve_right (by simp), h.mapped e⟩
  dying := h.dying

/-- Unlinking the entry that is visited, while the map stays as it is. -/
theorem Evicting.unlink {e : ℕ} {es : List ℕ} (h : Evicting I s except (e :: es) deferred is)
    (he : e ∉ s.mapped) : Evicting I (s.unlinkIfLinked e) except es deferred (is.erase e) := by
  have hlru := h.lru.unlinkIfLinked e
  obtain ⟨links, size, hu⟩ := unlinkIfLinked_fields (s := s) e
  rw [hu] at hlru ⊢
  have hne : ∀ x ∈ s.mapped, x ≠ e := fun x hx hxe => he (hxe ▸ hx)
  refine ⟨h.shape.congr rfl rfl rfl rfl rfl rfl rfl rfl, h.distinct, h.indexed, h.owned, hlru,
    fun x hx => (List.mem_erase_of_ne (hne x hx)).mpr (h.mapped x hx), fun x hx => ?_,
    fun x hx c hc r hr hex => ?_, fun x hx => h.live x (List.mem_cons_of_mem _ hx), h.dying⟩
  · obtain ⟨hxe, hx⟩ := h.lru.links.nodup.mem_erase_iff.mp hx
    exact (h.linked x hx).imp_right fun hm => (List.mem_cons.mp hm).resolve_left hxe
  · exact (List.mem_cons.mp (h.holders x hx c hc r hr hex)).resolve_left (hne x hx)

/-- Taking an entry out of its slot that holds the same weakrefs as the visited one. -/
theorem Evicting.erase {e e' : ℕ} {es : List ℕ} (h : Evicting I s except (e :: es) deferred is)
    {before after : List (Slot Obj Def)} {wrKey : WeakKey Obj}
    {cache b a : List (StrongKey Obj Def × ℕ)} {k : StrongKey Obj Def}
    (hs : s.entries = before ++ (wrKey, cache) :: after) (hcache : cache = b ++ (k, e') :: a)
    (he : e ∈ s.mapped → e' = e)
    (hholds : e' ≠ e → ∃ r ∈ WeakKey.ids wrKey, except r) :
    Evicting I { s.unlinkIfLinked e with entries := State.putCache before wrKey (b ++ a) after }
      except es (e' :: deferred) (is.erase e) := by
  have hlru := h.lru.unlinkIfLinked e
  obtain ⟨links, size, hu⟩ := unlinkIfLinked_fields (s := s) e
  rw [hu] at hlru ⊢
  have hsub : (b ++ a).Sublist cache := by
    rw [hcache]; exact List.Sublist.append_left (List.sublist_cons_self _ _) _
  have hmem : ∀ x, x ∈ mappedOf (State.putCache before wrKey (b ++ a) after) ↔
      x ∈ s.mapped ∧ x ≠ e' := mapped_erase h.shape hs hcache
  have hne : ∀ x ∈ s.mapped, x ≠ e' → x ≠ e := fun x hx hxe' hxe =>
    hxe' (hxe.trans (he (hxe ▸ hx)).symm)
  have hmapped' : e' ∈ s.mapped := by
    rw [State.mapped, hs, hcache, mappedOf_append, mappedOf_cons]; simp
  refine ⟨(h.shape.putCache hs hsub).congr rfl rfl rfl rfl rfl rfl rfl rfl,
    (h.distinct.putCache hs hsub :), fun x hx c hc r hr hex => ?_, fun x c hx => ?_,
    ⟨hlru.links, hlru.size, hlru.order, hlru.past⟩, fun x hx => ?_, fun x hx => ?_,
    fun x hx c hc r hr hex => ?_, fun x hx => h.live x (List.mem_cons_of_mem _ hx),
    fun x hx => h.dying x ((hmem x).mp hx).1⟩
  · exact h.indexed x ((hmem x).mp hx).1 c hc r hr hex
  · rcases h.owned x c hx with hm | hh | hd
    · by_cases hxe : x = e'
      · exact .inr (.inr (hxe ▸ List.mem_cons_self))
      · exact .inl ((hmem x).mpr ⟨hm, hxe⟩)
    · exact .inr (.inl hh)
    · exact .inr (.inr (List.mem_cons_of_mem _ hd))
  · obtain ⟨hm, hxe'⟩ := (hmem x).mp hx
    exact (List.mem_erase_of_ne (hne x hm hxe')).mpr (h.mapped x hm)
  · obtain ⟨hxe, hx⟩ := h.lru.links.nodup.mem_erase_iff.mp hx
    rcases h.linked x hx with hm | hm
    · -- The erased entry is still linked, and still to be visited.
      by_cases hxe' : x = e'
      · subst hxe'
        obtain ⟨r, hr, hex⟩ := hholds hxe
        obtain ⟨c, hc, hw, _⟩ := h.shape.slot (wrKey, cache) (by rw [hs]; simp) (k, x)
          (by rw [hcache]; simp)
        have htodo := h.holders x hm c hc r (by rw [hw]; exact hr) hex
        exact .inr ((List.mem_cons.mp htodo).resolve_left hxe)
      · exact .inl ((hmem x).mpr ⟨hm, hxe'⟩)
    · exact .inr ((List.mem_cons.mp hm).resolve_left hxe)
  · obtain ⟨hm, hxe'⟩ := (hmem x).mp hx
    exact (List.mem_cons.mp (h.holders x hm c hc r hr hex)).resolve_left (hne x hm hxe')

end Evict

end JaxDas.WeakrefCache
