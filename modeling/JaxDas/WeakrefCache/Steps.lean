import JaxDas.WeakrefCache.Consistent

/-!
# Every step keeps the indexes in agreement

One lemma for each operation of the cache: it takes a settled state to a settled
state, and says what becomes of the LRU list. Evictions come first, since a call that
makes an entry can end in one.
-/

namespace JaxDas.WeakrefCache

open IntrusiveList SlotTable

variable {Obj Def Call : Type} {I : Interp Obj Def} {s : State Obj Def Call}
  {is deferred : List ℕ} {except : ℕ → Prop}

/-! ## Evictions -/

theorem findWeakPointer_unlinkIfLinked (e : ℕ) (k : WeakKey Obj) :
    (s.unlinkIfLinked e).findWeakPointer I k = s.findWeakPointer I k := by
  obtain ⟨links, size, hu⟩ := unlinkIfLinked_fields (s := s) e
  rw [hu]
  rfl

theorem putCache_self {before after : List (Slot Obj Def)} {wrKey : WeakKey Obj}
    {cache : List (StrongKey Obj Def × ℕ)} (h : cache ≠ []) :
    State.putCache before wrKey cache after = before ++ (wrKey, cache) :: after := by
  rw [State.putCache, if_neg (by simpa using h)]

/-- **One round of an eviction**: the visited entry is neither linked nor mapped any more. -/
theorem evictEntry_ok (hI : I.PyLaws) (hD : I.DefLaws) {e : ℕ} {es : List ℕ}
    (h : Evicting I s except (e :: es) deferred is)
    (hex : ∀ c, s.heap e = some c → e ∈ s.mapped ∨ ∃ r ∈ WeakKey.ids c.wrKey, except r) :
    Evicting I (s.evictEntry I e).1 except es ((s.evictEntry I e).2 ++ deferred) (is.erase e) := by
  obtain ⟨c, hc⟩ := h.live e List.mem_cons_self
  unfold State.evictEntry
  rw [hc]
  dsimp only
  rw [findWeakPointer_unlinkIfLinked]
  by_cases he : e ∈ s.mapped
  · obtain ⟨before, cache, after, b, a, hweak, hstrong⟩ :=
      lookup_mapped hI hD h.shape h.distinct he hc
    rw [hweak]
    dsimp only
    rw [hstrong]
    exact h.erase (findWeakPointer_ok hweak).1 (findStrongPointer_ok hstrong).1 (fun _ => rfl)
      fun hne => absurd rfl hne
  · -- The entry was evicted before; its keys may lead to another one by now.
    cases hweak : s.findWeakPointer I c.wrKey with
    | none => exact h.unlink he
    | some found =>
        obtain ⟨before, ⟨wrKey, cache⟩, after⟩ := found
        obtain ⟨hs, hids⟩ := findWeakPointer_ok hweak
        dsimp only
        cases hstrong : State.findStrongPointer I cache c.key with
        | none =>
            have hunlink := h.unlink he
            have hself : s.unlinkIfLinked e = { s.unlinkIfLinked e with
                entries := State.putCache before wrKey cache after } := by
              obtain ⟨links, size, hu⟩ := unlinkIfLinked_fields (s := s) e
              rw [hu, putCache_self (h.shape.nonempty (wrKey, cache) (by rw [hs]; simp)), ← hs]
            rw [hself] at hunlink
            exact hunlink
        | some found =>
            obtain ⟨b, ⟨k, e'⟩, a⟩ := found
            refine h.erase hs (findStrongPointer_ok hstrong).1 (fun hm => absurd hm he) fun _ => ?_
            rw [hids]
            exact (hex c hc).resolve_left he

/-- A round touches the map and the LRU list only. -/
theorem evictEntry_fields (s : State Obj Def Call) (e : ℕ) : ∃ entries links size,
    (s.evictEntry I e).1 = { s with entries := entries, links := links, lruSize := size } := by
  unfold State.evictEntry
  obtain ⟨links, size, hu⟩ := unlinkIfLinked_fields (s := s) e
  split
  · exact ⟨_, _, _, rfl⟩
  · dsimp only
    rw [hu]
    split
    · exact ⟨_, _, _, rfl⟩
    · split <;> exact ⟨_, _, _, rfl⟩

theorem evictEntries_fields : ∀ (es : List ℕ) (s : State Obj Def Call), ∃ entries links size,
    (s.evictEntries I es).1 = { s with entries := entries, links := links, lruSize := size }
  | [], _ => ⟨_, _, _, rfl⟩
  | e :: es, s => by
      obtain ⟨entries, links, size, h⟩ := evictEntry_fields (I := I) s e
      obtain ⟨entries', links', size', h'⟩ := evictEntries_fields es (s.evictEntry I e).1
      refine ⟨entries', links', size', ?_⟩
      show ((s.evictEntry I e).1.evictEntries I es).1 = _
      rw [h', h]

theorem evictWeakref_fields (s : State Obj Def Call) (r : ℕ) : ∃ entries heap index links size,
    s.evictWeakref I r = { s with entries := entries, heap := heap, reverseIndex := index,
                                  links := links, lruSize := size } ∧
      ∀ x c, heap x = some c → s.heap x = some c := by
  unfold State.evictWeakref
  dsimp only
  obtain ⟨entries, links, size, h⟩ := evictEntries_fields (I := I) (I.order (s.reverseIndex r))
    { s with reverseIndex := Function.update s.reverseIndex r [] }
  generalize State.evictEntries I { s with reverseIndex := Function.update s.reverseIndex r [] }
    (I.order (s.reverseIndex r)) = p at h
  obtain ⟨s', es⟩ := p
  obtain ⟨heap, index, links', size', hrel, hheap⟩ := releaseAll_fields es s'
  dsimp only at h ⊢
  subst h
  exact ⟨entries, heap, index, links', size', hrel, hheap⟩

/-- The order of the entries to release does not matter. -/
theorem Evicting.perm {todo deferred' : List ℕ} (h : Evicting I s except todo deferred is)
    (hp : deferred.Perm deferred') : Evicting I s except todo deferred' is where
  shape := h.shape
  distinct := h.distinct
  indexed := h.indexed
  owned e c hc := (h.owned e c hc).imp_right fun ho => ho.imp_right fun hd => hp.mem_iff.mp hd
  lru := h.lru
  mapped := h.mapped
  linked := h.linked
  holders := h.holders
  live := h.live
  dying := h.dying

/-- The entries to visit one after the other, all of which hold a weakref of `except`. -/
theorem evictEntries_ok (hI : I.PyLaws) (hD : I.DefLaws) : ∀ {es : List ℕ}
    {s : State Obj Def Call} {is deferred : List ℕ}, Evicting I s except es deferred is →
    (∀ e ∈ es, ∀ c, s.heap e = some c → ∃ r ∈ WeakKey.ids c.wrKey, except r) →
    ∃ js, js.Sublist is ∧
      Evicting I (s.evictEntries I es).1 except [] ((s.evictEntries I es).2 ++ deferred) js
  | [], _, is, _, h, _ => ⟨is, List.Sublist.refl _, h⟩
  | e :: es, s, is, deferred, h, hex => by
      have hstep := evictEntry_ok hI hD h fun c hc => .inr (hex e List.mem_cons_self c hc)
      obtain ⟨js, hjs, hrest⟩ := evictEntries_ok hI hD hstep fun x hx c hc =>
        hex x (List.mem_cons_of_mem _ hx) c (by
          obtain ⟨_, _, _, hf⟩ := evictEntry_fields (I := I) s e
          rwa [hf] at hc)
      refine ⟨js, hjs.trans List.erase_sublist, ?_⟩
      have howned : ((s.evictEntries I (e :: es)).2 ++ deferred).Perm
          (((s.evictEntry I e).1.evictEntries I es).2 ++ ((s.evictEntry I e).2 ++ deferred)) := by
        show ((s.evictEntry I e).2 ++ ((s.evictEntry I e).1.evictEntries I es).2 ++ deferred).Perm _
        rw [← List.append_assoc]
        exact List.perm_append_comm.append_right _
      exact hrest.perm howned.symm

/-- **The callback of a weakref.** Afterwards no mapped entry holds it. -/
theorem Settled.evictWeakref (hI : I.PyLaws) (hD : I.DefLaws) (h : Settled I s is []) (r : ℕ) :
    ∃ js, js.Sublist is ∧ Settled I (s.evictWeakref I r) js [] ∧
      ∀ e ∈ (s.evictWeakref I r).mapped, ∀ c, (s.evictWeakref I r).heap e = some c →
        r ∉ WeakKey.ids c.wrKey := by
  unfold State.evictWeakref
  dsimp only
  have hmem : ∀ e, e ∈ I.order (s.reverseIndex r) ↔ e ∈ s.reverseIndex r := fun e =>
    (hI.order_perm _).mem_iff
  have hstart : Evicting I { s with reverseIndex := Function.update s.reverseIndex r [] }
      (· = r) (I.order (s.reverseIndex r)) [] is := by
    have hidx : ∀ r' x, x ∈ Function.update s.reverseIndex r [] r' → x ∈ s.reverseIndex r' := by
      intro r' x hx
      by_cases hr : r' = r
      · rw [hr, Function.update_self] at hx; exact absurd hx (by simp)
      · rwa [Function.update_of_ne hr] at hx
    refine ⟨{ h.shape with reverse := fun r' x hx => h.shape.reverse r' x (hidx r' x hx) },
      h.distinct, fun e he c hc r' hr' hne => ?_, h.owned, ⟨h.lru.links, h.lru.size, h.lru.order,
      h.lru.past⟩, fun e he => (h.listed e).mpr he, fun e he => .inl ((h.listed e).mp he),
      fun e he c hc r' hr' hrr => ?_, fun e he => ?_, h.dying⟩
    · show e ∈ Function.update s.reverseIndex r [] r'
      rw [Function.update_of_ne hne]
      exact h.indexed e he c hc r' hr' id
    · subst hrr
      exact (hmem e).mpr (h.indexed e he c hc r' hr' id)
    · obtain ⟨c, hc, _⟩ := h.shape.reverse r e ((hmem e).mp he)
      exact ⟨c, hc⟩
  obtain ⟨js, hjs, hend⟩ := evictEntries_ok hI hD hstart fun e he c hc => by
    obtain ⟨c', hc', hr⟩ := h.shape.reverse r e ((hmem e).mp he)
    obtain rfl : c = c' := Option.some.inj (hc.symm.trans hc')
    exact ⟨r, hr, rfl⟩
  rw [List.append_nil] at hend
  have hnone := hend.holders
  have hsettled := hend.settled
  generalize State.evictEntries I { s with reverseIndex := Function.update s.reverseIndex r [] }
    (I.order (s.reverseIndex r)) = p at hsettled hnone
  obtain ⟨s', es⟩ := p
  refine ⟨js, hjs, Settled.releaseAll (by rwa [List.append_nil]), ?_⟩
  obtain ⟨heap, index, links, size, hrel, hheap⟩ := releaseAll_fields es s'
  dsimp only
  rw [hrel]
  intro e he c hc hr
  exact absurd (hnone e he c (hheap e c hc) r hr rfl) (by simp)

/-- **Eviction for want of room** takes the last entry of the LRU list. -/
theorem Settled.evictLeastRecentlyUsed (hI : I.PyLaws) (hD : I.DefLaws) {e : ℕ} {js : List ℕ}
    (h : Settled I s (js ++ [e]) []) : Settled I (s.evictLeastRecentlyUsed I) js [] ∧
      ∀ x, x ∈ (s.evictLeastRecentlyUsed I).mapped ↔ x ∈ s.mapped ∧ x ≠ e := by
  have he : e ∈ s.mapped := (h.listed e).mp (by simp)
  obtain ⟨c, hc⟩ : ∃ c, s.heap e = some c := by
    obtain ⟨t, ht, p, hp, rfl⟩ := mem_mappedOf.mp he
    obtain ⟨c, hc, _⟩ := h.shape.slot t ht p hp
    exact ⟨c, hc⟩
  obtain ⟨before, cache, after, b, a, hweak, hstrong⟩ :=
    lookup_mapped hI hD h.shape h.distinct he hc
  have hstart : Evicting I s (fun _ => False) [e] [] (js ++ [e]) :=
    ⟨h.shape, h.distinct, h.indexed, h.owned, h.lru, fun x hx => (h.listed x).mpr hx,
      fun x hx => .inl ((h.listed x).mp hx), fun _ _ _ _ _ _ hf => hf.elim,
      fun x hx => ⟨c, by rw [List.mem_singleton.mp hx, hc]⟩, h.dying⟩
  have hend := (hstart.erase (findWeakPointer_ok hweak).1 (findStrongPointer_ok hstrong).1
    (fun _ => rfl) fun hne => absurd rfl hne).settled
  have herase : (js ++ [e]).erase e = js := by
    have hnot : e ∉ js := fun hmem =>
      (List.nodup_append.mp h.lru.links.nodup).2.2 e hmem e (by simp) rfl
    rw [List.erase_append_right _ hnot]; simp
  rw [herase] at hend
  unfold State.evictLeastRecentlyUsed
  rw [h.lru.links.tail_eq, List.getLast?_concat]
  dsimp only
  rw [hc]
  dsimp only
  rw [findWeakPointer_unlinkIfLinked, hweak]
  dsimp only
  rw [hstrong]
  dsimp only
  refine ⟨hend.release, fun x => ?_⟩
  obtain ⟨heap, index, links, size, hrel, _⟩ := release_fields
    { s.unlinkIfLinked e with entries := State.putCache before c.wrKey (b ++ a) after } e
  rw [hrel]
  exact mapped_erase h.shape (findWeakPointer_ok hweak).1 (findStrongPointer_ok hstrong).1 x

/-- An eviction touches the indexes only. -/
theorem evictLeastRecentlyUsed_fields (s : State Obj Def Call) :
    ∃ entries heap index links size, s.evictLeastRecentlyUsed I =
      { s with entries := entries, heap := heap, reverseIndex := index, links := links,
               lruSize := size } := by
  unfold State.evictLeastRecentlyUsed
  split
  · exact ⟨_, _, _, _, _, rfl⟩
  · rename_i tail _
    split
    · exact ⟨_, _, _, _, _, rfl⟩
    · obtain ⟨links, size, hu⟩ := unlinkIfLinked_fields (s := s) tail
      dsimp only
      rw [hu]
      split
      · exact ⟨_, _, _, _, _, rfl⟩
      · split
        · exact ⟨_, _, _, _, _, rfl⟩
        · rename_i before wrKey cache after _ _ b k e a _
          obtain ⟨heap, index, links', size', hrel, _⟩ := release_fields
            { s with links := links, lruSize := size
                     entries := State.putCache before wrKey (b ++ a) after } e
          rw [hrel]
          exact ⟨_, _, _, _, _, rfl⟩

/-- **Explicit eviction** drops a whole slot of the first level. -/
theorem Settled.evictWeakKey (h : Settled I s is []) (k : WeakKey Obj) :
    ∃ js, (∀ e ∈ js, e ∈ is) ∧ Settled I (s.evictWeakKey I k) js [] := by
  unfold State.evictWeakKey
  split
  · exact ⟨is, fun _ h => h, h⟩
  · rename_i before wrKey cache after hfound
    obtain ⟨hs, _, _⟩ := find_some hfound
    obtain ⟨js, hjs, hmem⟩ := Lru.foldl_unlinkIfLinked (cache.map Prod.snd) h.lru
    obtain ⟨links, size, hu⟩ := foldl_unlinkIfLinked_fields (cache.map Prod.snd) s
    rw [hu] at hjs
    dsimp only
    rw [hu]
    have hput : before ++ after = State.putCache before wrKey [] after := rfl
    have hmapped : s.mapped = mappedOf before ++ (cache.map Prod.snd ++ mappedOf after) := by
      rw [State.mapped, hs, mappedOf_append, mappedOf_cons]
    have hx : ∀ x, x ∈ mappedOf (before ++ after) ↔ x ∈ s.mapped ∧ x ∉ cache.map Prod.snd := by
      intro x
      have hnd := h.shape.nodup
      rw [hmapped] at hnd ⊢
      rw [mappedOf_append]
      simp only [List.mem_append, List.nodup_append] at hnd ⊢
      obtain ⟨_, ⟨_, _, hcache⟩, hbefore⟩ := hnd
      constructor
      · rintro (hx | hx)
        · exact ⟨.inl hx, fun hc => hbefore x hx x (.inl hc) rfl⟩
        · exact ⟨.inr (.inr hx), fun hc => hcache x hc x hx rfl⟩
      · rintro ⟨hx | hx | hx, hc⟩
        · exact .inl hx
        · exact absurd hx hc
        · exact .inr hx
    refine ⟨js, fun e he => ((hmem e).mp he).1, Settled.releaseAll ?_⟩
    rw [List.append_nil]
    have hshape := h.shape.putCache hs (List.nil_sublist cache)
    have hdistinct := h.distinct.putCache hs (List.nil_sublist cache)
    rw [← hput] at hshape hdistinct
    refine ⟨hshape.congr rfl rfl rfl rfl rfl rfl rfl rfl, hdistinct, fun e he =>
      h.indexed e ((hx e).mp he).1, fun e c hc => ?_, ⟨hjs.links, hjs.size, hjs.order, hjs.past⟩,
      fun e => ?_, fun e he => h.dying e ((hx e).mp he).1⟩
    · rcases h.owned e c hc with hm | hh | hd
      · by_cases hcache : e ∈ cache.map Prod.snd
        · exact .inr (.inr hcache)
        · exact .inl ((hx e).mpr ⟨hm, hcache⟩)
      · exact .inr (.inl hh)
      · exact absurd hd (by simp)
    · rw [hmem, h.listed]
      exact (hx e).symm

/-- **`Clear`** leaves an empty cache, and whatever running calls hold. -/
theorem Settled.clear (h : Settled I s is []) : Settled I s.clear [] [] := by
  unfold State.clear
  obtain ⟨js, hjs, hmem⟩ := Lru.foldl_unlinkIfLinked s.mapped h.lru
  obtain ⟨links, size, hu⟩ := foldl_unlinkIfLinked_fields s.mapped s
  obtain rfl : js = [] := List.eq_nil_iff_forall_not_mem.mpr fun e he =>
    ((hmem e).mp he).2 ((h.listed e).mp ((hmem e).mp he).1)
  rw [hu] at hjs
  dsimp only
  rw [hu]
  refine Settled.releaseAll ?_
  rw [List.append_nil]
  refine ⟨⟨by simp, List.nodup_nil, by simp, List.nodup_nil, h.shape.fresh, h.shape.held,
    h.shape.made, h.shape.refs, h.shape.refs_inj, fun r x hx => absurd hx (by simp),
    h.shape.cleared⟩, fun t ht => absurd ht (by simp), fun e he => absurd he (by simp [State.mapped, mappedOf]),
    fun e c hc => ?_, ⟨hjs.links, hjs.size, hjs.order, hjs.past⟩,
    fun e => by simp [State.mapped, mappedOf],
    fun e he => absurd he (by simp [State.mapped, mappedOf])⟩
  rcases h.owned e c hc with hm | hh | hd
  · exact .inr (.inr hm)
  · exact .inr (.inl hh)
  · exact absurd hd (by simp)

/-! ## New weakrefs -/

theorem makeRefs_ids : ∀ (os : List Obj) (i : ℕ),
    WeakKey.ids (State.makeRefs i os) = List.range' i os.length
  | [], _ => rfl
  | o :: os, i => by
      show i :: WeakKey.ids (State.makeRefs (i + 1) os) = _
      rw [makeRefs_ids, List.length_cons, List.range'_succ]

theorem mem_makeRefs {os : List Obj} {i : ℕ} {r : WeakRef Obj} (hr : r ∈ State.makeRefs i os) :
    i ≤ r.id ∧ r.id < i + os.length := by
  have hid : r.id ∈ WeakKey.ids (State.makeRefs i os) := List.mem_map_of_mem hr
  rwa [makeRefs_ids, List.mem_range'_1] at hid

theorem makeRefs_inj (os : List Obj) (i : ℕ) :
    ∀ r ∈ State.makeRefs i os, ∀ r' ∈ State.makeRefs i os, r.id = r'.id → r = r' := by
  have hnd : (WeakKey.ids (State.makeRefs i os)).Nodup := by
    rw [makeRefs_ids]; exact List.nodup_range'
  intro r hr r' hr' hid
  exact List.inj_on_of_nodup_map hnd hr hr' hid

theorem Settled.withRefs (h : Settled I s is deferred) (os : List Obj) :
    Settled I (s.withRefs os) is deferred := by
  refine ⟨⟨h.shape.slot, h.shape.nodup, h.shape.nonempty, h.shape.weak, h.shape.fresh, h.shape.held,
    fun e c hc r hr => List.mem_append_left _ (h.shape.made e c hc r hr), fun r hr => ?_,
    fun r hr r' hr' hid => ?_, h.shape.reverse, fun r hr => Nat.lt_add_right _ (h.shape.cleared r hr)⟩,
    h.distinct, h.indexed, h.owned, ⟨h.lru.links, h.lru.size, h.lru.order, h.lru.past⟩, h.listed,
    h.dying⟩
  · show r.id < s.nextRef + os.length
    rcases List.mem_append.mp hr with hr | hr
    · exact Nat.lt_add_right _ (h.shape.refs r hr)
    · exact (mem_makeRefs hr).2
  · rcases List.mem_append.mp hr with hr | hr <;> rcases List.mem_append.mp hr' with hr' | hr'
    · exact h.shape.refs_inj r hr r' hr' hid
    · have hold := h.shape.refs r hr
      have hnew := (mem_makeRefs hr').1
      omega
    · have hold := h.shape.refs r' hr'
      have hnew := (mem_makeRefs hr).1
      omega
    · exact makeRefs_inj os s.nextRef r hr r' hr' hid

/-! ## Entries that a call makes or finds -/

section Calls

variable {before after : List (Slot Obj Def)} {wrKey : WeakKey Obj}
  {cache : List (StrongKey Obj Def × ℕ)} {key : StrongKey Obj Def}

/-- A key that is not found is unequal to every key of the cache, both ways around. -/
theorem findStrong_none (hI : I.PyLaws) (hD : I.DefLaws)
    (hnone : State.findStrong I cache key = none) : ∀ p ∈ cache,
    StrongKey.equal I p.1 key = false ∧ StrongKey.equal I key p.1 = false := by
  intro p hp
  have hslot := find_none hnone p hp
  have hne : ¬ StrongKey.equal I p.1 key = true := fun heq => by
    rw [StrongKey.hash_eq hI hD heq, hI.reaches_self, heq] at hslot
    exact absurd hslot (by simp)
  exact ⟨Bool.eq_false_iff.mpr hne, Bool.eq_false_iff.mpr fun heq =>
    hne (StrongKey.equal_symm hI hD heq)⟩

/-- **A miss.** The new entry is mapped, indexed, held by its call, and first in the LRU list. -/
theorem Settled.insert (hI : I.PyLaws) (hD : I.DefLaws) (h : Settled I s is [])
    (hs : s.entries = State.putCache before wrKey cache after)
    (hweak : ((before ++ (wrKey, cache) :: after).map fun t => WeakKey.ids t.1).Nodup)
    (hmade : ∀ r ∈ wrKey, r ∈ s.refs) (hlive : ∀ r ∈ WeakKey.ids wrKey, s.cleared r = false)
    (hnone : State.findStrong I cache key = none) (threadId : ℕ) (call : Call) :
    Settled I ((s.insert threadId before wrKey cache after key).serve threadId call s.nextEntry true
      wrKey key) (s.nextEntry :: is) [] := by
  have hmapped : s.mapped = mappedOf before ++ (cache.map Prod.snd ++ mappedOf after) := by
    rw [State.mapped, hs, mappedOf_putCache]
  have hheap : ∀ x, x ≠ s.nextEntry → Function.update s.heap s.nextEntry
      (some { threadId, wrKey, key }) x = s.heap x := fun x hx => Function.update_of_ne hx _ _
  have hself : Function.update s.heap s.nextEntry (some { threadId, wrKey, key }) s.nextEntry =
      some { threadId, wrKey, key } := Function.update_self _ _ _
  -- Nothing refers to the new entry yet.
  have halive : ∀ x c, s.heap x = some c → x < s.nextEntry := fun x c hx => by
    by_contra hge
    rw [h.shape.fresh x (Nat.le_of_not_lt hge)] at hx
    exact absurd hx (by simp)
  have hnew : ∀ x ∈ s.mapped, x < s.nextEntry := fun x hx => by
    obtain ⟨t, ht, p, hp, rfl⟩ := mem_mappedOf.mp hx
    obtain ⟨c, hc, _⟩ := h.shape.slot t ht p hp
    exact halive _ c hc
  have hold : ∀ t ∈ before ++ after, t ∈ s.entries := fun t ht => by
    rw [hs, State.putCache]
    split
    · exact ht
    · rw [List.mem_append, List.mem_cons]
      exact (List.mem_append.mp ht).imp_right .inr
  have hcache : ∀ p ∈ cache, (wrKey, cache) ∈ s.entries := fun p hp => by
    rw [hs, putCache_self (List.ne_nil_of_mem hp)]; simp
  have hslots : ∀ t ∈ before ++ (wrKey, cache ++ [(key, s.nextEntry)]) :: after,
      t ∈ s.entries ∨ t = (wrKey, cache ++ [(key, s.nextEntry)]) := fun t ht => by
    rw [List.mem_append, List.mem_cons] at ht
    rcases ht with ht | ht | ht
    · exact .inl (hold t (List.mem_append_left _ ht))
    · exact .inr ht
    · exact .inl (hold t (List.mem_append_right _ ht))
  have hmem : ∀ x, x ∈ mappedOf (before ++ (wrKey, cache ++ [(key, s.nextEntry)]) :: after) ↔
      x ∈ s.mapped ∨ x = s.nextEntry := fun x => by
    rw [hmapped, mappedOf_append, mappedOf_cons]
    simp only [List.map_append, List.map_cons, List.map_nil, List.mem_append, List.mem_cons,
      List.not_mem_nil, or_false]
    tauto
  have hpush := h.lru.pushFront (e := s.nextEntry) fun hin =>
    absurd (hnew _ ((h.listed _).mp hin)) (Nat.lt_irrefl _)
  refine ⟨⟨fun t ht p hp => ?_, ?_, fun t ht => ?_, ?_, fun x hx => ?_, fun f hf => ?_,
    fun x c hc r hr => ?_, h.shape.refs, h.shape.refs_inj, fun r x hx => ?_, h.shape.cleared⟩,
    fun t ht => ?_, fun x hx c hc r hr _ => ?_, fun x c hc => ?_,
    ⟨hpush.links, hpush.size, hpush.order, hpush.past⟩, fun x => ?_, fun x hx c hc r hr hcl => ?_⟩
  · -- Slots lead to entries with their keys.
    show ∃ c, Function.update s.heap s.nextEntry _ p.2 = some c ∧ _
    have hin : ∀ u ∈ s.entries, p ∈ u.2 → ∃ c, Function.update s.heap s.nextEntry
        (some { threadId, wrKey, key }) p.2 = some c ∧ c.wrKey = u.1 ∧ c.key = p.1 := fun u hu hp => by
      obtain ⟨c, hc, hkeys⟩ := h.shape.slot u hu p hp
      have hne : p.2 ≠ s.nextEntry := Nat.ne_of_lt (halive _ c hc)
      exact ⟨c, by rw [hheap _ hne, hc], hkeys⟩
    rcases hslots t ht with ht | rfl
    · exact hin t ht hp
    · rcases List.mem_append.mp hp with hp | hp
      · exact hin (wrKey, cache) (hcache p hp) hp
      · obtain rfl := List.mem_singleton.mp hp
        exact ⟨_, hself, rfl, rfl⟩
  · show (mappedOf (before ++ (wrKey, cache ++ [(key, s.nextEntry)]) :: after)).Nodup
    have hperm : (mappedOf (before ++ (wrKey, cache ++ [(key, s.nextEntry)]) :: after)).Perm
        (s.nextEntry :: s.mapped) := by
      rw [hmapped, mappedOf_append, mappedOf_cons, List.map_append]
      simp only [List.map_cons, List.map_nil, List.append_assoc, List.singleton_append]
      refine (List.Perm.append_left _ ?_).trans List.perm_middle
      exact List.perm_middle
    exact hperm.nodup_iff.mpr (List.nodup_cons.mpr
      ⟨fun hin => absurd (hnew _ hin) (Nat.lt_irrefl _), h.shape.nodup⟩)
  · rcases hslots t ht with ht | rfl
    · exact h.shape.nonempty t ht
    · simp
  · show ((before ++ (wrKey, cache ++ [(key, s.nextEntry)]) :: after).map _).Nodup
    simpa using hweak
  · have hge : s.nextEntry + 1 ≤ x := hx
    have hne : x ≠ s.nextEntry := by omega
    exact (hheap x hne).trans (h.shape.fresh x (by omega))
  · show ∃ c, Function.update s.heap s.nextEntry _ f.entry = some c
    rcases List.mem_cons.mp hf with rfl | hf
    · exact ⟨_, hself⟩
    · obtain ⟨c, hc⟩ := h.shape.held f hf
      exact ⟨c, (hheap _ (Nat.ne_of_lt (halive _ c hc))).trans hc⟩
  · have hc : Function.update s.heap s.nextEntry (some { threadId, wrKey, key }) x = some c := hc
    by_cases hx : x = s.nextEntry
    · subst hx
      rw [hself] at hc
      injection hc with hc
      subst hc
      exact hmade r hr
    · rw [hheap x hx] at hc
      exact h.shape.made x c hc r hr
  · -- The reverse index.
    show ∃ c, Function.update s.heap s.nextEntry _ x = some c ∧ _
    have hx : x ∈ (if r ∈ WeakKey.ids wrKey then s.nextEntry :: s.reverseIndex r
      else s.reverseIndex r) := hx
    have hin : x ∈ s.reverseIndex r → ∃ c, Function.update s.heap s.nextEntry
        (some { threadId, wrKey, key }) x = some c ∧ r ∈ WeakKey.ids c.wrKey := fun hx => by
      obtain ⟨c, hc, hr⟩ := h.shape.reverse r x hx
      exact ⟨c, (hheap x (Nat.ne_of_lt (halive x c hc))).trans hc, hr⟩
    split at hx
    · rename_i hr
      rcases List.mem_cons.mp hx with rfl | hx
      · exact ⟨_, hself, hr⟩
      · exact hin hx
    · exact hin hx
  · rcases hslots t ht with ht | rfl
    · exact h.distinct t ht
    · refine List.pairwise_append.mpr ⟨?_, List.pairwise_singleton _ _, fun p hp q hq => ?_⟩
      · rcases List.eq_nil_or_concat cache with rfl | ⟨c, p, rfl⟩
        · exact List.Pairwise.nil
        · exact h.distinct (wrKey, _) (hcache p (by simp))
      · rw [List.mem_singleton.mp hq]
        exact findStrong_none hI hD hnone p hp
  · show x ∈ (if r ∈ WeakKey.ids wrKey then s.nextEntry :: s.reverseIndex r else s.reverseIndex r)
    have hc : Function.update s.heap s.nextEntry (some { threadId, wrKey, key }) x = some c := hc
    rcases (hmem x).mp hx with hx | rfl
    · rw [hheap x (Nat.ne_of_lt (hnew x hx))] at hc
      have hin := h.indexed x hx c hc r hr id
      split
      · exact List.mem_cons_of_mem _ hin
      · exact hin
    · rw [hself] at hc
      injection hc with hc
      subst hc
      rw [if_pos hr]
      exact List.mem_cons_self
  · have hc : Function.update s.heap s.nextEntry (some { threadId, wrKey, key }) x = some c := hc
    by_cases hx : x = s.nextEntry
    · exact .inl ((hmem x).mpr (.inr hx))
    · rw [hheap x hx] at hc
      rcases h.owned x c hc with hm | ⟨f, hf, hfx⟩ | hd
      · exact .inl ((hmem x).mpr (.inl hm))
      · exact .inr (.inl ⟨f, List.mem_cons_of_mem _ hf, hfx⟩)
      · exact absurd hd (by simp)
  · refine Iff.trans ?_ (hmem x).symm
    rw [List.mem_cons, h.listed, or_comm]
  · have hc : Function.update s.heap s.nextEntry (some { threadId, wrKey, key }) x = some c := hc
    rcases (hmem x).mp hx with hx | rfl
    · rw [hheap x (Nat.ne_of_lt (hnew x hx))] at hc
      exact h.dying x hx c hc r hr hcl
    · rw [hself] at hc
      injection hc with hc
      subst hc
      have hcl : s.cleared r = true := hcl
      rw [hlive r hr] at hcl
      exact absurd hcl (by simp)

/-- **A hit.** The entry moves to the front of the LRU list. -/
theorem Settled.hit (h : Settled I s is []) (wrKey : WeakKey Obj) (key : StrongKey Obj Def) {e : ℕ}
    (he : e ∈ s.mapped) (threadId : ℕ) (call : Call) :
    Settled I ((s.moveToFront e).serve threadId call e false wrKey key) (e :: is.erase e) [] := by
  obtain ⟨t, ht, p, hp, rfl⟩ := mem_mappedOf.mp he
  obtain ⟨c, hc, _⟩ := h.shape.slot t ht p hp
  have hpush := (h.lru.unlinkIfLinked p.2).pushFront (e := p.2) fun hin =>
    (h.lru.links.nodup.mem_erase_iff.mp hin).1 rfl
  obtain ⟨links, size, hu⟩ := unlinkIfLinked_fields (s := s) p.2
  unfold State.moveToFront
  rw [hu] at hpush ⊢
  have hheld : ∀ f ∈ (⟨s.nextFrame, threadId, p.2, false⟩ : Frame) :: s.frames,
      ∃ c, s.heap f.entry = some c := fun f hf => by
    rcases List.mem_cons.mp hf with rfl | hf
    · exact ⟨c, hc⟩
    · exact h.shape.held f hf
  refine ⟨{ h.shape with held := hheld }, h.distinct, h.indexed, fun x c hx => ?_,
    ⟨hpush.links, hpush.size, hpush.order, hpush.past⟩, fun x => ?_, h.dying⟩
  · rcases h.owned x c hx with hm | ⟨f, hf, hfx⟩ | hd
    · exact .inl hm
    · exact .inr (.inl ⟨f, List.mem_cons_of_mem _ hf, hfx⟩)
    · exact absurd hd (by simp)
  · refine Iff.trans ?_ (h.listed x)
    rw [List.mem_cons, h.lru.links.nodup.mem_erase_iff]
    by_cases hx : x = p.2
    · simp [hx, (h.listed _).mpr he]
    · simp [hx]

theorem Settled.withQueries (h : Settled I s is deferred) (queries : ℤ) :
    Settled I { s with totalQueries := queries } is deferred :=
  ⟨h.shape.congr rfl rfl rfl rfl rfl rfl rfl rfl, h.distinct, h.indexed, h.owned,
    ⟨h.lru.links, h.lru.size, h.lru.order, h.lru.past⟩, h.listed, h.dying⟩

/-- What a call leaves behind when it lets go of the lock. -/
structure Entered (I : Interp Obj Def) (cfg : Config Obj Def Call) (s s' : State Obj Def Call)
    (is is' : List ℕ) : Prop where
  settled : Settled I s' is' []
  room : 0 < cfg.maxsize → (is.length : ℤ) ≤ cfg.maxsize → (is'.length : ℤ) ≤ cfg.maxsize
  /-- An evicted entry is the least recently used one. -/
  evicted : ∀ x ∈ s.mapped, x ∉ s'.mapped → ∀ y ∈ s.mapped, y ≠ x → s.lastUse x < s.lastUse y
  frames : ∃ f, s'.frames = f :: s.frames ∧ (s'.nextEntry ≠ s.nextEntry → f.entry = s.nextEntry)

/-- The count of queries does not matter. -/
theorem Entered.of_queries {cfg : Config Obj Def Call} {s' : State Obj Def Call} {is' : List ℕ}
    {queries : ℤ} (h : Entered I cfg { s with totalQueries := queries } s' is is') :
    Entered I cfg s s' is is' :=
  ⟨h.settled, h.room, h.evicted, h.frames⟩

/-- A miss, up to the eviction for want of room. -/
theorem Settled.enter_miss (hI : I.PyLaws) (hD : I.DefLaws) (cfg : Config Obj Def Call)
    (h : Settled I s is []) (hs : s.entries = State.putCache before wrKey cache after)
    (hweak : ((before ++ (wrKey, cache) :: after).map fun t => WeakKey.ids t.1).Nodup)
    (hmade : ∀ r ∈ wrKey, r ∈ s.refs) (hlive : ∀ r ∈ WeakKey.ids wrKey, s.cleared r = false)
    (hnone : State.findStrong I cache key = none) (threadId : ℕ) (call : Call) :
    let s' := (s.insert threadId before wrKey cache after key).serve threadId call s.nextEntry true
      wrKey key
    ∃ is', Entered I cfg s (if 0 < cfg.maxsize ∧ cfg.maxsize < s'.lruSize then
      s'.evictLeastRecentlyUsed I else s') is is' := by
  intro s'
  have hnew : Settled I s' (s.nextEntry :: is) [] :=
    h.insert hI hD hs hweak hmade hlive hnone threadId call
  have hsize : s'.lruSize = (s.nextEntry :: is).length := hnew.lru.size
  have hkept : ∀ x ∈ s.mapped, x ∈ s'.mapped := fun x hx =>
    (hnew.listed x).mp (List.mem_cons_of_mem _ ((h.listed x).mpr hx))
  split
  · rename_i hfull
    -- Some older entry is last in the list.
    have hne : is ≠ [] := by
      rintro rfl
      rw [hsize] at hfull
      simp only [List.length_cons, List.length_nil] at hfull
      omega
    obtain ⟨js, e, rfl⟩ := (List.eq_nil_or_concat' is).resolve_left hne
    have hsplit : s.nextEntry :: (js ++ [e]) = (s.nextEntry :: js) ++ [e] := rfl
    rw [hsplit] at hnew
    obtain ⟨hevict, hmem⟩ := hnew.evictLeastRecentlyUsed hI hD
    obtain ⟨entries, heap, index, links, size, hf⟩ := evictLeastRecentlyUsed_fields (I := I) s'
    refine ⟨s.nextEntry :: js, hevict, fun _ hroom => ?_, fun x hx hx' y hy hyx => ?_, ?_⟩
    · simpa using hroom
    · have hxe : x = e := by
        by_contra hne'
        exact hx' ((hmem x).mpr ⟨hkept x hx, hne'⟩)
      subst hxe
      have hyjs : y ∈ js := by
        have hy' := (h.listed y).mpr hy
        rcases List.mem_append.mp hy' with hy' | hy'
        · exact hy'
        · exact absurd (List.mem_singleton.mp hy') hyx
      exact (List.pairwise_append.mp h.lru.order).2.2 y hyjs x (by simp)
    · rw [hf]
      exact ⟨_, rfl, fun _ => rfl⟩
  · rename_i hroom
    refine ⟨s.nextEntry :: is, hnew, fun hpos _ => ?_, fun x hx hx' => absurd (hkept x hx) hx',
      _, rfl, fun _ => rfl⟩
    rw [← hsize]
    by_contra hlt
    exact hroom ⟨hpos, by omega⟩

/-- **A call takes the lock.** Its weakrefs are new ones. -/
theorem Settled.enter (hI : I.PyLaws) (hD : I.DefLaws) (cfg : Config Obj Def Call)
    (h : Settled I s is []) (hmade : ∀ r ∈ wrKey, r ∈ s.refs)
    (hfresh : ∀ r ∈ WeakKey.ids wrKey, s.cleared r = false ∧
      ∀ t ∈ s.entries, r ∉ WeakKey.ids t.1) (threadId : ℕ) (call : Call) :
    ∃ is', Entered I cfg s (s.enter I cfg threadId call wrKey key) is is' := by
  have hq := h.withQueries (s.totalQueries + 1)
  unfold State.enter
  dsimp only
  have hfind : State.findWeak I { s with totalQueries := s.totalQueries + 1 } wrKey =
      s.findWeak I wrKey := rfl
  rw [hfind]
  cases hweak : s.findWeak I wrKey with
  | none =>
      rw [Option.getD_none]
      have hnil : State.findStrong I [] key = none := rfl
      dsimp only
      rw [hnil]
      refine (hq.enter_miss hI hD cfg (List.append_nil _).symm ?_ hmade
        (fun r hr => (hfresh r hr).1) hnil threadId call).imp fun _ => Entered.of_queries
      rw [List.map_append, List.nodup_append]
      refine ⟨h.shape.weak, by simp, fun a ha b hb hab => ?_⟩
      obtain ⟨t, ht, rfl⟩ := List.mem_map.mp ha
      obtain rfl : b = WeakKey.ids wrKey := by simpa using hb
      cases wrKey with
      | cons r k =>
          exact (hfresh r.id (by simp)).2 t ht (by rw [hab]; simp)
      | nil =>
          -- A slot without weakrefs would have been found.
          have hnil : t.1 = [] := List.map_eq_nil_iff.mp hab
          have hslot := find_none hweak t ht
          rw [hnil, hI.reaches_self] at hslot
          exact absurd hslot (by simp [WeakKey.equal, listsEqual])
  | some found =>
      obtain ⟨before, ⟨wrKey', cache⟩, after⟩ := found
      obtain ⟨hs, hp, _⟩ := find_some hweak
      have hslot : (wrKey', cache) ∈ s.entries := by rw [hs]; simp
      rw [Option.getD_some]
      dsimp only
      cases hstrong : State.findStrong I cache key with
      | none =>
          obtain ⟨p, hpc⟩ := List.exists_mem_of_ne_nil cache (h.shape.nonempty _ hslot)
          obtain ⟨c, hc, hw, _⟩ := h.shape.slot _ hslot p hpc
          dsimp only at hw
          dsimp only
          refine (hq.enter_miss hI hD cfg
            (hs.trans (putCache_self (h.shape.nonempty (wrKey', cache) hslot)).symm)
            (hs ▸ h.shape.weak) (fun r hr => h.shape.made _ c hc r (hw ▸ hr)) (fun r hr => ?_)
            hstrong threadId call).imp fun _ => Entered.of_queries
          -- A new weakref equals one that has not been cleared.
          obtain ⟨w, hwr, rfl⟩ := List.mem_map.mp hr
          have hall := listsEqual_iff.mp (Bool.and_eq_true_iff.mp hp).2
          obtain ⟨i, hi, rfl⟩ := List.getElem_of_mem hwr
          have hlen := hall.length_eq
          have hpair := (List.forall₂_iff_get.mp hall).2 i hi (hlen ▸ hi)
          simp only [List.get_eq_getElem, WeakRef.equal, Bool.or_eq_true, Bool.and_eq_true,
            Bool.not_eq_true', beq_iff_eq] at hpair
          rcases hpair with hid | ⟨⟨hcl, _⟩, _⟩
          · refine absurd (List.mem_map_of_mem hwr) ((hfresh _ ?_).2 _ hslot)
            show (wrKey'[i]).id ∈ _
            rw [hid]
            exact List.mem_map_of_mem (List.getElem_mem _)
          · exact hcl
      | some found =>
          obtain ⟨b, ⟨k, e⟩, a⟩ := found
          obtain ⟨hcache, _, _⟩ := find_some hstrong
          have he : e ∈ s.mapped := mem_mappedOf.mpr ⟨_, hslot, (k, e), by rw [hcache]; simp, rfl⟩
          have hhit := hq.hit wrKey' k he threadId call
          dsimp only
          refine ⟨e :: is.erase e, hhit, fun _ hroom => ?_, fun x hx hx' => ?_, ?_⟩
          · have hpos := List.length_pos_of_mem ((h.listed e).mpr he)
            rw [List.length_cons, List.length_erase_of_mem ((h.listed e).mpr he)]
            omega
          · refine absurd ((hhit.listed x).mp ?_) hx'
            rw [List.mem_cons, h.lru.links.nodup.mem_erase_iff]
            by_cases hxe : x = e
            · exact .inl hxe
            · exact .inr ⟨hxe, (h.listed x).mpr hx⟩
          · obtain ⟨links, size, hu⟩ := unlinkIfLinked_fields
              (s := { s with totalQueries := s.totalQueries + 1 }) e
            unfold State.moveToFront
            rw [hu]
            exact ⟨_, rfl, fun hne => absurd rfl hne⟩

end Calls

end JaxDas.WeakrefCache
