import JaxDas.WeakrefCache.Steps

/-!
# What an entry is served for

An entry keeps the keys it was made with for as long as it is in the map, and its
number is not used again. So all calls that one entry serves were compared with one
pair of keys (`served_sameKeys`). This asks less of the comparisons than the agreement
of the indexes does: nothing is assumed about tree definitions.
-/

namespace JaxDas.WeakrefCache

open SlotTable

variable {Obj Def Call : Type} {I : Interp Obj Def} {cfg : Config Obj Def Call}
  {s s' : State Obj Def Call}

/-- The slots of `ts` are slots of `us`, or what is left of them. -/
def SubSlots (ts us : List (Slot Obj Def)) : Prop :=
  ∀ t ∈ ts, ∃ u ∈ us, u.1 = t.1 ∧ ∀ p ∈ t.2, p ∈ u.2

theorem SubSlots.refl (ts : List (Slot Obj Def)) : SubSlots ts ts :=
  fun t ht => ⟨t, ht, rfl, fun _ hp => hp⟩

theorem SubSlots.trans {ts us vs : List (Slot Obj Def)} (h : SubSlots ts us) (h' : SubSlots us vs) :
    SubSlots ts vs := by
  intro t ht
  obtain ⟨u, hu, hut, hsub⟩ := h t ht
  obtain ⟨v, hv, hvu, hsub'⟩ := h' u hu
  exact ⟨v, hv, hvu.trans hut, fun p hp => hsub' p (hsub p hp)⟩

theorem SubSlots.append (before after : List (Slot Obj Def)) (t : Slot Obj Def) :
    SubSlots (before ++ after) (before ++ t :: after) := by
  intro u hu
  refine ⟨u, ?_, rfl, fun _ hp => hp⟩
  rw [List.mem_append, List.mem_cons]
  exact (List.mem_append.mp hu).imp_right .inr

theorem SubSlots.putCache {before after : List (Slot Obj Def)} {wrKey : WeakKey Obj}
    {cache cache' : List (StrongKey Obj Def × ℕ)} (h : ∀ p ∈ cache', p ∈ cache) :
    SubSlots (State.putCache before wrKey cache' after) (before ++ (wrKey, cache) :: after) := by
  intro t ht
  rcases mem_putCache ht with ht | ⟨rfl, _⟩
  · exact SubSlots.append before after _ t ht
  · exact ⟨(wrKey, cache), by simp, rfl, h⟩

/-! ## Evictions -/

theorem mem_of_mem_erased {b a : List (StrongKey Obj Def × ℕ)} {p : StrongKey Obj Def × ℕ} :
    ∀ q ∈ b ++ a, q ∈ b ++ p :: a := fun q hq => by
  rw [List.mem_append, List.mem_cons]
  exact (List.mem_append.mp hq).imp_right .inr

theorem evictEntry_sub (s : State Obj Def Call) (e : ℕ) :
    SubSlots (s.evictEntry I e).1.entries s.entries := by
  unfold State.evictEntry
  split
  · exact .refl _
  · rename_i c _
    obtain ⟨links, size, hu⟩ := unlinkIfLinked_fields (s := s) e
    dsimp only
    rw [findWeakPointer_unlinkIfLinked]
    cases hweak : s.findWeakPointer I c.wrKey with
    | none => rw [hu]; exact .refl _
    | some found =>
        obtain ⟨before, ⟨wrKey, cache⟩, after⟩ := found
        dsimp only
        rw [(findWeakPointer_ok hweak).1]
        cases hstrong : State.findStrongPointer I cache c.key with
        | none => exact .putCache fun _ hp => hp
        | some found =>
            obtain ⟨b, ⟨k, e'⟩, a⟩ := found
            rw [(findStrongPointer_ok hstrong).1]
            exact .putCache mem_of_mem_erased

theorem evictEntries_sub : ∀ (es : List ℕ) (s : State Obj Def Call),
    SubSlots (s.evictEntries I es).1.entries s.entries
  | [], _ => .refl _
  | e :: es, s => (evictEntries_sub es (s.evictEntry I e).1).trans (evictEntry_sub s e)

theorem evictWeakref_sub (s : State Obj Def Call) (r : ℕ) :
    SubSlots (s.evictWeakref I r).entries s.entries := by
  have hsub := evictEntries_sub (I := I) (I.order (s.reverseIndex r))
    { s with reverseIndex := Function.update s.reverseIndex r [] }
  unfold State.evictWeakref
  dsimp only
  obtain ⟨_, _, _, _, hrel, _⟩ := releaseAll_fields (State.evictEntries I
    { s with reverseIndex := Function.update s.reverseIndex r [] } (I.order (s.reverseIndex r))).2
    (State.evictEntries I
      { s with reverseIndex := Function.update s.reverseIndex r [] } (I.order (s.reverseIndex r))).1
  rw [hrel]
  exact hsub

theorem evictLeastRecentlyUsed_sub (s : State Obj Def Call) :
    SubSlots (s.evictLeastRecentlyUsed I).entries s.entries := by
  unfold State.evictLeastRecentlyUsed
  split
  · exact .refl _
  · rename_i tail _
    split
    · exact .refl _
    · rename_i c _
      obtain ⟨links, size, hu⟩ := unlinkIfLinked_fields (s := s) tail
      dsimp only
      rw [findWeakPointer_unlinkIfLinked]
      cases hweak : s.findWeakPointer I c.wrKey with
      | none => rw [hu]; exact .refl _
      | some found =>
          obtain ⟨before, ⟨wrKey, cache⟩, after⟩ := found
          dsimp only
          cases hstrong : State.findStrongPointer I cache c.key with
          | none => rw [hu]; exact .refl _
          | some found =>
              obtain ⟨b, ⟨k, e⟩, a⟩ := found
              dsimp only
              obtain ⟨_, _, _, _, hrel, _⟩ := release_fields { s.unlinkIfLinked tail with
                entries := State.putCache before wrKey (b ++ a) after } e
              rw [hrel, (findWeakPointer_ok hweak).1, (findStrongPointer_ok hstrong).1]
              exact .putCache mem_of_mem_erased

theorem evictWeakKey_fields (s : State Obj Def Call) (k : WeakKey Obj) :
    ∃ entries heap index links size, s.evictWeakKey I k =
      { s with entries := entries, heap := heap, reverseIndex := index, links := links,
               lruSize := size } ∧ SubSlots entries s.entries := by
  unfold State.evictWeakKey
  cases hweak : s.findWeak I k with
  | none => exact ⟨_, _, _, _, _, rfl, .refl _⟩
  | some found =>
      obtain ⟨before, ⟨wrKey, cache⟩, after⟩ := found
      obtain ⟨links, size, hu⟩ := foldl_unlinkIfLinked_fields (cache.map Prod.snd) s
      dsimp only
      rw [hu]
      obtain ⟨_, _, _, _, hrel, _⟩ := releaseAll_fields (cache.map Prod.snd)
        { s with links := links, lruSize := size, entries := before ++ after }
      rw [hrel]
      exact ⟨_, _, _, _, _, rfl, by rw [(find_some hweak).1]; exact .append before after _⟩

/-! ## The record of what was served -/

/-- The call was compared with the keys of the entry, which were made for a call too. -/
structure ServedBy (I : Interp Obj Def) (cfg : Config Obj Def Call) (sv : Served Obj Def Call) :
    Prop where
  compared : ∃ os k, cfg.makeKey sv.call = some (os, k) ∧
    List.Forall₂ (fun r o => I.eq (WeakRef.referent r) o = true) sv.wrKey os ∧
      (sv.key = k ∨ StrongKey.equal I sv.key k = true)
  made : ∃ c os, cfg.makeKey c = some (os, sv.key)

/-- What the record of a cache says about the slots of its map. -/
structure Recorded (I : Interp Obj Def) (cfg : Config Obj Def Call) (s : State Obj Def Call) :
    Prop where
  entries : ∀ t ∈ s.entries, ∀ p ∈ t.2, p.2 < s.nextEntry
  refs : ∀ t ∈ s.entries, ∀ r ∈ t.1, r.id < s.nextRef
  made : ∀ t ∈ s.entries, ∀ p ∈ t.2, ∃ c os, cfg.makeKey c = some (os, p.1)
  unique : ∀ t ∈ s.entries, ∀ p ∈ t.2, ∀ u ∈ s.entries, ∀ q ∈ u.2, p.2 = q.2 → t.1 = u.1 ∧ p.1 = q.1
  served : ∀ sv ∈ s.served, sv.entry < s.nextEntry
  slot : ∀ t ∈ s.entries, ∀ p ∈ t.2, ∀ sv ∈ s.served, sv.entry = p.2 → sv.wrKey = t.1 ∧ sv.key = p.1
  agree : ∀ sv ∈ s.served, ∀ sv' ∈ s.served, sv.entry = sv'.entry →
    sv.wrKey = sv'.wrKey ∧ sv.key = sv'.key
  fits : ∀ sv ∈ s.served, ServedBy I cfg sv

/-- Taking slots away, and making weakrefs, leaves the record as it is. -/
theorem Recorded.sub (h : Recorded I cfg s) (hsub : SubSlots s'.entries s.entries)
    (hserved : s'.served = s.served) (hentry : s'.nextEntry = s.nextEntry)
    (href : s.nextRef ≤ s'.nextRef) : Recorded I cfg s' := by
  constructor
  · intro t ht p hp
    obtain ⟨u, hu, _, hpu⟩ := hsub t ht
    rw [hentry]
    exact h.entries u hu p (hpu p hp)
  · intro t ht r hr
    obtain ⟨u, hu, hut, _⟩ := hsub t ht
    exact Nat.lt_of_lt_of_le (h.refs u hu r (hut ▸ hr)) href
  · intro t ht p hp
    obtain ⟨u, hu, _, hpu⟩ := hsub t ht
    exact h.made u hu p (hpu p hp)
  · intro t ht p hp u hu q hq hpq
    obtain ⟨t', ht', htt, hpt⟩ := hsub t ht
    obtain ⟨u', hu', huu, hqu⟩ := hsub u hu
    rw [← htt, ← huu]
    exact h.unique t' ht' p (hpt p hp) u' hu' q (hqu q hq) hpq
  · rw [hserved, hentry]
    exact h.served
  · intro t ht p hp sv hsv he
    obtain ⟨u, hu, hut, hpu⟩ := hsub t ht
    rw [hserved] at hsv
    rw [← hut]
    exact h.slot u hu p (hpu p hp) sv hsv he
  · rw [hserved]
    exact h.agree
  · rw [hserved]
    exact h.fits

/-- Serving a call with an entry that has its keys. -/
theorem Recorded.serve (h : Recorded I cfg s) (sv : Served Obj Def Call) (hfits : ServedBy I cfg sv)
    (hslot : ∃ t ∈ s.entries, ∃ p ∈ t.2, sv.entry = p.2 ∧ sv.wrKey = t.1 ∧ sv.key = p.1)
    (hentries : s'.entries = s.entries) (hserved : s'.served = sv :: s.served)
    (hentry : s'.nextEntry = s.nextEntry) (href : s'.nextRef = s.nextRef) : Recorded I cfg s' := by
  obtain ⟨t, ht, p, hp, he, hw, hk⟩ := hslot
  have hsub : Recorded I cfg { s with nextRef := s'.nextRef } :=
    h.sub (.refl _) rfl rfl (le_of_eq href.symm)
  refine ⟨?_, ?_, ?_, ?_, ?_, ?_, ?_, ?_⟩
  · rw [hentries, hentry]; exact h.entries
  · rw [hentries]; exact hsub.refs
  · rw [hentries]; exact h.made
  · rw [hentries]; exact h.unique
  · rw [hserved, hentry]
    exact List.forall_mem_cons.mpr ⟨by rw [he]; exact h.entries t ht p hp, h.served⟩
  · rw [hentries, hserved]
    intro u hu q hq
    refine List.forall_mem_cons.mpr ⟨fun hsq => ?_, h.slot u hu q hq⟩
    obtain ⟨h₁, h₂⟩ := h.unique t ht p hp u hu q hq (he.symm.trans hsq)
    exact ⟨hw.trans h₁, hk.trans h₂⟩
  · have hold : ∀ sv' ∈ s.served, sv'.entry = sv.entry → sv'.wrKey = sv.wrKey ∧ sv'.key = sv.key := by
      intro sv' hsv' hee
      obtain ⟨h₁, h₂⟩ := h.slot t ht p hp sv' hsv' (hee.trans he)
      exact ⟨h₁.trans hw.symm, h₂.trans hk.symm⟩
    rw [hserved]
    intro a ha b hb hab
    rcases List.mem_cons.mp ha with ha' | ha' <;> rcases List.mem_cons.mp hb with hb' | hb'
    · rw [ha', hb']; exact ⟨rfl, rfl⟩
    · obtain ⟨h₁, h₂⟩ := hold b hb' (hab.symm.trans (by rw [ha']))
      rw [ha']
      exact ⟨h₁.symm, h₂.symm⟩
    · rw [hb']
      exact hold a ha' (hab.trans (by rw [hb']))
    · exact h.agree a ha' b hb' hab
  · rw [hserved]
    exact List.forall_mem_cons.mpr ⟨hfits, h.fits⟩

/-- A new entry. -/
theorem Recorded.add (h : Recorded I cfg s) {before after : List (Slot Obj Def)} {wrKey : WeakKey Obj}
    {cache : List (StrongKey Obj Def × ℕ)} {key : StrongKey Obj Def}
    (hold : ∀ u ∈ before ++ after, u ∈ s.entries) (hcache : cache ≠ [] → (wrKey, cache) ∈ s.entries)
    (hrefs : ∀ r ∈ wrKey, r.id < s.nextRef) (hmade : ∃ c os, cfg.makeKey c = some (os, key))
    (hentries : s'.entries = before ++ (wrKey, cache ++ [(key, s.nextEntry)]) :: after)
    (hserved : s'.served = s.served) (hentry : s'.nextEntry = s.nextEntry + 1)
    (href : s'.nextRef = s.nextRef) : Recorded I cfg s' := by
  -- A slot of the new map is one of the old, or it is the new one.
  have hslots : ∀ t ∈ s'.entries, ∀ p ∈ t.2, (∃ u ∈ s.entries, u.1 = t.1 ∧ p ∈ u.2) ∨
      t.1 = wrKey ∧ p = (key, s.nextEntry) := by
    intro t ht p hp
    rw [hentries, List.mem_append, List.mem_cons] at ht
    rcases ht with ht | rfl | ht
    · exact .inl ⟨t, hold t (List.mem_append_left _ ht), rfl, hp⟩
    · rcases List.mem_append.mp hp with hp | hp
      · exact .inl ⟨(wrKey, cache), hcache (List.ne_nil_of_mem hp), rfl, hp⟩
      · exact .inr ⟨rfl, List.mem_singleton.mp hp⟩
    · exact .inl ⟨t, hold t (List.mem_append_right _ ht), rfl, hp⟩
  refine ⟨fun t ht p hp => ?_, fun t ht r hr => ?_, fun t ht p hp => ?_, fun t ht p hp u hu q hq hpq => ?_,
    fun sv hsv => ?_, fun t ht p hp sv hsv he => ?_, ?_, ?_⟩
  · rw [hentry]
    rcases hslots t ht p hp with ⟨u, hu, _, hpu⟩ | ⟨_, rfl⟩
    · exact Nat.lt_succ_of_lt (h.entries u hu p hpu)
    · exact Nat.lt_succ_self _
  · rw [href]
    rw [hentries, List.mem_append, List.mem_cons] at ht
    rcases ht with ht | rfl | ht
    · exact h.refs t (hold t (List.mem_append_left _ ht)) r hr
    · exact hrefs r hr
    · exact h.refs t (hold t (List.mem_append_right _ ht)) r hr
  · rcases hslots t ht p hp with ⟨u, hu, _, hpu⟩ | ⟨_, rfl⟩
    · exact h.made u hu p hpu
    · exact hmade
  · rcases hslots t ht p hp with ⟨t', ht', htt, hpt⟩ | ⟨ht, rfl⟩ <;>
      rcases hslots u hu q hq with ⟨u', hu', huu, hqu⟩ | ⟨hu, rfl⟩
    · rw [← htt, ← huu]
      exact h.unique t' ht' p hpt u' hu' q hqu hpq
    · exact absurd (h.entries t' ht' p hpt) (by rw [hpq]; exact Nat.lt_irrefl _)
    · exact absurd (h.entries u' hu' q hqu) (by rw [← hpq]; exact Nat.lt_irrefl _)
    · exact ⟨ht.trans hu.symm, rfl⟩
  · rw [hentry]
    exact Nat.lt_succ_of_lt (h.served sv (hserved ▸ hsv))
  · rw [hserved] at hsv
    rcases hslots t ht p hp with ⟨u, hu, hut, hpu⟩ | ⟨_, rfl⟩
    · rw [← hut]
      exact h.slot u hu p hpu sv hsv he
    · exact absurd (h.served sv hsv) (by rw [he]; exact Nat.lt_irrefl _)
  · rw [hserved]; exact h.agree
  · rw [hserved]; exact h.fits

/-! ## Steps and runs -/

/-- New weakrefs equal the ones of a slot only if the objects do. -/
theorem eq_of_findWeak (h : Recorded I cfg s) {os : List Obj} {before after : List (Slot Obj Def)}
    {wrKey : WeakKey Obj} {cache : List (StrongKey Obj Def × ℕ)}
    (hfind : s.findWeak I (State.makeRefs s.nextRef os) = some (before, (wrKey, cache), after)) :
    List.Forall₂ (fun r o => I.eq (WeakRef.referent r) o = true) wrKey os := by
  obtain ⟨hs, hp, _⟩ := find_some hfind
  have hall := listsEqual_iff.mp (Bool.and_eq_true_iff.mp hp).2
  have hold : ∀ r ∈ wrKey, r.id < s.nextRef := h.refs (wrKey, cache) (by rw [hs]; simp)
  dsimp only at hall
  clear hp hfind hs
  have key : ∀ (os : List Obj) (wrKey : WeakKey Obj) (i : ℕ), s.nextRef ≤ i →
      (∀ r ∈ wrKey, r.id < s.nextRef) →
      List.Forall₂ (fun a b => WeakRef.equal I s.cleared a b = true) wrKey (State.makeRefs i os) →
      List.Forall₂ (fun r o => I.eq (WeakRef.referent r) o = true) wrKey os := by
    intro os
    induction os with
    | nil =>
        intro wrKey i _ _ h
        cases h
        exact .nil
    | cons o os ih =>
        intro wrKey i hi hold h
        cases h with
        | @cons r _ k _ hr hrest =>
            refine .cons ?_ (ih k (i + 1) (by omega) (fun r hr => hold r (List.mem_cons_of_mem _ hr)) hrest)
            simp only [WeakRef.equal, Bool.or_eq_true, Bool.and_eq_true, beq_iff_eq] at hr
            rcases hr with hid | ⟨_, heq⟩
            · have hlt := hold r List.mem_cons_self
              omega
            · exact heq
  exact key os wrKey s.nextRef (le_refl _) hold hall

/-- A new key equals itself. -/
theorem forall₂_makeRefs (hI : I.PyLaws) : ∀ (os : List Obj) (i : ℕ),
    List.Forall₂ (fun r o => I.eq (WeakRef.referent r) o = true) (State.makeRefs i os) os
  | [], _ => .nil
  | o :: os, i => .cons (hI.eq_of_is (hI.is_refl o)) (forall₂_makeRefs hI os (i + 1))

/-- **A call takes the lock**, and what it is served with is recorded. -/
theorem Recorded.enter (hI : I.PyLaws) (h : Recorded I cfg s) (threadId : ℕ) {call : Call}
    {os : List Obj} {key : StrongKey Obj Def} (hmake : cfg.makeKey call = some (os, key)) :
    Recorded I cfg ((s.withRefs os).enter I cfg threadId call (State.makeRefs s.nextRef os) key) := by
  have hw : Recorded I cfg { s.withRefs os with totalQueries := s.totalQueries + 1 } :=
    h.sub (.refl _) rfl rfl (Nat.le_add_right _ _)
  -- A miss, up to the eviction for want of room.
  have hmiss : ∀ (before after : List (Slot Obj Def)) (wrKey : WeakKey Obj)
      (cache : List (StrongKey Obj Def × ℕ)), (∀ u ∈ before ++ after, u ∈ s.entries) →
      (cache ≠ [] → (wrKey, cache) ∈ s.entries) → (∀ r ∈ wrKey, r.id < s.nextRef + os.length) →
      List.Forall₂ (fun r o => I.eq (WeakRef.referent r) o = true) wrKey os →
      ∀ s₁, s₁ = (State.insert { s.withRefs os with totalQueries := s.totalQueries + 1 } threadId before
        wrKey cache after key).serve threadId call s.nextEntry true wrKey key →
      Recorded I cfg (if 0 < cfg.maxsize ∧ cfg.maxsize < s₁.lruSize then s₁.evictLeastRecentlyUsed I
        else s₁) := by
    intro before after wrKey cache hold hcache hrefs hwr s₁ hs₁
    have hadd : Recorded I cfg (State.insert { s.withRefs os with totalQueries := s.totalQueries + 1 }
        threadId before wrKey cache after key) :=
      hw.add hold hcache hrefs ⟨call, os, hmake⟩ rfl rfl rfl rfl
    have hserve : Recorded I cfg s₁ := by
      rw [hs₁]
      refine hadd.serve _ ⟨⟨os, key, hmake, hwr, .inl rfl⟩, call, os, hmake⟩ ?_ rfl rfl rfl rfl
      exact ⟨(wrKey, cache ++ [(key, s.nextEntry)]), List.mem_append_right _ List.mem_cons_self,
        (key, s.nextEntry), by simp, rfl, rfl, rfl⟩
    split
    · have hsub := evictLeastRecentlyUsed_sub (I := I) s₁
      obtain ⟨_, _, _, _, _, hf⟩ := evictLeastRecentlyUsed_fields (I := I) s₁
      rw [hf] at hsub ⊢
      exact hserve.sub hsub rfl rfl (le_refl _)
    · exact hserve
  unfold State.enter
  dsimp only
  have hfind : State.findWeak I { s.withRefs os with totalQueries := s.totalQueries + 1 }
      (State.makeRefs s.nextRef os) = s.findWeak I (State.makeRefs s.nextRef os) := rfl
  have hq : (s.withRefs os).totalQueries = s.totalQueries := rfl
  rw [hq, hfind]
  cases hweak : s.findWeak I (State.makeRefs s.nextRef os) with
  | none =>
      have hnil : State.findStrong I [] key = none := rfl
      rw [Option.getD_none]
      dsimp only
      rw [hnil]
      exact hmiss s.entries [] _ [] (fun u hu => by rwa [List.append_nil] at hu) (fun hne => absurd rfl hne) (fun r hr => (mem_makeRefs hr).2)
        (forall₂_makeRefs hI os _) _ rfl
  | some found =>
      obtain ⟨before, ⟨wrKey, cache⟩, after⟩ := found
      have hwr := eq_of_findWeak h hweak
      obtain ⟨hs, _, _⟩ := find_some hweak
      have hslot : (wrKey, cache) ∈ s.entries := by rw [hs]; simp
      rw [Option.getD_some]
      dsimp only
      cases hstrong : State.findStrong I cache key with
      | none =>
          refine hmiss before after wrKey cache (fun u hu => ?_) (fun _ => hslot)
            (fun r hr => Nat.lt_add_right _ (h.refs _ hslot r hr)) hwr _ rfl
          rw [hs, List.mem_append, List.mem_cons]
          exact (List.mem_append.mp hu).imp_right .inr
      | some found =>
          obtain ⟨b, ⟨k, e⟩, a⟩ := found
          obtain ⟨hcache, hk, _⟩ := find_some hstrong
          have hmem : (k, e) ∈ cache := by rw [hcache]; simp
          have hf : ∃ links size, State.moveToFront
              { s.withRefs os with totalQueries := s.totalQueries + 1 } e =
              { s.withRefs os with totalQueries := s.totalQueries + 1, links := links, lruSize := size } := by
            obtain ⟨links, size, hu⟩ := unlinkIfLinked_fields
              (s := { s.withRefs os with totalQueries := s.totalQueries + 1 }) e
            unfold State.moveToFront
            rw [hu]
            exact ⟨_, _, rfl⟩
          obtain ⟨links, size, hf⟩ := hf
          dsimp only
          rw [hf]
          refine hw.serve ⟨call, e, wrKey, k⟩
            ⟨⟨os, key, hmake, hwr, .inr (Bool.and_eq_true_iff.mp hk).2⟩, h.made _ hslot _ hmem⟩
            ⟨_, hslot, _, hmem, rfl, rfl, rfl⟩ rfl rfl rfl rfl

theorem Recorded.step (hI : I.PyLaws) (h : Recorded I cfg s) {a : Action Obj Call}
    (hs : WeakrefCache.step I cfg s a = some s') : Recorded I cfg s' := by
  cases a with
  | call threadId c =>
      obtain ⟨⟨os, key⟩, hmake, hs⟩ := Option.bind_eq_some_iff.mp hs
      injection hs with hs
      subst hs
      exact h.enter hI threadId hmake
  | callRaises c =>
      obtain ⟨⟨os, key⟩, _, hs⟩ := Option.bind_eq_some_iff.mp hs
      injection hs with hs
      subst hs
      exact h.sub (.refl _) rfl rfl (Nat.le_add_right _ _)
  | explainRaises threadId c =>
      obtain ⟨⟨os, key⟩, hmake, hs⟩ := Option.bind_eq_some_iff.mp hs
      dsimp only at hs
      split at hs
      · exact absurd hs (by simp)
      · injection hs with hs
        subst hs
        obtain ⟨_, _, _, _, hrel, _⟩ := release_fields { (s.withRefs os).enter I cfg threadId c
          (State.makeRefs s.nextRef os) key with frames := s.frames } s.nextEntry
        rw [hrel]
        exact (h.enter hI threadId hmake).sub (.refl _) rfl rfl (le_refl _)
  | complete f result =>
      obtain ⟨c, _, hs⟩ := Option.bind_eq_some_iff.mp hs
      split at hs
      · injection hs with hs
        subst hs
        exact h.sub (.refl _) rfl rfl (le_refl _)
      · exact absurd hs (by simp)
  | leave f =>
      obtain ⟨c, _, hs⟩ := Option.bind_eq_some_iff.mp hs
      split at hs
      · injection hs with hs
        subst hs
        obtain ⟨_, _, _, _, hrel, _⟩ := release_fields { s with frames := s.frames.erase f } f.entry
        rw [hrel]
        exact h.sub (.refl _) rfl rfl (le_refl _)
      · exact absurd hs (by simp)
  | die o =>
      injection hs with hs
      subst hs
      exact h.sub (.refl _) rfl rfl (le_refl _)
  | callback ref =>
      dsimp only [WeakrefCache.step] at hs
      split at hs
      · injection hs with hs
        subst hs
        have hsub := evictWeakref_sub (I := I) s ref
        obtain ⟨_, _, _, _, _, hf, _⟩ := evictWeakref_fields (I := I) s ref
        rw [hf] at hsub ⊢
        exact h.sub hsub rfl rfl (le_refl _)
      · exact absurd hs (by simp)
  | evictWeakref os =>
      injection hs with hs
      subst hs
      obtain ⟨_, _, _, _, _, hf, hsub⟩ := evictWeakKey_fields (I := I) (s.withRefs os)
        (State.makeRefs s.nextRef os)
      rw [hf]
      exact h.sub hsub rfl rfl (Nat.le_add_right _ _)
  | clear =>
      injection hs with hs
      subst hs
      obtain ⟨links, size, hu⟩ := foldl_unlinkIfLinked_fields s.mapped s
      unfold State.clear
      dsimp only
      rw [hu]
      obtain ⟨_, _, _, _, hrel, _⟩ := releaseAll_fields s.mapped
        { s with links := links, lruSize := size, entries := [], reverseIndex := fun _ => []
                 misses := 0, totalQueries := 0 }
      rw [hrel]
      exact h.sub (fun t ht => absurd ht (by simp)) rfl rfl (le_refl _)

theorem recorded_of_reachable (hI : I.PyLaws) (h : Reachable I cfg s) : Recorded I cfg s := by
  induction h with
  | init => constructor <;> simp
  | step _ hs ih => exact ih.step hI hs

/-- **Calls served by one entry** were compared with the same keys. -/
theorem served_sameKeys (hI : I.PyLaws) (h : Reachable I cfg s) {sv sv' : Served Obj Def Call}
    (hsv : sv ∈ s.served) (hsv' : sv' ∈ s.served) (he : sv.entry = sv'.entry) :
    ServedBy I cfg sv ∧ ServedBy I cfg sv' ∧ sv.wrKey = sv'.wrKey ∧ sv.key = sv'.key := by
  have hrec := recorded_of_reachable hI h
  exact ⟨hrec.fits sv hsv, hrec.fits sv' hsv', hrec.agree sv hsv sv' hsv' he⟩

end JaxDas.WeakrefCache
