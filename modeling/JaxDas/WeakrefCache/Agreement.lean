import Mathlib.Data.List.Perm.Subperm
import JaxDas.WeakrefCache.Steps

/-!
# The agreement of the indexes over whole runs

`Settled.step` goes through the actions, `indexesAgree` through the runs. What is
said there of the reverse index is less than that it has the mapped entries and no
others: an entry that was evicted while its call is still running stays in it until
the call ends, and `Clear` takes the entries of running calls out of it too early.
-/

namespace JaxDas.WeakrefCache

open IntrusiveList

variable {Obj Def Call : Type} {I : Interp Obj Def} {cfg : Config Obj Def Call}
  {s s' : State Obj Def Call} {is deferred : List ℕ}

/-! ## Running calls -/

/-- Calls let go of an entry: it is left to be released. -/
theorem Settled.dropFrames (h : Settled I s is []) (frames : List Frame) (e : ℕ)
    (hsub : ∀ f ∈ frames, f ∈ s.frames) (hkeep : ∀ f ∈ s.frames, f ∈ frames ∨ f.entry = e) :
    Settled I { s with frames := frames } is [e] := by
  refine ⟨{ h.shape with held := fun f hf => h.shape.held f (hsub f hf) }, h.distinct, h.indexed,
    fun x c hx => ?_, ⟨h.lru.links, h.lru.size, h.lru.order, h.lru.past⟩, h.listed, h.dying⟩
  rcases h.owned x c hx with hm | ⟨f, hf, hfx⟩ | hd
  · exact .inl hm
  · rcases hkeep f hf with hf | hfe
    · exact .inr (.inl ⟨f, hf, hfx⟩)
    · exact .inr (.inr (by rw [← hfx, hfe]; exact List.mem_singleton_self _))
  · exact absurd hd (by simp)

/-- What is computed for an entry is no part of its keys. -/
theorem Settled.setEntry (h : Settled I s is []) {e : ℕ} {c c' : CacheEntry Obj Def}
    (hc : s.heap e = some c) (hwrKey : c'.wrKey = c.wrKey) (hkey : c'.key = c.key) :
    Settled I { s with heap := Function.update s.heap e (some c') } is [] := by
  have hto : ∀ x c₁, s.heap x = some c₁ → ∃ c₂, Function.update s.heap e (some c') x = some c₂ ∧
      c₂.wrKey = c₁.wrKey ∧ c₂.key = c₁.key := by
    intro x c₁ hx
    by_cases hxe : x = e
    · subst hxe
      obtain rfl : c = c₁ := Option.some.inj (hc.symm.trans hx)
      exact ⟨c', Function.update_self _ _ _, hwrKey, hkey⟩
    · exact ⟨c₁, (Function.update_of_ne hxe _ _).trans hx, rfl, rfl⟩
  have hof : ∀ x c₂, Function.update s.heap e (some c') x = some c₂ → ∃ c₁, s.heap x = some c₁ ∧
      c₂.wrKey = c₁.wrKey := by
    intro x c₂ hx
    by_cases hxe : x = e
    · subst hxe
      rw [Function.update_self] at hx
      injection hx with hx
      subst hx
      exact ⟨c, hc, hwrKey⟩
    · rw [Function.update_of_ne hxe] at hx
      exact ⟨c₂, hx, rfl⟩
  refine ⟨⟨fun t ht p hp => ?_, h.shape.nodup, h.shape.nonempty, h.shape.weak, fun x hx => ?_,
    fun f hf => ?_, fun x c₂ hx r hr => ?_, h.shape.refs, h.shape.refs_inj, fun r x hx => ?_,
    h.shape.cleared⟩, h.distinct, fun x hx c₂ hc₂ r hr hno => ?_, fun x c₂ hx => ?_,
    ⟨h.lru.links, h.lru.size, h.lru.order, h.lru.past⟩, h.listed, fun x hx c₂ hc₂ r hr => ?_⟩
  · obtain ⟨c₁, hc₁, hw, hk⟩ := h.shape.slot t ht p hp
    obtain ⟨c₂, hc₂, hw₂, hk₂⟩ := hto _ _ hc₁
    exact ⟨c₂, hc₂, hw₂.trans hw, hk₂.trans hk⟩
  · have hxe : x ≠ e := fun hxe => by
      rw [← hxe, h.shape.fresh x hx] at hc
      exact absurd hc (by simp)
    exact (Function.update_of_ne hxe _ _).trans (h.shape.fresh x hx)
  · obtain ⟨c₁, hc₁⟩ := h.shape.held f hf
    obtain ⟨c₂, hc₂, _⟩ := hto _ _ hc₁
    exact ⟨c₂, hc₂⟩
  · obtain ⟨c₁, hc₁, hw⟩ := hof x c₂ hx
    exact h.shape.made x c₁ hc₁ r (hw ▸ hr)
  · obtain ⟨c₁, hc₁, hr⟩ := h.shape.reverse r x hx
    obtain ⟨c₂, hc₂, hw, _⟩ := hto _ _ hc₁
    exact ⟨c₂, hc₂, hw ▸ hr⟩
  · obtain ⟨c₁, hc₁, hw⟩ := hof x c₂ hc₂
    exact h.indexed x hx c₁ hc₁ r (hw ▸ hr) hno
  · obtain ⟨c₁, hc₁, _⟩ := hof x c₂ hx
    exact h.owned x c₁ hc₁
  · obtain ⟨c₁, hc₁, hw⟩ := hof x c₂ hc₂
    exact h.dying x hx c₁ hc₁ r (hw ▸ hr)

theorem Settled.complete (h : Settled I s is []) {f : Frame} {result : Option Obj}
    (hs : s.complete f result = some s') : Settled I s' is [] ∧ s'.mapped = s.mapped := by
  unfold State.complete at hs
  obtain ⟨c, hc, hs⟩ := Option.bind_eq_some_iff.mp hs
  split at hs
  · injection hs with hs
    subst hs
    exact ⟨h.setEntry hc rfl rfl, rfl⟩
  · exact absurd hs (by simp)

theorem Settled.leave (h : Settled I s is []) {f : Frame} (hs : s.leave f = some s') :
    Settled I s' is [] ∧ s'.mapped = s.mapped := by
  unfold State.leave at hs
  obtain ⟨c, hc, hs⟩ := Option.bind_eq_some_iff.mp hs
  split at hs
  · injection hs with hs
    subst hs
    have hdrop := h.dropFrames _ f.entry (fun g hg => List.mem_of_mem_erase hg) fun g hg => by
      by_cases hgf : g = f
      · exact .inr (by rw [hgf])
      · exact .inl ((List.mem_erase_of_ne hgf).mpr hg)
    obtain ⟨_, _, _, _, hrel, _⟩ := release_fields { s with frames := s.frames.erase f } f.entry
    exact ⟨hdrop.release, by rw [hrel]; rfl⟩
  · exact absurd hs (by simp)

/-- An object dies: the callbacks of its weakrefs are to come. -/
theorem Settled.die (h : Settled I s is []) (o : Obj) :
    let dead := (s.refs.filter fun r => I.is r.referent o && !s.cleared r.id).map fun r : WeakRef Obj => r.id
    Settled I { s with cleared := fun r => s.cleared r || dead.contains r
                       pending := s.pending ++ dead } is [] := by
  intro dead
  refine ⟨{ h.shape with cleared := fun r hr => ?_ }, h.distinct, h.indexed, h.owned,
    ⟨h.lru.links, h.lru.size, h.lru.order, h.lru.past⟩, h.listed, fun e he c hc r hr hcl => ?_⟩
  · rcases Bool.or_eq_true_iff.mp hr with hr | hr
    · exact h.shape.cleared r hr
    · obtain ⟨w, hw, rfl⟩ := List.mem_map.mp (List.contains_iff_mem.mp hr)
      exact h.shape.refs w (List.mem_of_mem_filter hw)
  · rcases Bool.or_eq_true_iff.mp hcl with hcl | hcl
    · exact List.mem_append_left _ (h.dying e he c hc r hr hcl)
    · exact List.mem_append_right _ (List.contains_iff_mem.mp hcl)

/-- The callback of a weakref has run: no mapped entry holds it. -/
theorem Settled.callback (hI : I.PyLaws) (hD : I.DefLaws) (h : Settled I s is []) (r : ℕ) :
    ∃ js, js.Sublist is ∧ Settled I { s.evictWeakref I r with pending := s.pending.filter (· ≠ r) } js []
      ∧ ∀ e ∈ (s.evictWeakref I r).mapped, ∀ c, (s.evictWeakref I r).heap e = some c →
        r ∉ WeakKey.ids c.wrKey := by
  obtain ⟨js, hjs, hsettled, hgone⟩ := h.evictWeakref hI hD r
  refine ⟨js, hjs, ⟨hsettled.shape.congr rfl rfl rfl rfl rfl rfl rfl rfl, hsettled.distinct,
    hsettled.indexed, hsettled.owned, ⟨hsettled.lru.links, hsettled.lru.size, hsettled.lru.order,
    hsettled.lru.past⟩, hsettled.listed, fun e he c hc r' hr' hcl => ?_⟩, hgone⟩
  have hpending := hsettled.dying e he c hc r' hr' hcl
  obtain ⟨_, _, _, _, _, hf, _⟩ := evictWeakref_fields (I := I) s r
  rw [hf] at hpending
  have hne : r' ≠ r := fun hrr => hgone e he c hc (hrr ▸ hr')
  exact List.mem_filter.mpr ⟨hpending, by simpa using hne⟩

/-! ## Steps -/

/-- The steps that evict entries because of their keys. -/
def Action.evictsByKey {Obj Call : Type} : Action Obj Call → Bool
  | .callback _ | .evictWeakref _ | .clear => true
  | _ => false

/-- Every entry that is in the map before and not after is the least recently used one. -/
def EvictsLeastRecent (s s' : State Obj Def Call) : Prop :=
  ∀ x ∈ s.mapped, x ∉ s'.mapped → ∀ y ∈ s.mapped, y ≠ x → s.lastUse x < s.lastUse y

/-- No entry of the map holds the weakref. -/
def NoneHolds (s : State Obj Def Call) (r : ℕ) : Prop :=
  ∀ e ∈ s.mapped, ∀ c, s.heap e = some c → r ∉ WeakKey.ids c.wrKey

/-- The LRU list `is` fits into the cache. -/
def Fits (cfg : Config Obj Def Call) (is : List ℕ) : Prop :=
  0 < cfg.maxsize → (is.length : ℤ) ≤ cfg.maxsize

theorem Fits.of_le {js : List ℕ} (h : Fits cfg is) (hle : js.length ≤ is.length) : Fits cfg js :=
  fun hpos => by have := h hpos; omega

/-- What one step comes to. -/
structure Stepped (I : Interp Obj Def) (cfg : Config Obj Def Call) (s s' : State Obj Def Call)
    (a : Action Obj Call) (is : List ℕ) : Prop where
  settled : Settled I s' is []
  fits : Fits cfg is
  evicted : a.evictsByKey = false → EvictsLeastRecent s s'
  gone : ∀ r, a = .callback r → NoneHolds s' r

/-- A call with its new weakrefs. -/
theorem Settled.call (cfg : Config Obj Def Call) (hI : I.PyLaws) (hD : I.DefLaws) (h : Settled I s is []) (os : List Obj)
    (key : StrongKey Obj Def) (threadId : ℕ) (c : Call) : ∃ is', Entered I cfg (s.withRefs os)
      ((s.withRefs os).enter I cfg threadId c (State.makeRefs s.nextRef os) key) is is' := by
  refine (h.withRefs os).enter hI hD cfg (fun r hr => List.mem_append_right _ hr) (fun r hr => ?_)
    threadId c
  obtain ⟨w, hw, rfl⟩ := List.mem_map.mp hr
  have hnew := (mem_makeRefs hw).1
  constructor
  · by_contra hcl
    have hcl : (s.withRefs os).cleared w.id = true := Bool.eq_true_of_not_eq_false hcl
    have hold := h.shape.cleared w.id hcl
    omega
  · intro t ht hin
    obtain ⟨w', hw', hid⟩ := List.mem_map.mp hin
    obtain ⟨p, hp⟩ := List.exists_mem_of_ne_nil t.2 (h.shape.nonempty t ht)
    obtain ⟨c, hc, hk, _⟩ := h.shape.slot t ht p hp
    have hold := h.shape.refs w' (h.shape.made _ c hc w' (hk ▸ hw'))
    omega

/-- **Every step keeps the indexes in agreement.** -/
theorem Settled.step (hI : I.PyLaws) (hD : I.DefLaws) (h : Settled I s is []) (hfits : Fits cfg is)
    {a : Action Obj Call} (hs : WeakrefCache.step I cfg s a = some s') :
    ∃ is', Stepped I cfg s s' a is' := by
  have hsame : ∀ s'' : State Obj Def Call, s''.mapped = s.mapped → EvictsLeastRecent s s'' :=
    fun s'' hm x hx hx' => absurd (hm ▸ hx) hx'
  cases a with
  | call threadId c =>
      obtain ⟨⟨os, key⟩, _, hs⟩ := Option.bind_eq_some_iff.mp hs
      injection hs with hs
      subst hs
      obtain ⟨is', hin⟩ := h.call cfg hI hD os key threadId c
      exact ⟨is', hin.settled, fun hpos => hin.room hpos (hfits hpos), fun _ => hin.evicted,
        fun _ ha => nomatch ha⟩
  | callRaises c =>
      obtain ⟨⟨os, key⟩, _, hs⟩ := Option.bind_eq_some_iff.mp hs
      injection hs with hs
      subst hs
      exact ⟨is, (h.withRefs os).withQueries _, hfits, fun _ => hsame _ rfl, fun _ ha => nomatch ha⟩
  | explainRaises threadId c =>
      obtain ⟨⟨os, key⟩, _, hs⟩ := Option.bind_eq_some_iff.mp hs
      obtain ⟨is', hin⟩ := h.call cfg hI hD os key threadId c
      obtain ⟨f, hf, hmade⟩ := hin.frames
      dsimp only at hs
      split at hs
      · exact absurd hs (by simp)
      · rename_i hnew
        injection hs with hs
        subst hs
        -- The call drops its entry, which stays in the map unless it was evicted.
        have hdrop := hin.settled.dropFrames s.frames s.nextEntry
          (fun g hg => by rw [hf]; exact List.mem_cons_of_mem _ hg) fun g hg => by
            rw [hf] at hg
            rcases List.mem_cons.mp hg with rfl | hg
            · exact .inr (hmade hnew)
            · exact .inl hg
        refine ⟨is', hdrop.release, fun hpos => hin.room hpos (hfits hpos), fun _ => ?_,
          fun _ ha => nomatch ha⟩
        obtain ⟨_, _, _, _, hrel, _⟩ := release_fields { (s.withRefs os).enter I cfg threadId c
          (State.makeRefs s.nextRef os) key with frames := s.frames } s.nextEntry
        rw [hrel]
        exact hin.evicted
  | complete f result =>
      obtain ⟨hsettled, hm⟩ := h.complete hs
      exact ⟨is, hsettled, hfits, fun _ => hsame _ hm, fun _ ha => nomatch ha⟩
  | leave f =>
      obtain ⟨hsettled, hm⟩ := h.leave hs
      exact ⟨is, hsettled, hfits, fun _ => hsame _ hm, fun _ ha => nomatch ha⟩
  | die o =>
      injection hs with hs
      subst hs
      exact ⟨is, h.die o, hfits, fun _ => hsame _ rfl, fun _ ha => nomatch ha⟩
  | callback ref =>
      dsimp only [WeakrefCache.step] at hs
      split at hs
      · injection hs with hs
        subst hs
        obtain ⟨js, hjs, hsettled, hgone⟩ := h.callback hI hD ref
        refine ⟨js, hsettled, hfits.of_le hjs.length_le, fun ha => absurd ha (by simp [Action.evictsByKey]),
          fun r hr => ?_⟩
        injection hr with hr
        subst hr
        exact hgone
      · exact absurd hs (by simp)
  | evictWeakref os =>
      injection hs with hs
      subst hs
      obtain ⟨js, hjs, hsettled⟩ := (h.withRefs os).evictWeakKey (State.makeRefs s.nextRef os)
      exact ⟨js, hsettled, hfits.of_le (List.subperm_of_subset hsettled.lru.links.nodup hjs).length_le,
        fun ha => absurd ha (by simp [Action.evictsByKey]), fun _ ha => nomatch ha⟩
  | clear =>
      injection hs with hs
      subst hs
      exact ⟨[], h.clear, hfits.of_le (Nat.zero_le _), fun ha => absurd ha (by simp [Action.evictsByKey]),
        fun _ ha => nomatch ha⟩

/-! ## Runs -/

theorem settled_init : Settled I ({} : State Obj Def Call) [] [] where
  shape := ⟨fun _ h => absurd h (by simp), List.nodup_nil, fun _ h => absurd h (by simp),
    List.nodup_nil, fun _ _ => rfl, fun _ h => absurd h (by simp), fun _ _ h => absurd h (by simp),
    fun _ h => absurd h (by simp), fun _ h => absurd h (by simp), fun _ _ h => absurd h (by simp),
    fun _ h => absurd h (by simp)⟩
  distinct _ h := absurd h (by simp)
  indexed _ h := absurd h (by simp [State.mapped, mappedOf])
  owned _ _ h := absurd h (by simp)
  lru := ⟨represents_empty, rfl, List.Pairwise.nil, fun _ h => absurd h (by simp)⟩
  listed _ := by simp [State.mapped, mappedOf]
  dying _ h := absurd h (by simp [State.mapped, mappedOf])

theorem settled_of_reachable (hI : I.PyLaws) (hD : I.DefLaws) (h : Reachable I cfg s) :
    ∃ is, Settled I s is [] ∧ Fits cfg is := by
  induction h with
  | init => exact ⟨[], settled_init, fun hpos => le_of_lt hpos⟩
  | step _ hs ih =>
      obtain ⟨is, hsettled, hfits⟩ := ih
      obtain ⟨is', hstep⟩ := hsettled.step hI hD hfits hs
      exact ⟨is', hstep.settled, hstep.fits⟩

/-- The three indexes of a cache, and what they have to do with each other. -/
structure IndexesAgree (cfg : Config Obj Def Call) (s : State Obj Def Call) : Prop where
  /-- The LRU list has the entries of the map, without repetition and in order of last use. -/
  lru : ∃ is, Represents s.links is ∧ (∀ e, e ∈ is ↔ e ∈ s.mapped) ∧ is.Nodup ∧
    (is.Pairwise fun a b => s.lastUse b < s.lastUse a) ∧ s.lruSize = is.length
  mapped : s.mapped.Nodup
  room : 0 < cfg.maxsize → s.lruSize ≤ cfg.maxsize
  /-- An entry of the map is in the reverse index under every weakref of its key. -/
  indexed : ∀ e ∈ s.mapped, ∃ c, s.heap e = some c ∧
    ∀ r ∈ WeakKey.ids c.wrKey, e ∈ s.reverseIndex r
  /-- What is under a weakref holds it, and is in the map or held by a running call. -/
  reverse : ∀ r, ∀ e ∈ s.reverseIndex r,
    (∃ c, s.heap e = some c ∧ r ∈ WeakKey.ids c.wrKey) ∧ (e ∈ s.mapped ∨ s.Held e)
  /-- A dead weakref in the map has its callback to come. -/
  dying : ∀ r, s.cleared r = true → r ∉ s.pending → NoneHolds s r

theorem Settled.indexesAgree (h : Settled I s is []) (hfits : Fits cfg is) : IndexesAgree cfg s where
  lru := ⟨is, h.lru.links, h.listed, h.lru.links.nodup, h.lru.order, h.lru.size⟩
  mapped := h.shape.nodup
  room hpos := by rw [h.lru.size]; exact hfits hpos
  indexed e he := by
    obtain ⟨t, ht, p, hp, rfl⟩ := mem_mappedOf.mp he
    obtain ⟨c, hc, _⟩ := h.shape.slot t ht p hp
    exact ⟨c, hc, fun r hr => h.indexed _ he c hc r hr id⟩
  reverse r e he := by
    obtain ⟨c, hc, hr⟩ := h.shape.reverse r e he
    have howned := h.owned e c hc
    simp only [List.not_mem_nil, or_false] at howned
    exact ⟨⟨c, hc, hr⟩, howned⟩
  dying r hcl hpending e he c hc hr := hpending (h.dying e he c hc r hr hcl)

/--
**The indexes of a cache agree** in every state it can come to. A step that does not
evict by key evicts the least recently used entry or none; and once the callback of
a weakref has run, no entry of the map holds it.
-/
theorem indexesAgree_reachable (hI : I.PyLaws) (hD : I.DefLaws) (h : Reachable I cfg s) :
    IndexesAgree cfg s ∧ ∀ a s', WeakrefCache.step I cfg s a = some s' →
      (a.evictsByKey = false → EvictsLeastRecent s s') ∧ ∀ r, a = .callback r → NoneHolds s' r := by
  obtain ⟨is, hsettled, hfits⟩ := settled_of_reachable hI hD h
  refine ⟨hsettled.indexesAgree hfits, fun a s' hs => ?_⟩
  obtain ⟨is', hstep⟩ := hsettled.step hI hD hfits hs
  exact ⟨hstep.evicted, hstep.gone⟩

/-! ## A run with nested calls -/

/-- A run from a state. -/
def runSteps (I : Interp Obj Def) (cfg : Config Obj Def Call) (s : State Obj Def Call) :
    List (Action Obj Call) → Option (State Obj Def Call)
  | [] => some s
  | a :: as => (step I cfg s a).bind fun s' => runSteps I cfg s' as

theorem reachable_runSteps : ∀ {as : List (Action Obj Call)} {s s' : State Obj Def Call},
    Reachable I cfg s → runSteps I cfg s as = some s' → Reachable I cfg s'
  | [], _, _, hr, h => Option.some.inj h ▸ hr
  | _ :: _, _, _, hr, h => by
      obtain ⟨s₁, hs₁, h⟩ := Option.bind_eq_some_iff.mp h
      exact reachable_runSteps (hr.step hs₁) h

/-- Objects that are numbers, each equal to itself only. -/
def numbers : Interp ℕ Unit where
  is := (· == ·)
  eq := (· == ·)
  hash := id
  defEq _ _ := true
  hashWeak := List.sum
  hashStrong _ _ args _ := args.sum
  reaches _ h h' := h == h'
  order := id

theorem numbers_pyLaws : numbers.PyLaws := by
  constructor <;> simp +contextual [numbers]

theorem numbers_defLaws : numbers.DefLaws := by
  constructor <;> simp [numbers]

/-- A cache for one result, of a function of a weakly held argument and another one. -/
def pairsCache : Config ℕ Unit (ℕ × ℕ) where
  maxsize := 1
  makeKey := fun (w, x) => some ([w], ⟨0, [], [x], none⟩)

/--
The function clears the cache that it is called through, and calls itself twice through
it. All three calls are still running.
-/
def nestedCalls : State ℕ Unit (ℕ × ℕ) :=
  (runSteps numbers pairsCache {} [.call 0 (0, 0), .clear, .call 0 (1, 0), .call 0 (2, 0)]).get
    (by decide)

theorem nestedCalls_reachable : Reachable numbers pairsCache nestedCalls :=
  reachable_runSteps .init (Option.some_get _).symm

theorem indexesAgree_nestedCalls :
    IndexesAgree pairsCache nestedCalls ∧ ∀ a s', step numbers pairsCache nestedCalls a = some s' →
      (a.evictsByKey = false → EvictsLeastRecent nestedCalls s') ∧
        ∀ r, a = .callback r → NoneHolds s' r :=
  indexesAgree_reachable numbers_pyLaws numbers_defLaws nestedCalls_reachable

/--
The reverse index is not exact. It does not have the entry of the first call, which
holds the live weakref 0; and it has the entry of the second one, which the third one
evicted, under the live weakref 1.
-/
theorem nestedCalls_reverseIndex : Reachable numbers pairsCache nestedCalls ∧
    (nestedCalls.cleared 0 = false ∧ 0 ∉ nestedCalls.reverseIndex 0 ∧
      ∃ c, nestedCalls.heap 0 = some c ∧ 0 ∈ WeakKey.ids c.wrKey) ∧
    nestedCalls.cleared 1 = false ∧ 1 ∈ nestedCalls.reverseIndex 1 ∧ 1 ∉ nestedCalls.mapped :=
  ⟨nestedCalls_reachable, ⟨rfl, by decide, ⟨_, rfl, by decide⟩⟩, rfl, by decide, by decide⟩

end JaxDas.WeakrefCache
