import JaxDas.LruCache.Eviction

/-!
# A cache with a limit stays within it

What holds of a directory whoever used it and wherever they stopped: `Logged`, that a
cache file holds what was last written for its key. What holds in the runs that record
every use: `Timed`. From the first every `get` returns the right value; from the second
every `put` of a cache with a limit ends, and leaves the directory within the limit.
-/

namespace JaxDas.LruCache

/-! ## What an eviction leaves -/

theorem without_cacheFiles (l : List Item) : ∀ (d : Directory) (k : String),
    (d.without l).cacheFiles.lookup k
      = if k ∈ l.map Item.key then none else d.cacheFiles.lookup k := by
  induction l with
  | nil => exact fun d k => rfl
  | cons x l ih =>
      intro d k
      rw [Directory.without, List.foldl_cons, ← Directory.without, ih]
      by_cases hk : k = x.key
      · subst hk
        rw [List.map_cons, if_pos List.mem_cons_self]
        split
        · rfl
        · exact AList.lookup_erase x.key d.cacheFiles
      · have hmem : k ∈ (x :: l).map Item.key ↔ k ∈ l.map Item.key := by simp [hk]
        simp only [hmem]
        rw [Directory.unlinkAtime, Directory.unlinkCache, AList.lookup_erase_ne hk]

theorem without_atimeFiles (l : List Item) : ∀ (d : Directory) (k : String),
    k ∉ l.map Item.key → (d.without l).atimeFiles.lookup k = d.atimeFiles.lookup k := by
  induction l with
  | nil => exact fun d k _ => rfl
  | cons x l ih =>
      intro d k hk
      rw [List.map_cons, List.mem_cons, not_or] at hk
      rw [Directory.without, List.foldl_cons, ← Directory.without, ih _ k hk.2,
        Directory.unlinkAtime, Directory.unlinkCache, AList.lookup_erase_ne hk.1]

/-- The size of the cache files from any list of them. -/
theorem totalSize_eq {d : Directory} {l : List Item} (hnodup : (l.map Item.key).Nodup)
    (hkeys : ∀ k, k ∈ d.cacheFiles ↔ k ∈ l.map Item.key)
    (hsize : ∀ x ∈ l, (d.item x.key).fileSize = x.fileSize) : d.totalSize = sizeOf l := by
  have hperm : d.cacheFiles.keys.Perm (l.map Item.key) :=
    (List.perm_ext_iff_of_nodup d.cacheFiles.keys_nodup hnodup).mpr hkeys
  rw [Directory.totalSize, sizeOf_perm (hperm.map d.item), sizeOf, sizeOf, List.map_map,
    List.map_map]
  exact congrArg List.sum (List.map_congr_left hsize)

/-- The entry that is added, and those that are kept, are what is there afterwards. -/
theorem totalSize_add {d : Directory} {gone kept : List Item} (h : ByUse d (gone ++ kept))
    (now : ℕ) {key : String} (value : Bytes) (hnew : key ∉ d.cacheFiles) :
    (((d.without gone).writeCache key value).writeAtime key now).totalSize
      = value.length + sizeOf kept := by
  have hnodup := h.nodup
  rw [List.map_append, List.nodup_append] at hnodup
  have hkept : ∀ k ∈ kept.map Item.key, k ∉ gone.map Item.key := fun k hk hg =>
    hnodup.2.2 k hg k hk rfl
  have hmem : ∀ k, k ∈ d.cacheFiles ↔ k ∈ gone.map Item.key ∨ k ∈ kept.map Item.key := by
    intro k
    rw [← List.mem_append, ← List.map_append]
    exact h.keys.mem_iff.symm
  have hkey : key ∉ kept.map Item.key := fun hk => hnew ((hmem key).mpr (.inr hk))
  rw [totalSize_eq (l := ⟨now, key, value.length⟩ :: kept) (by simp_all)]
  · rfl
  · intro k
    rw [Directory.writeAtime, Directory.writeCache, AList.mem_insert, ← AList.lookup_isSome,
      without_cacheFiles, List.map_cons, List.mem_cons]
    by_cases hg : k ∈ gone.map Item.key
    · have : k ∉ kept.map Item.key := fun hk => hkept k hk hg
      simp [hg, this]
    · rw [if_neg hg, AList.lookup_isSome, hmem k]
      exact or_congr_right (or_iff_right hg)
  · intro x hx
    rcases List.mem_cons.mp hx with rfl | hx
    · simp only [Directory.item, Directory.writeAtime, Directory.writeCache, AList.lookup_insert,
        Option.map_some, Option.getD_some]
    · have hxk : x.key ∈ kept.map Item.key := List.mem_map_of_mem hx
      have hne : x.key ≠ key := fun he => hkey (he ▸ hxk)
      have hx' := congrArg Item.fileSize (h.eq_item (List.mem_append_right gone hx))
      rw [hx']
      simp only [Directory.item, Directory.writeAtime, Directory.writeCache]
      rw [AList.lookup_insert_ne hne, without_cacheFiles, if_neg (hkept _ hxk)]

/-! ## What holds in every run -/

/-- Every cache file holds what was last written for its key, and is gone if it was removed
since. -/
def Logged (d : Directory) : Prop :=
  ∀ k, d.cacheFiles.lookup k = (d.history.lookup k).join

theorem logged_empty : Logged Directory.empty := fun _ => rfl

theorem logged_writeCache {d : Directory} (h : Logged d) (key : String) (value : Bytes) :
    Logged (d.writeCache key value) := by
  intro k
  rw [Directory.writeCache, List.lookup_cons]
  by_cases hk : k = key
  · subst hk
    rw [AList.lookup_insert, beq_self_eq_true]
    rfl
  · rw [AList.lookup_insert_ne hk, beq_false_of_ne hk]
    exact h k

theorem logged_unlinkCache {d : Directory} (h : Logged d) (key : String) :
    Logged (d.unlinkCache key) := by
  intro k
  rw [Directory.unlinkCache, List.lookup_cons]
  by_cases hk : k = key
  · subst hk
    rw [AList.lookup_erase, beq_self_eq_true]
    rfl
  · rw [AList.lookup_erase_ne hk, beq_false_of_ne hk]
    exact h k

/-! ## Invariants of the calls -/

section Keeps

variable {I : Directory → Prop}

theorem scan_keeps : ∀ (names : List String) (h : List Item) (n : ℕ), (scan names h n).Keeps I
  | [], _, _ => Prog.keeps_pure _
  | _ :: rest, _, _ => Prog.keeps_bind (Prog.keeps_look _) fun _ =>
      Prog.keeps_bind (Prog.keeps_look _) fun _ => scan_keeps rest _ _

section Evict

variable (hcache : ∀ d k, I d → I (d.unlinkCache k))
  (hboth : ∀ d k, I d → I ((d.unlinkCache k).unlinkAtime k))

include hcache hboth

/-- An eviction may stop between the two files of an entry, but removes the value first. -/
theorem evict_keeps (target : ℤ) : ∀ (l : List Item) (n : ℤ), (evict target l n).Keeps I
  | [], n => by
      rw [evict]
      split
      · exact Prog.keeps_raise _
      · exact Prog.keeps_pure _
  | x :: l, n => by
      rw [evict]
      split
      · intro d t h hd
        rcases Prog.stops_bind h with h | ⟨_, d', hrun, h⟩
        · exact Prog.keeps_change (fun d => hcache d x.key) d t h hd
        · have hd' := Prog.of_run_change hrun
          rcases Prog.stops_bind h with h | ⟨_, d'', hrun, h⟩
          · rcases Prog.stops_change h with rfl | rfl
            · exact hd' ▸ hcache d x.key hd
            · exact hd' ▸ hboth d x.key hd
          · have hd'' := Prog.of_run_change hrun
            rw [hd'] at hd''
            exact evict_keeps target l _ d'' t h (hd'' ▸ hboth d x.key hd)
      · exact Prog.keeps_pure _

theorem evictIfNeeded_keeps (c : LRUCache) (n : ℕ) : (c.evictIfNeeded n).Keeps I := by
  rw [LRUCache.evictIfNeeded]
  split
  · refine Prog.keeps_bind (Prog.keeps_look _) fun names => ?_
    exact Prog.keeps_bind (scan_keeps names [] 0) fun r => evict_keeps hcache hboth _ r.1 _
  · exact Prog.keeps_pure _

end Evict

variable (c : LRUCache) (now : ℕ) {key : String}
  (hatime : ∀ d t, I d → I (d.writeAtime key t))

include hatime

theorem recordUse_keeps : (c.recordUse now key).Keeps I := by
  rw [LRUCache.recordUse]
  split
  · exact Prog.keeps_update fun d hd => hatime d now hd
  · exact Prog.keeps_pure _

theorem get_keeps : (c.get now key).Keeps I := by
  rw [LRUCache.get]
  split
  · exact Prog.keeps_raise _
  · refine Prog.keeps_bind (Prog.keeps_look _) fun b => ?_
    split
    · refine Prog.keeps_bind (Prog.keeps_look _) fun v => ?_
      exact Prog.keeps_bind (recordUse_keeps c now hatime) fun _ => Prog.keeps_pure _
    · exact Prog.keeps_pure _

theorem put_keeps (hcache : ∀ d k, I d → I (d.unlinkCache k))
    (hboth : ∀ d k, I d → I ((d.unlinkCache k).unlinkAtime k)) {value : Bytes}
    (hwrite : ∀ d, I d → I (d.writeCache key value)) : (c.put now key value).Keeps I := by
  rw [LRUCache.put]
  split
  · exact Prog.keeps_raise _
  · split
    · exact Prog.keeps_pure _
    · refine Prog.keeps_bind (Prog.keeps_look _) fun b => ?_
      split
      · exact Prog.keeps_pure _
      · refine Prog.keeps_bind (evictIfNeeded_keeps hcache hboth c _) fun _ => ?_
        exact Prog.keeps_bind (Prog.keeps_update hwrite) fun _ => recordUse_keeps c now hatime

end Keeps

theorem logged_reachable {d : Directory} (h : Reachable d) : Logged d := by
  induction h with
  | empty => exact logged_empty
  | get c now key _ hs ih => exact get_keeps c now (fun d t hd => hd) _ _ hs ih
  | put c now key value _ hs ih =>
      refine put_keeps c now (fun d t hd => hd) ?_ ?_ ?_ _ _ hs ih
      · exact fun d k hd => logged_unlinkCache hd k
      · exact fun d k hd => logged_unlinkCache hd k
      · exact fun d hd => logged_writeCache hd key value

/-! ## Runs that record every use -/

theorem timed_writeAtime {d : Directory} (h : Timed d) (key : String) (t : ℕ) :
    Timed (d.writeAtime key t) := fun k hk => (AList.mem_insert _).mpr (.inr (h k hk))

/-- The access time files are there, except perhaps that of the key a `put` is about. -/
def TimedBut (key : String) (d : Directory) : Prop :=
  ∀ k ∈ d.cacheFiles, k ≠ key → k ∈ d.atimeFiles

theorem put_keeps_timedBut (c : LRUCache) (now : ℕ) (key : String) (value : Bytes) :
    (c.put now key value).Keeps (TimedBut key) := by
  refine put_keeps c now ?_ ?_ ?_ ?_
  · exact fun d t hd k hk hne => (AList.mem_insert _).mpr (.inr (hd k hk hne))
  · exact fun d k hd k' hk' hne => hd k' (AList.mem_erase.mp hk').2 hne
  · intro d k hd k' hk' hne
    obtain ⟨hkk, hk'⟩ := AList.mem_erase.mp hk'
    exact AList.mem_erase.mpr ⟨hkk, hd k' hk' hne⟩
  · intro d hd k hk hne
    exact hd k (((AList.mem_insert _).mp hk).resolve_left hne) hne

theorem timed_orderly {d : Directory} (h : Orderly d) : Timed d := by
  induction h with
  | empty => exact fun k hk => absurd hk (AList.notMem_empty k)
  | get c now key _ hs ih =>
      exact get_keeps (I := Timed) c now (fun d t hd => timed_writeAtime hd key t) _ _ hs ih
  | put c now key value _ _ hs hw ih =>
      intro k hk
      by_cases hkey : k = key
      · exact hkey ▸ hw (hkey ▸ hk)
      · exact put_keeps_timedBut c now key value _ _ hs (fun k hk _ => ih k hk) k hk hkey

/-! ## Main result -/

/-- What a `put` that stores does: it removes `gone`, keeps `kept`, and adds its entry. -/
structure Stored (c : LRUCache) (now : ℕ) (key : String) (value : Bytes) (d d' : Directory)
    (gone kept : List Item) : Prop where
  /-- What is removed is the least recently used. -/
  byUse : ByUse d (gone ++ kept)
  /-- An entry is removed only if it and those after it leave too little room. -/
  needed : ∀ g x g', gone = g ++ x :: g' → c.maxSize < sizeOf (x :: g' ++ kept) + value.length
  bounded : (d'.totalSize : ℤ) ≤ c.maxSize
  values : ∀ k, d'.cacheFiles.lookup k =
    if k = key then some value
    else if k ∈ gone.map Item.key then none else d.cacheFiles.lookup k
  recorded : d'.atimeFiles.lookup key = some now
  times : ∀ k ∈ kept.map Item.key, d'.atimeFiles.lookup k = d.atimeFiles.lookup k

theorem put_run_stored {c : LRUCache} (hc : 0 ≤ c.maxSize) {d : Directory} (ht : Timed d) (now : ℕ)
    {key : String} (hkey : key ≠ "") {value : Bytes} (hfits : value.length ≤ c.maxSize)
    (hnew : key ∉ d.cacheFiles) : ∃ d' gone kept,
      (c.put now key value).run d = (.ok (), d') ∧ Stored c now key value d d' gone kept := by
  obtain ⟨gone, kept, huse, hrun, hkept, hneeded⟩ :=
    LRUCache.put_run_add hc ht now hkey hfits hnew
  have hnodup := huse.nodup
  rw [List.map_append, List.nodup_append] at hnodup
  refine ⟨_, gone, kept, hrun, huse, hneeded, ?_, ?_, AList.lookup_insert _, ?_⟩
  · rw [totalSize_add huse now value hnew]
    omega
  · intro k
    by_cases hk : k = key
    · rw [if_pos hk, hk]
      exact AList.lookup_insert _
    · rw [if_neg hk, ← without_cacheFiles]
      exact AList.lookup_insert_ne hk
  · intro k hk
    have hgone : k ∉ gone.map Item.key := fun hg => hnodup.2.2 k hg k hk rfl
    have hkey : k ≠ key := by
      rintro rfl
      exact hnew (huse.keys.subset (by rw [List.map_append]; exact List.mem_append_right _ hk))
    rw [← without_atimeFiles gone d k hgone]
    exact AList.lookup_insert_ne hkey

/-- **The cache on disk stays bounded and usable**, whoever used the directory before, with
whatever limit, and wherever they stopped. -/
theorem put_get_reachable {d : Directory} (hd : Reachable d) {key : String} (hkey : key ≠ "") :
    (∀ (c : LRUCache) (now : ℕ) (value : Bytes), 0 ≤ c.maxSize →
      ((c.maxSize < value.length ∨ key ∈ d.cacheFiles) →
        (c.put now key value).run d = (.ok (), d)) ∧
      (value.length ≤ c.maxSize → key ∉ d.cacheFiles → Timed d →
        ∃ d' gone kept, (c.put now key value).run d = (.ok (), d') ∧
          Stored c now key value d d' gone kept)) ∧
    (∀ (c : LRUCache) (now : ℕ),
      ((c.get now key).run d).1 = .ok (d.history.lookup key).join) ∧
    (Orderly d → Timed d) := by
  refine ⟨fun c now value hc => ⟨?_, ?_⟩, ?_, timed_orderly⟩
  · exact LRUCache.put_run_nothing hc now hkey
  · exact fun hfits hnew ht => put_run_stored hc ht now hkey hfits hnew
  · intro c now
    rw [LRUCache.get_run c d now hkey, logged_reachable hd key]

/-- The directory after a cache with room has put four bytes. -/
def fourBytes : Directory := (Directory.empty.writeCache "a" [1, 2, 3, 4]).writeAtime "a" 1

theorem reachable_fourBytes : Reachable fourBytes := by
  have h := Prog.stops_run ((⟨10⟩ : LRUCache).put 1 "a" [1, 2, 3, 4]) Directory.empty
  exact Reachable.put _ _ _ _ .empty h

theorem put_get_reachable_fourBytes : Reachable fourBytes ∧
    (((⟨10⟩ : LRUCache).get 2 "a").run fourBytes).1 = .ok (some [1, 2, 3, 4]) ∧
    ∃ d' gone kept, ((⟨4⟩ : LRUCache).put 3 "b" [5]).run fourBytes = (.ok (), d') ∧
      Stored ⟨4⟩ 3 "b" [5] fourBytes d' gone kept := by
  refine ⟨reachable_fourBytes, ?_, ?_⟩
  · exact (@put_get_reachable _ reachable_fourBytes "a" (by decide)).2.1 ⟨10⟩ 2
  · have h := (@put_get_reachable _ reachable_fourBytes "b" (by decide)).1 ⟨4⟩ 3 [5] (by decide)
    exact h.2 (by decide) (by decide) fun k hk => hk

/-- A `put` of a key that is there does nothing, so it may leave a directory that a cache
with more room has filled above its own limit. -/
theorem put_over_limit : Reachable fourBytes ∧
    ((⟨1⟩ : LRUCache).put 2 "a" [5]).run fourBytes = (.ok (), fourBytes) ∧
    1 < fourBytes.totalSize := by
  exact ⟨reachable_fourBytes, rfl, by decide⟩

end JaxDas.LruCache
