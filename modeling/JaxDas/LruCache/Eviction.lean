import JaxDas.LruCache.Cache

/-!
# What one call does when nothing stops it

`_evict_if_needed` reads both files of every entry, so it returns where every cache file
has its access time file. It then removes the shortest run of entries, in the order of
recorded use, that leaves room for the new one.
-/

namespace JaxDas.LruCache

/-! ## Entries in the order of use -/

/-- What the queue holds for a key. -/
def Directory.item (d : Directory) (key : String) : Item :=
  ⟨(d.atimeFiles.lookup key).getD 0, key, ((d.cacheFiles.lookup key).map List.length).getD 0⟩

/-- The size of some entries. -/
def sizeOf (l : List Item) : ℕ := (l.map Item.fileSize).sum

/-- The size of all cache files. -/
def Directory.totalSize (d : Directory) : ℕ := sizeOf (d.cacheFiles.keys.map d.item)

/-- `l` has an element for every cache file, with what its two files record, least recently
used first. -/
structure ByUse (d : Directory) (l : List Item) : Prop where
  sorted : l.Pairwise Item.le
  perm : l.Perm (d.cacheFiles.keys.map d.item)

/-- The directory without the entries of some keys. -/
def Directory.without (d : Directory) (l : List Item) : Directory :=
  l.foldl (fun d x => (d.unlinkCache x.key).unlinkAtime x.key) d

@[simp] theorem Directory.item_key (d : Directory) (key : String) : (d.item key).key = key := rfl

@[simp] theorem sizeOf_nil : sizeOf [] = 0 := rfl

@[simp] theorem sizeOf_cons (x : Item) (l : List Item) : sizeOf (x :: l) = x.fileSize + sizeOf l := by
  rw [sizeOf, List.map_cons, List.sum_cons, sizeOf]

@[simp] theorem sizeOf_append (l m : List Item) : sizeOf (l ++ m) = sizeOf l + sizeOf m := by
  rw [sizeOf, List.map_append, List.sum_append, sizeOf, sizeOf]

theorem sizeOf_perm {l m : List Item} (h : l.Perm m) : sizeOf l = sizeOf m :=
  (h.map Item.fileSize).sum_nat

instance : Std.Total Item.le := ⟨fun x y => le_total x.tuple y.tuple⟩

instance : IsTrans Item Item.le := ⟨fun _ _ _ hxy hyz => le_trans hxy hyz⟩

theorem heappush_perm (h : List Item) (x : Item) : (heappush h x).Perm (x :: h) :=
  List.perm_orderedInsert Item.le x h

theorem ByUse.keys {d : Directory} {l : List Item} (h : ByUse d l) :
    (l.map Item.key).Perm d.cacheFiles.keys := by
  have hp := h.perm.map Item.key
  rwa [List.map_map, show Item.key ∘ d.item = id from rfl, List.map_id] at hp

theorem ByUse.eq_item {d : Directory} {l : List Item} (h : ByUse d l) {x : Item} (hx : x ∈ l) :
    x = d.item x.key := by
  obtain ⟨k, -, hk⟩ := List.mem_map.mp (h.perm.subset hx)
  rw [← hk, Directory.item_key]

theorem ByUse.nodup {d : Directory} {l : List Item} (h : ByUse d l) : (l.map Item.key).Nodup :=
  h.keys.nodup_iff.mpr d.cacheFiles.keys_nodup

theorem mem_of_lookup {β : Type} {s : AList (fun _ : String => β)} {k : String} (h : k ∈ s) :
    ∃ b, s.lookup k = some b :=
  Option.isSome_iff_exists.mp (AList.lookup_isSome.mpr h)

/-! ## The two loops -/

/-- The `for` loop pushes an element for every name and changes nothing. -/
theorem scan_run {d : Directory} (ht : Timed d) : ∀ (names : List String) (h : List Item) (n : ℕ),
    (∀ k ∈ names, k ∈ d.cacheFiles) → (scan names h n).run d
      = (.ok ((names.map d.item).foldl heappush h, n + sizeOf (names.map d.item)), d)
  | [], _, _, _ => rfl
  | key :: rest, h, n, hmem => by
      have hkey : key ∈ d.cacheFiles := hmem key List.mem_cons_self
      obtain ⟨v, hv⟩ := mem_of_lookup hkey
      obtain ⟨t, hat⟩ := mem_of_lookup (ht key hkey)
      have hitem : d.item key = ⟨t, key, v.length⟩ := by rw [Directory.item, hv, hat]; rfl
      have hstat : (Io.statCache key).run d = (.ok v.length, d) := by
        rw [Io.statCache, Prog.run_look, hv]
        rfl
      have hread : (Io.readAtime key).run d = (.ok t, d) := by
        rw [Io.readAtime, Prog.run_look, hat]
        rfl
      have ih := scan_run ht rest (heappush h (d.item key)) (n + (d.item key).fileSize)
        fun k hk => hmem k (List.mem_cons_of_mem _ hk)
      rw [scan, Prog.run_bind_ok hstat, Prog.run_bind_ok hread, List.map_cons, List.foldl_cons,
        sizeOf_cons, ← Nat.add_assoc, ← ih, hitem]

theorem foldl_heappush_perm (l : List Item) : ∀ h, (l.foldl heappush h).Perm (l ++ h) := by
  induction l with
  | nil => exact fun h => .refl h
  | cons x l ih =>
      intro h
      refine (ih (heappush h x)).trans ?_
      exact ((heappush_perm h x).append_left l).trans List.perm_middle

theorem foldl_heappush_sorted (l : List Item) :
    ∀ h : List Item, h.Pairwise Item.le → (l.foldl heappush h).Pairwise Item.le := by
  induction l with
  | nil => exact fun h hs => hs
  | cons x l ih => exact fun h hs => ih _ (List.Pairwise.orderedInsert x h hs)

/-- The `while` loop removes elements from the front until what is left is small enough, and
none before it has to. -/
theorem evict_run {target : ℤ} (htarget : 0 ≤ target) : ∀ {l : List Item} {d : Directory},
    (l.map Item.key).Nodup → (∀ x ∈ l, x.key ∈ d.cacheFiles ∧ x.key ∈ d.atimeFiles) →
    ∃ gone kept, l = gone ++ kept ∧ (evict target l (sizeOf l)).run d = (.ok (), d.without gone) ∧
      (sizeOf kept : ℤ) ≤ target ∧
      ∀ g x g', gone = g ++ x :: g' → target < sizeOf (x :: g' ++ kept)
  | [], d, _, _ => by
      refine ⟨[], [], rfl, ?_, by simpa using htarget, ?_⟩
      · rw [evict, if_neg (by simpa using htarget)]
        rfl
      · intro g x g' h
        exact absurd h (by simp)
  | x :: l, d, hnodup, hmem => by
      by_cases hbig : target < sizeOf (x :: l)
      · obtain ⟨hnew, hnodup⟩ := List.nodup_cons.mp hnodup
        obtain ⟨hc, ha⟩ := hmem x List.mem_cons_self
        obtain ⟨v, hv⟩ := mem_of_lookup hc
        obtain ⟨t, hat⟩ := mem_of_lookup ha
        have hcache : (Io.unlinkCache x.key).run d = (.ok (), d.unlinkCache x.key) :=
          Prog.run_change_ok (by rw [hv]; rfl)
        have hatime : (Io.unlinkAtime x.key).run (d.unlinkCache x.key)
            = (.ok (), (d.unlinkCache x.key).unlinkAtime x.key) :=
          Prog.run_change_ok (by rw [Directory.unlinkCache, hat]; rfl)
        -- the other entries still have both files
        have hrest : ∀ y ∈ l, y.key ∈ ((d.unlinkCache x.key).unlinkAtime x.key).cacheFiles ∧
            y.key ∈ ((d.unlinkCache x.key).unlinkAtime x.key).atimeFiles := by
          intro y hy
          have hne : y.key ≠ x.key := by
            intro he
            exact hnew (he ▸ List.mem_map_of_mem hy)
          obtain ⟨hyc, hya⟩ := hmem y (List.mem_cons_of_mem _ hy)
          exact ⟨AList.mem_erase.mpr ⟨hne, hyc⟩, AList.mem_erase.mpr ⟨hne, hya⟩⟩
        obtain ⟨gone, kept, rfl, hrun, hkept, hneeded⟩ := evict_run htarget hnodup hrest
        refine ⟨x :: gone, kept, rfl, ?_, hkept, ?_⟩
        · have hsize : ((sizeOf (x :: (gone ++ kept)) : ℕ) : ℤ) - x.fileSize
              = (sizeOf (gone ++ kept) : ℕ) := by
            rw [sizeOf_cons]
            omega
          rw [evict, if_pos hbig, Prog.run_bind_ok hcache, Prog.run_bind_ok hatime, hsize, hrun]
          rfl
        · intro g y g' hg
          rcases List.cons_eq_append_iff.mp hg with ⟨rfl, hg⟩ | ⟨g₀, rfl, hg⟩
          · obtain ⟨rfl, rfl⟩ := List.cons.inj hg
            exact hbig
          · exact hneeded g₀ y g' (List.cons.inj hg).2
      · refine ⟨[], x :: l, rfl, ?_, by omega, ?_⟩
        · rw [evict, if_neg hbig]
          rfl
        · intro g y g' h
          exact absurd h (by simp)

/-! ## The calls -/

namespace LRUCache

variable {c : LRUCache} {d : Directory}

theorem evictionEnabled_of_nonneg (hc : 0 ≤ c.maxSize) : c.evictionEnabled = true := by
  rw [evictionEnabled, bne_iff_ne]
  omega

theorem recordUse_run (hc : c.evictionEnabled = true) (now : ℕ) (key : String) :
    (c.recordUse now key).run d = (.ok (), d.writeAtime key now) := by
  rw [recordUse, if_pos hc]
  rfl

/-- What `_evict_if_needed` leaves when every cache file has its access time file. -/
theorem evictIfNeeded_run (hc : 0 ≤ c.maxSize) (ht : Timed d) {n : ℕ} (hn : (n : ℤ) ≤ c.maxSize) :
    ∃ gone kept, ByUse d (gone ++ kept) ∧
      (c.evictIfNeeded n).run d = (.ok (), d.without gone) ∧
      (sizeOf kept : ℤ) + n ≤ c.maxSize ∧
      ∀ g x g', gone = g ++ x :: g' → c.maxSize < sizeOf (x :: g' ++ kept) + n := by
  let items := d.cacheFiles.keys.map d.item
  have huse : ByUse d (items.foldl heappush []) := by
    refine ⟨foldl_heappush_sorted _ [] .nil, ?_⟩
    simpa using foldl_heappush_perm items []
  have hscan := scan_run ht d.cacheFiles.keys [] 0 fun k hk => hk
  rw [Nat.zero_add, ← sizeOf_perm huse.perm] at hscan
  have hmem : ∀ x ∈ items.foldl heappush [], x.key ∈ d.cacheFiles ∧ x.key ∈ d.atimeFiles := by
    intro x hx
    have hk : x.key ∈ d.cacheFiles := huse.keys.subset (List.mem_map_of_mem hx)
    exact ⟨hk, ht _ hk⟩
  obtain ⟨gone, kept, hsplit, hrun, hkept, hneeded⟩ :=
    evict_run (show 0 ≤ c.maxSize - n by omega) huse.nodup hmem
  refine ⟨gone, kept, hsplit ▸ huse, ?_, by omega, ?_⟩
  · have hglob : Io.globCache.run d = (.ok d.cacheFiles.keys, d) := rfl
    rw [evictIfNeeded, if_pos (evictionEnabled_of_nonneg hc), Prog.run_bind_ok hglob,
      Prog.run_bind_ok hscan]
    exact hrun
  · intro g x g' h
    have := hneeded g x g' h
    omega

theorem get_run (c : LRUCache) (d : Directory) (now : ℕ) {key : String} (hkey : key ≠ "") :
    ((c.get now key).run d).1 = .ok (d.cacheFiles.lookup key) := by
  have hexists : (Io.cacheExists key).run d = (.ok (decide (key ∈ d.cacheFiles)), d) := rfl
  rw [get, if_neg hkey, Prog.run_bind_ok hexists]
  by_cases h : key ∈ d.cacheFiles
  · obtain ⟨v, hv⟩ := mem_of_lookup h
    have hread : (Io.readCache key).run d = (.ok v, d) := by
      rw [Io.readCache, Prog.run_look, hv]
      rfl
    rw [decide_eq_true h, if_pos rfl, Prog.run_bind_ok hread, hv]
    cases he : c.evictionEnabled with
    | true => rw [Prog.run_bind_ok (recordUse_run he now key)]; rfl
    | false => rw [recordUse, he]; rfl
  · rw [decide_eq_false h, AList.lookup_eq_none.mpr h]
    rfl

/-- `put` does nothing for a value that is too large or a key that has a file. -/
theorem put_run_nothing (hc : 0 ≤ c.maxSize) (now : ℕ) {key : String} (hkey : key ≠ "")
    {value : Bytes} (h : c.maxSize < value.length ∨ key ∈ d.cacheFiles) :
    (c.put now key value).run d = (.ok (), d) := by
  have hexists : (Io.cacheExists key).run d = (.ok (decide (key ∈ d.cacheFiles)), d) := rfl
  rw [put, if_neg hkey]
  by_cases hbig : c.maxSize < value.length
  · rw [if_pos ⟨evictionEnabled_of_nonneg hc, hbig⟩]
    rfl
  · have hmem : key ∈ d.cacheFiles := h.resolve_left hbig
    rw [if_neg fun hb => hbig hb.2, Prog.run_bind_ok hexists, decide_eq_true hmem]
    rfl

/-- Otherwise it evicts, and writes the two files. -/
theorem put_run_add (hc : 0 ≤ c.maxSize) (ht : Timed d) (now : ℕ) {key : String} (hkey : key ≠ "")
    {value : Bytes} (hfits : value.length ≤ c.maxSize) (hnew : key ∉ d.cacheFiles) :
    ∃ gone kept, ByUse d (gone ++ kept) ∧
      (c.put now key value).run d
        = (.ok (), ((d.without gone).writeCache key value).writeAtime key now) ∧
      (sizeOf kept : ℤ) + value.length ≤ c.maxSize ∧
      ∀ g x g', gone = g ++ x :: g' → c.maxSize < sizeOf (x :: g' ++ kept) + value.length := by
  have hexists : (Io.cacheExists key).run d = (.ok (decide (key ∈ d.cacheFiles)), d) := rfl
  obtain ⟨gone, kept, huse, hrun, hkept, hneeded⟩ := evictIfNeeded_run hc ht hfits
  refine ⟨gone, kept, huse, ?_, hkept, hneeded⟩
  have hwrite : (Io.writeCache key value).run (d.without gone)
      = (.ok (), (d.without gone).writeCache key value) := rfl
  rw [put, if_neg hkey, if_neg (by omega), Prog.run_bind_ok hexists, decide_eq_false hnew,
    if_neg Bool.false_ne_true, add, Prog.run_bind_ok hrun, Prog.run_bind_ok hwrite,
    recordUse_run (evictionEnabled_of_nonneg hc)]

end LRUCache

end JaxDas.LruCache
