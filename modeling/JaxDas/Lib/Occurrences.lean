import Mathlib.Data.List.Nodup
import Mathlib.Data.List.Perm.Subperm
import Mathlib.Logic.Function.Basic

/-!
# Occurrences

The elements of a list with the number of equal ones before each, which makes them distinct;
lists merged by occurrence; and a list with some of its positions replaced.
-/

namespace JaxDas

variable {α β : Type}

section

variable [DecidableEq α]

/-- Every element and the number of equal ones before it, with those that have been counted. -/
def enumerateFrom (counts : α → ℕ) : List α → List (α × ℕ)
  | [] => []
  | x :: xs => (x, counts x) :: enumerateFrom (Function.update counts x (counts x + 1)) xs

def enumerateEqual (xs : List α) : List (α × ℕ) := enumerateFrom (fun _ => 0) xs

theorem map_fst_enumerateFrom : ∀ (counts : α → ℕ) (xs : List α),
    (enumerateFrom counts xs).map Prod.fst = xs
  | _, [] => rfl
  | counts, x :: xs => by
      rw [enumerateFrom, List.map_cons, map_fst_enumerateFrom _ xs]

theorem mem_enumerateFrom {counts : α → ℕ} {xs : List α} {a : α} {k : ℕ} :
    (a, k) ∈ enumerateFrom counts xs ↔ counts a ≤ k ∧ k < counts a + xs.count a := by
  induction xs generalizing counts with
  | nil =>
      refine iff_of_false List.not_mem_nil ?_
      rw [List.count_nil]
      omega
  | cons x xs ih =>
      rw [enumerateFrom, List.mem_cons, ih, Prod.mk.injEq]
      by_cases h : x = a
      · subst h
        rw [Function.update_self, List.count_cons_self, eq_self, true_and]
        omega
      · rw [Function.update_of_ne (Ne.symm h), List.count_cons_of_ne h]
        simp [Ne.symm h]

theorem nodup_enumerateFrom : ∀ (counts : α → ℕ) (xs : List α), (enumerateFrom counts xs).Nodup
  | _, [] => List.nodup_nil
  | counts, x :: xs => by
      rw [enumerateFrom, List.nodup_cons, mem_enumerateFrom, Function.update_self]
      exact ⟨fun h => absurd h.1 (Nat.not_succ_le_self _), nodup_enumerateFrom _ xs⟩

theorem map_fst_enumerateEqual (xs : List α) : (enumerateEqual xs).map Prod.fst = xs :=
  map_fst_enumerateFrom _ xs

theorem length_enumerateEqual (xs : List α) : (enumerateEqual xs).length = xs.length := by
  rw [← List.length_map Prod.fst, map_fst_enumerateEqual]

theorem nodup_enumerateEqual (xs : List α) : (enumerateEqual xs).Nodup := nodup_enumerateFrom _ xs

/-- An element has the numbers below its count. -/
theorem mem_enumerateEqual {xs : List α} {a : α} {k : ℕ} :
    (a, k) ∈ enumerateEqual xs ↔ k < xs.count a := by
  rw [enumerateEqual, mem_enumerateFrom, Nat.zero_add]
  exact and_iff_right (Nat.zero_le k)

/-! ## Merging -/

theorem nodup_eraseDups [BEq β] [LawfulBEq β] : ∀ xs : List β, xs.eraseDups.Nodup
  | [] => List.nodup_nil
  | x :: xs => by
      rw [List.eraseDups_cons, List.nodup_cons]
      refine ⟨fun h => ?_, nodup_eraseDups _⟩
      simp at h
termination_by xs => xs.length
decreasing_by exact Nat.lt_succ_of_le (List.length_filter_le _ _)

/-- The elements of all lists, each as often as the list with the most of it has it. -/
def mergeOccurrences (xss : List (List α)) : List (α × ℕ) :=
  (xss.map enumerateEqual).flatten.eraseDups

variable {xss : List (List α)}

theorem nodup_mergeOccurrences : (mergeOccurrences xss).Nodup :=
  nodup_eraseDups (xss.map enumerateEqual).flatten

theorem mem_mergeOccurrences {a : α} {k : ℕ} :
    (a, k) ∈ mergeOccurrences xss ↔ ∃ xs ∈ xss, k < xs.count a := by
  rw [mergeOccurrences, List.mem_eraseDups, List.mem_flatten]
  constructor
  · rintro ⟨_, hmem, hk⟩
    obtain ⟨xs, hxs, rfl⟩ := List.mem_map.mp hmem
    exact ⟨xs, hxs, mem_enumerateEqual.mp hk⟩
  · rintro ⟨xs, hxs, hk⟩
    exact ⟨_, List.mem_map_of_mem hxs, mem_enumerateEqual.mpr hk⟩

/-- The numbers of an element in the merged list. -/
def numbers (xss : List (List α)) (a : α) : List ℕ :=
  ((mergeOccurrences xss).filter fun p => p.1 = a).map Prod.snd

theorem mem_numbers {a : α} {k : ℕ} : k ∈ numbers xss a ↔ ∃ xs ∈ xss, k < xs.count a := by
  rw [← mem_mergeOccurrences, numbers, List.mem_map]
  constructor
  · rintro ⟨⟨b, k'⟩, hp, rfl⟩
    obtain ⟨hmem, hb⟩ := List.mem_filter.mp hp
    have hb : b = a := by simpa using hb
    exact hb ▸ hmem
  · intro hmem
    exact ⟨(a, k), List.mem_filter.mpr ⟨hmem, by simp⟩, rfl⟩

theorem nodup_numbers (a : α) : (numbers xss a).Nodup := by
  refine (nodup_mergeOccurrences.filter _).map_on fun p hp q hq heq => ?_
  have hp1 : p.1 = a := by simpa using (List.mem_filter.mp hp).2
  have hq1 : q.1 = a := by simpa using (List.mem_filter.mp hq).2
  exact Prod.ext (hp1.trans hq1.symm) heq

theorem length_numbers (a : α) :
    (numbers xss a).length = ((mergeOccurrences xss).map Prod.fst).count a := by
  rw [numbers, List.length_map, ← List.countP_eq_length_filter, List.count, List.countP_map]
  exact List.countP_congr fun p _ => by simp

/-- The merged list has an element as often as the list with the most of it. -/
theorem count_mergeOccurrences {a : α} {xs : List α} (hxs : xs ∈ xss)
    (h : ∀ xs' ∈ xss, xs'.count a ≤ xs.count a) :
    ((mergeOccurrences xss).map Prod.fst).count a = xs.count a := by
  have hperm : (numbers xss a).Perm (List.range (xs.count a)) := by
    refine (List.perm_ext_iff_of_nodup (nodup_numbers a) List.nodup_range).mpr fun k => ?_
    rw [mem_numbers, List.mem_range]
    exact ⟨fun ⟨xs', hxs', hlt⟩ => Nat.lt_of_lt_of_le hlt (h xs' hxs'), fun hlt => ⟨xs, hxs, hlt⟩⟩
  rw [← length_numbers, hperm.length_eq, List.length_range]

/-- Where the elements of a list are among the merged ones. -/
def slots (xss : List (List α)) (xs : List α) : List ℕ :=
  (enumerateEqual xs).map fun tagged => (mergeOccurrences xss).idxOf tagged

section

variable {xs : List α}

theorem length_slots : (slots xss xs).length = xs.length := by
  rw [slots, List.length_map, length_enumerateEqual]

theorem mem_mergeOccurrences_of_mem (h : xs ∈ xss) {tagged : α × ℕ}
    (htagged : tagged ∈ enumerateEqual xs) : tagged ∈ mergeOccurrences xss :=
  mem_mergeOccurrences.mpr ⟨xs, h, mem_enumerateEqual.mp htagged⟩

/-- The slots of a list are distinct. -/
theorem nodup_slots (h : xs ∈ xss) : (slots xss xs).Nodup := by
  refine (nodup_enumerateEqual xs).map_on fun p hp q hq heq => ?_
  exact (List.idxOf_inj (mem_mergeOccurrences_of_mem h hp)).mp heq

theorem slots_lt (h : xs ∈ xss) {p : ℕ} (hp : p ∈ slots xss xs) :
    p < (mergeOccurrences xss).length := by
  obtain ⟨tagged, htagged, rfl⟩ := List.mem_map.mp hp
  exact List.idxOf_lt_length_of_mem (mem_mergeOccurrences_of_mem h htagged)

/-- In the slots of a list there are its elements. -/
theorem getElem?_slots (h : xs ∈ xss) :
    (slots xss xs).map (fun p => ((mergeOccurrences xss).map Prod.fst)[p]?) = xs.map some := by
  conv_rhs => rw [← map_fst_enumerateEqual xs, List.map_map]
  rw [slots, List.map_map]
  refine List.map_congr_left fun tagged htagged => ?_
  have hmem := mem_mergeOccurrences_of_mem h htagged
  rw [Function.comp_apply, Function.comp_apply, List.getElem?_map,
    List.getElem?_eq_getElem (List.idxOf_lt_length_of_mem hmem), List.getElem_idxOf]
  rfl

/-- A slot that a list does not have is of an element that another list has more often. -/
theorem not_mem_slots {p : ℕ} (hp : p < (mergeOccurrences xss).length) :
    p ∉ slots xss xs ↔ xs.count (mergeOccurrences xss)[p].1 ≤ (mergeOccurrences xss)[p].2 := by
  rw [← Nat.not_lt, ← mem_enumerateEqual, not_iff_not]
  constructor
  · intro hmem
    obtain ⟨tagged, htagged, rfl⟩ := List.mem_map.mp hmem
    rwa [List.getElem_idxOf]
  · intro hmem
    exact List.mem_map.mpr ⟨_, hmem, nodup_mergeOccurrences.idxOf_getElem _ hp⟩

end

end

/-! ## Reading -/

/-- The elements at some positions. -/
def readAt (lst : List α) (indices : List ℕ) : List α := indices.filterMap fun p => lst[p]?

section

variable {lst vals : List α} {indices : List ℕ}

/-- The values at some positions, one by one. -/
theorem getElem?_of_map_eq (h : indices.map (fun p => lst[p]?) = vals.map some) {j : ℕ}
    (hj : j < indices.length) : lst[indices[j]]? = vals[j]? := by
  have hlen : indices.length = vals.length := by
    rw [← List.length_map (fun p => lst[p]?), h, List.length_map]
  have hvals : j < vals.length := hlen ▸ hj
  have hj' : (indices.map (fun p => lst[p]?))[j]? = (vals.map some)[j]? := by rw [h]
  rw [List.getElem?_map, List.getElem?_eq_getElem hj, List.getElem?_map, Option.map_some,
    List.getElem?_eq_getElem hvals, Option.map_some] at hj'
  rw [List.getElem?_eq_getElem hvals]
  exact Option.some.inj hj'

theorem readAt_of_map_eq (h : indices.map (fun p => lst[p]?) = vals.map some) :
    readAt lst indices = vals := by
  have hid : readAt lst indices = (indices.map fun p => lst[p]?).filterMap id := by
    rw [List.filterMap_map]
    rfl
  rw [hid, h, List.filterMap_map]
  exact List.filterMap_some

theorem map_readAt (f : α → β) (lst : List α) (indices : List ℕ) :
    (readAt lst indices).map f = readAt (lst.map f) indices := by
  rw [readAt, readAt, List.map_filterMap]
  exact List.filterMap_congr fun p _ => List.getElem?_map.symm

theorem readAt_append (lst' : List α) (h : ∀ p ∈ indices, p < lst.length) :
    readAt (lst ++ lst') indices = readAt lst indices :=
  List.filterMap_congr fun p hp => List.getElem?_append_left (h p hp)

/-- The elements one by one. -/
theorem readAt_range (lst : List α) : readAt lst (List.range lst.length) = lst := by
  refine readAt_of_map_eq (List.ext_getElem? fun i => ?_)
  by_cases hi : i < lst.length
  · simp [hi]
  · simp [Nat.le_of_not_lt hi]

end

/-! ## Replacing -/

/-- `subvals`: the list with the elements at some positions replaced, one by one. -/
def subvals (lst : List α) (replace : List (ℕ × α)) : List α :=
  replace.foldl (fun lst p => lst.set p.1 p.2) lst

theorem length_subvals : ∀ (lst : List α) (replace : List (ℕ × α)),
    (subvals lst replace).length = lst.length
  | _, [] => rfl
  | lst, p :: replace => by
      rw [subvals, List.foldl_cons]
      exact (length_subvals (lst.set p.1 p.2) replace).trans List.length_set

theorem map_subvals (f : α → β) : ∀ (lst : List α) (replace : List (ℕ × α)),
    (subvals lst replace).map f = subvals (lst.map f) (replace.map fun p => (p.1, f p.2))
  | _, [] => rfl
  | lst, p :: replace => by
      rw [subvals, List.foldl_cons, List.map_cons, subvals, List.foldl_cons, ← List.map_set]
      exact map_subvals f (lst.set p.1 p.2) replace

theorem getElem?_subvals_of_not_mem : ∀ {lst : List α} {replace : List (ℕ × α)} {i : ℕ},
    i ∉ replace.map Prod.fst → (subvals lst replace)[i]? = lst[i]?
  | _, [], _, _ => rfl
  | lst, p :: replace, i, h => by
      rw [List.map_cons, List.mem_cons, not_or] at h
      rw [subvals, List.foldl_cons]
      exact (getElem?_subvals_of_not_mem h.2).trans (List.getElem?_set_ne (Ne.symm h.1))

theorem getElem?_subvals_of_mem : ∀ {lst : List α} {replace : List (ℕ × α)},
    (replace.map Prod.fst).Nodup → ∀ {p : ℕ × α}, p ∈ replace → p.1 < lst.length →
    (subvals lst replace)[p.1]? = some p.2
  | lst, q :: replace, hnd, p, hp, hlt => by
      rw [List.map_cons, List.nodup_cons] at hnd
      rw [subvals, List.foldl_cons]
      rcases List.mem_cons.mp hp with rfl | hp
      · exact (getElem?_subvals_of_not_mem hnd.1).trans (List.getElem?_set_self hlt)
      · exact getElem?_subvals_of_mem hnd.2 hp (List.length_set.symm ▸ hlt)

section

variable {lst vals : List α} {indices : List ℕ}

/-- Values that are put at distinct positions are there. -/
theorem getElem?_subvals_zip (hnd : indices.Nodup) (hlen : indices.length = vals.length)
    (hlt : ∀ p ∈ indices, p < lst.length) {j : ℕ} (hj : j < indices.length) :
    (subvals lst (indices.zip vals))[indices[j]]? = vals[j]? := by
  have hfst : (indices.zip vals).map Prod.fst = indices := List.map_fst_zip (Nat.le_of_eq hlen)
  have hmem : (indices[j], vals[j]) ∈ indices.zip vals := by
    refine List.mem_iff_getElem.mpr ⟨j, by rw [List.length_zip]; omega, ?_⟩
    exact List.getElem_zip
  have hlt := hlt _ (List.getElem_mem hj)
  rw [getElem?_subvals_of_mem (hfst.symm ▸ hnd) hmem hlt, List.getElem?_eq_getElem]

theorem getElem?_subvals_zip_of_not_mem (hlen : indices.length = vals.length) {p : ℕ}
    (hp : p ∉ indices) : (subvals lst (indices.zip vals))[p]? = lst[p]? :=
  getElem?_subvals_of_not_mem (by rwa [List.map_fst_zip (Nat.le_of_eq hlen)])

theorem map_getElem?_subvals (hnd : indices.Nodup) (hlen : indices.length = vals.length)
    (hlt : ∀ p ∈ indices, p < lst.length) :
    indices.map (fun p => (subvals lst (indices.zip vals))[p]?) = vals.map some := by
  refine List.ext_getElem (by rw [List.length_map, List.length_map, hlen]) fun j hj hj' => ?_
  rw [List.length_map] at hj hj'
  rw [List.getElem_map, List.getElem_map, getElem?_subvals_zip hnd hlen hlt hj,
    List.getElem?_eq_getElem hj']

/-- What is put at distinct positions is read there. -/
theorem readAt_subvals (hnd : indices.Nodup) (hlen : indices.length = vals.length)
    (hlt : ∀ p ∈ indices, p < lst.length) :
    readAt (subvals lst (indices.zip vals)) indices = vals :=
  readAt_of_map_eq (map_getElem?_subvals hnd hlen hlt)

/-- What is replaced by itself is not changed. -/
theorem subvals_eq_self (hnd : indices.Nodup)
    (h : indices.map (fun p => lst[p]?) = vals.map some) :
    subvals lst (indices.zip vals) = lst := by
  have hlen : indices.length = vals.length := by
    rw [← List.length_map (fun p => lst[p]?), h, List.length_map]
  have hget : ∀ j (hj : j < indices.length), lst[indices[j]]? = vals[j]? :=
    fun _ hj => getElem?_of_map_eq h hj
  have hlt : ∀ p ∈ indices, p < lst.length := by
    intro p hp
    obtain ⟨j, hj, rfl⟩ := List.getElem_of_mem hp
    have hvals : j < vals.length := hlen ▸ hj
    have hsome := hget j hj
    rw [List.getElem?_eq_getElem hvals] at hsome
    exact (List.getElem?_eq_some_iff.mp hsome).1
  refine List.ext_getElem? fun p => ?_
  by_cases hp : p ∈ indices
  · obtain ⟨j, hj, rfl⟩ := List.getElem_of_mem hp
    rw [getElem?_subvals_zip hnd hlen hlt hj, hget j hj]
  · exact getElem?_subvals_zip_of_not_mem hlen hp

end

/-- Where a number is when the numbers have been put at distinct positions. -/
theorem idxOf_subvals_range {n : ℕ} {indices : List ℕ} (hnd : indices.Nodup)
    (hlt : ∀ p ∈ indices, p < n) {v : ℕ} (hv : v < indices.length) :
    (subvals (List.replicate n none)
      (indices.zip ((List.range indices.length).map some))).idxOf (some v) = indices[v] := by
  have hlen : indices.length = ((List.range indices.length).map some).length := by simp
  have hlt' : ∀ p ∈ indices, p < (List.replicate n (none : Option ℕ)).length := by simpa using hlt
  generalize hlst : subvals (List.replicate n none)
    (indices.zip ((List.range indices.length).map some)) = lst
  have hget : ∀ w (hw : w < indices.length), lst[indices[w]]? = some (some w) := by
    intro w hw
    rw [← hlst, getElem?_subvals_zip hnd hlen hlt' hw]
    simp [hw]
  have hidx : lst.idxOf (some v) < lst.length :=
    List.idxOf_lt_length_of_mem (List.mem_of_getElem? (hget v hv))
  have hself : lst[lst.idxOf (some v)]? = some (some v) := by
    rw [List.getElem?_eq_getElem hidx, List.getElem_idxOf]
  by_cases hmem : lst.idxOf (some v) ∈ indices
  · obtain ⟨w, hw, hweq⟩ := List.getElem_of_mem hmem
    rw [← hweq, hget w hw] at hself
    cases hself
    exact hweq.symm
  · rw [← hlst] at hself hmem
    rw [getElem?_subvals_zip_of_not_mem hlen hmem] at hself
    have hnone := List.eq_of_mem_replicate (List.mem_of_getElem? hself)
    cases hnone

end JaxDas
