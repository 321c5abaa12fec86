import Mathlib.Data.Int.Notation
import Mathlib.Data.List.Basic
import Mathlib.Data.List.GetD
import Mathlib.Tactic.Common

/-!
# Overlapping ranges

The range of an access has an integer or a slice for each dimension; what it lacks at its
end is all of the dimension. The race detector compares two ranges one dimension after the
other.

The comparison is not what its name says in two cases. A slice of all of a dimension is
taken to be empty next to another one, so two accesses to all of a buffer do not overlap.
And an empty slice overlaps a slice in which it begins. `rangesOverlap_iff` says exactly
when the answer is right all the same.
-/

namespace JaxDas.Interpret

/-- An element of a range: an integer, a slice of step one with a known stop, or
`slice(None)`. -/
inductive Index
  | int (i : ℤ)
  | slice (start : Option ℤ) (stop : ℤ)
  | full
  deriving DecidableEq

namespace Index

/-- `isinstance(slice_or_idx, int)`: the slice of one element. -/
def toSlice : Index → Index
  | int i => slice (some i) (i + 1)
  | x => x

/-- `_is_empty_slice` -/
def isEmptySlice : Index → Bool
  | int _ => false
  | full => false
  | slice start stop => decide (start.getD 0 < stop)

/-- `_slices_overlap`. It is `none` where an assertion that a start is known fails. -/
def slicesOverlap (x y : Index) : Option Bool :=
  match x.toSlice, y.toSlice with
  | full, y => some y.isEmptySlice
  | x, full => some x.isEmptySlice
  | slice (some a) b, slice (some c) d => some ((a ≤ c && c < b) || (c ≤ a && a < d))
  | _, _ => none

/-- The positions of a dimension that are meant. -/
def Has : Index → ℤ → Prop
  | int i, x => x = i
  | slice start stop, x => start.getD 0 ≤ x ∧ x < stop
  | full, _ => True

/-- No position of the dimension is in both. -/
def Misses (x y : Index) : Prop := ¬ ∃ i, x.Has i ∧ y.Has i

/-- Both are `slice(None)`. -/
def BothFull (x y : Index) : Prop := x = full ∧ y = full

/-- Neither is `slice(None)`, and one has no start. -/
def NoStart (x y : Index) : Prop :=
  x ≠ full ∧ y ≠ full ∧ ((∃ b, x = slice none b) ∨ ∃ b, y = slice none b)

/-- The first is an empty slice, and begins inside of the second. -/
def EmptyInside (x y : Index) : Prop :=
  match x.toSlice, y.toSlice with
  | slice (some a) b, slice (some c) d => b ≤ a ∧ c ≤ a ∧ a < d
  | _, _ => False

end Index

open Index

/-- The pairs of `itertools.zip_longest(range1, range2, fillvalue=slice(None))`. -/
def zipLongest : List Index → List Index → List (Index × Index)
  | [], ys => ys.map fun y => (full, y)
  | xs, [] => xs.map fun x => (x, full)
  | x :: xs, y :: ys => (x, y) :: zipLongest xs ys

/-- `all(...)` over the pairs: the first that does not overlap ends it. -/
def allOverlap : List (Index × Index) → Option Bool
  | [] => some true
  | (x, y) :: pairs =>
      match slicesOverlap x y with
      | none => none
      | some false => some false
      | some true => allOverlap pairs

/-- `_ranges_overlap` -/
def rangesOverlap (r₁ r₂ : List Index) : Option Bool :=
  allOverlap (zipLongest r₁ r₂)

/-- The ranges have a common element: an index that is in both, in every dimension. -/
def CommonElement (r₁ r₂ : List Index) : Prop :=
  ∃ index : ℕ → ℤ, ∀ d, (r₁.getD d full).Has (index d) ∧ (r₂.getD d full).Has (index d)

/-- The pair is seen to miss each other: both are all of the dimension, or there is no
common position and neither begins, empty, inside of the other. -/
def SeenApart (x y : Index) : Prop :=
  BothFull x y ∨ (Misses x y ∧ ¬ EmptyInside x y ∧ ¬ EmptyInside y x)

/-- The comparison of the ranges is right: a start that is not known is not needed, since an
earlier dimension is seen to be apart, ranges that both have all of a dimension miss each
other in another one, and where one range is empty and begins inside of the other, another
dimension is seen to be apart. -/
structure Comparable (r₁ r₂ : List Index) : Prop where
  start : ∀ before p after, zipLongest r₁ r₂ = before ++ p :: after → NoStart p.1 p.2 →
    ∃ q ∈ before, SeenApart q.1 q.2
  full : (∃ p ∈ zipLongest r₁ r₂, BothFull p.1 p.2) → ∃ p ∈ zipLongest r₁ r₂, Misses p.1 p.2
  empty : (∃ p ∈ zipLongest r₁ r₂, EmptyInside p.1 p.2 ∨ EmptyInside p.2 p.1) →
    ∃ p ∈ zipLongest r₁ r₂, SeenApart p.1 p.2

/-! ### One dimension -/

namespace Index

theorem has_toSlice (x : Index) (i : ℤ) : x.toSlice.Has i ↔ x.Has i := by
  cases x with
  | int k => simp only [toSlice, Has, Option.getD_some]; omega
  | slice start stop => exact Iff.rfl
  | full => exact Iff.rfl

theorem toSlice_eq_full {x : Index} : x.toSlice = full ↔ x = full := by
  cases x <;> simp [toSlice]

/-- The slice of an integer has a start. -/
theorem toSlice_cases (x : Index) :
    x = full ∨ (∃ b, x = slice none b) ∨ ∃ a b, x.toSlice = slice (some a) b := by
  cases x with
  | int i => exact .inr (.inr ⟨i, i + 1, rfl⟩)
  | full => exact .inl rfl
  | slice start stop =>
      cases start with
      | none => exact .inr (.inl ⟨stop, rfl⟩)
      | some a => exact .inr (.inr ⟨a, stop, rfl⟩)

/-- An index next to all of the dimension. -/
theorem isEmptySlice_iff {x : Index} :
    x.toSlice.isEmptySlice = true ↔ x ≠ full ∧ ∃ i, x.Has i := by
  cases x with
  | int i =>
      have hlt : i < i + 1 := by omega
      simp [toSlice, isEmptySlice, Has, hlt]
  | full => simp [toSlice, isEmptySlice]
  | slice start stop =>
      simp only [toSlice, isEmptySlice, Has, decide_eq_true_iff]
      constructor
      · intro hlt
        exact ⟨by intro h; injection h, start.getD 0, Int.le_refl _, hlt⟩
      · intro ⟨_, i, h₁, h₂⟩
        omega

theorem misses_comm {x y : Index} : Misses x y ↔ Misses y x := by
  simp only [Misses, and_comm]

theorem misses_full_left {y : Index} : Misses full y ↔ ¬ ∃ i, y.Has i := by
  simp [Misses, Has]

theorem not_emptyInside_full_left {y : Index} : ¬ EmptyInside full y := by
  simp [EmptyInside, toSlice]

theorem not_emptyInside_full_right {x : Index} : ¬ EmptyInside x full := by
  simp [EmptyInside, toSlice]

/-- What begins, empty, inside of another slice has no position in common with it. -/
theorem EmptyInside.misses {x y : Index} (h : EmptyInside x y) : Misses x y := by
  rintro ⟨i, hx, -⟩
  rw [← has_toSlice] at hx
  unfold EmptyInside at h
  split at h
  · rename_i a b c d hxs _
    rw [hxs] at hx
    simp only [Has, Option.getD_some] at hx
    omega
  · exact h

theorem seenApart_comm {x y : Index} : SeenApart x y ↔ SeenApart y x := by
  unfold SeenApart BothFull
  rw [misses_comm, and_comm (a := x = full)]
  tauto

theorem NoStart.symm {x y : Index} (h : NoStart x y) : NoStart y x :=
  ⟨h.2.1, h.1, h.2.2.symm⟩

theorem seenApart_full_left {y : Index} :
    SeenApart full y ↔ ¬ (y ≠ full ∧ ∃ i, y.Has i) := by
  simp only [SeenApart, BothFull, misses_full_left, not_emptyInside_full_left,
    not_emptyInside_full_right, true_and, not_false_eq_true, and_true]
  tauto

/-- Two slices with a start. -/
theorem seenApart_slices {x y : Index} {a b c d : ℤ} (hx : x.toSlice = slice (some a) b)
    (hy : y.toSlice = slice (some c) d) :
    SeenApart x y ↔ ¬ ((a ≤ c ∧ c < b) ∨ (c ≤ a ∧ a < d)) := by
  have hxf : x ≠ full := fun h => by rw [h] at hx; cases hx
  have hcommon : Misses x y ↔ ¬ (a < b ∧ c < d ∧ a < d ∧ c < b) := by
    have hxi : ∀ i, x.Has i ↔ a ≤ i ∧ i < b := fun i => by rw [← has_toSlice, hx]; rfl
    have hyi : ∀ i, y.Has i ↔ c ≤ i ∧ i < d := fun i => by rw [← has_toSlice, hy]; rfl
    simp only [Misses, hxi, hyi]
    refine not_congr ⟨fun ⟨i, h₁, h₂⟩ => by omega, fun h => ⟨max a c, by omega, by omega⟩⟩
  simp only [SeenApart, BothFull, hxf, false_and, false_or, hcommon, EmptyInside, hx, hy]
  omega

/-- The comparison fails where it needs a start that is not known, and else sees whether the
pair is apart. -/
theorem slicesOverlap_spec (x y : Index) :
    (slicesOverlap x y = none ↔ NoStart x y) ∧
      ∀ b, slicesOverlap x y = some b → (b = false ↔ SeenApart x y) := by
  by_cases hx : x = full
  · subst hx
    have hval : slicesOverlap full y = some y.toSlice.isEmptySlice := rfl
    refine ⟨by simp [hval, NoStart], ?_⟩
    intro b hb
    rw [hval] at hb
    injection hb with hb
    rw [seenApart_full_left, ← isEmptySlice_iff, hb, Bool.not_eq_true]
  by_cases hy : y = full
  · subst hy
    have hval : slicesOverlap x full = some x.toSlice.isEmptySlice := by
      cases x with
      | full => exact absurd rfl hx
      | int i => rfl
      | slice start stop => rfl
    refine ⟨by simp [hval, NoStart], ?_⟩
    intro b hb
    rw [hval] at hb
    injection hb with hb
    rw [seenApart_comm, seenApart_full_left, ← isEmptySlice_iff, hb, Bool.not_eq_true]
  · obtain rfl | ⟨b, rfl⟩ | ⟨a, b, hxs⟩ := toSlice_cases x
    · exact absurd rfl hx
    · have hval : slicesOverlap (slice none b) y = none := by
        rcases hy' : y.toSlice with i | ⟨c, d⟩ | _
        · rw [slicesOverlap, hy']; rfl
        · rw [slicesOverlap, hy']
          cases c with
          | none => rfl
          | some c => rfl
        · exact absurd (toSlice_eq_full.mp hy') hy
      rw [hval]
      exact ⟨by simp [NoStart, hy], fun _ h => nomatch h⟩
    · obtain rfl | ⟨d, rfl⟩ | ⟨c, d, hys⟩ := toSlice_cases y
      · exact absurd rfl hy
      · have hval : slicesOverlap x (slice none d) = none := by
          rw [slicesOverlap, hxs]; rfl
        rw [hval]
        exact ⟨by simp [NoStart, hx], fun _ h => nomatch h⟩
      · have hval : slicesOverlap x y =
            some ((a ≤ c && c < b) || (c ≤ a && a < d)) := by
          rw [slicesOverlap, hxs, hys]
        have hstart : ¬ NoStart x y := by
          rintro ⟨-, -, ⟨e, rfl⟩ | ⟨e, rfl⟩⟩
          · cases hxs
          · cases hys
        refine ⟨by simp [hval, hstart], ?_⟩
        intro e he
        rw [hval] at he
        injection he with he
        rw [seenApart_slices hxs hys, ← he]
        simp only [Bool.or_eq_false_iff, Bool.and_eq_false_iff, decide_eq_false_iff_not]
        omega

end Index

/-! ### All dimensions -/

theorem zipLongest_swap :
    ∀ r₁ r₂ : List Index, zipLongest r₂ r₁ = (zipLongest r₁ r₂).map Prod.swap
  | [], [] => rfl
  | [], y :: ys => by
      simp only [zipLongest, List.map_map]
      rfl
  | x :: xs, [] => by
      simp only [zipLongest, List.map_map]
      rfl
  | x :: xs, y :: ys => by
      rw [zipLongest, zipLongest, List.map_cons, zipLongest_swap xs ys]
      rfl

theorem getD_zipLongest :
    ∀ (r₁ r₂ : List Index) (d : ℕ),
      (zipLongest r₁ r₂).getD d (full, full) = (r₁.getD d full, r₂.getD d full)
  | [], ys, d => by
      simp only [zipLongest, List.getD_eq_getElem?_getD, List.getElem?_map, List.getElem?_nil,
        Option.getD_none]
      cases ys[d]? with
      | none => rfl
      | some y => rfl
  | x :: xs, [], d => by
      simp only [zipLongest, List.getD_eq_getElem?_getD, List.getElem?_map, List.getElem?_nil,
        Option.getD_none]
      cases (x :: xs)[d]? with
      | none => rfl
      | some y => rfl
  | x :: xs, y :: ys, 0 => rfl
  | x :: xs, y :: ys, d + 1 => by
      simp only [zipLongest, List.getD_cons_succ]
      exact getD_zipLongest xs ys d

theorem not_misses_full_full : ¬ Misses full full :=
  fun h => h ⟨0, trivial, trivial⟩

theorem commonElement_iff {r₁ r₂ : List Index} :
    CommonElement r₁ r₂ ↔ ∀ p ∈ zipLongest r₁ r₂, ¬ Misses p.1 p.2 := by
  constructor
  · intro ⟨index, h⟩ p hp hmiss
    obtain ⟨d, hd, rfl⟩ := List.getElem_of_mem hp
    have hget := getD_zipLongest r₁ r₂ d
    rw [List.getD_eq_getElem _ _ hd] at hget
    rw [hget] at hmiss
    exact hmiss ⟨index d, h d⟩
  · intro h
    have hall : ∀ d, ∃ i, (r₁.getD d full).Has i ∧ (r₂.getD d full).Has i := by
      intro d
      by_contra hmiss
      have hget := getD_zipLongest r₁ r₂ d
      by_cases hd : d < (zipLongest r₁ r₂).length
      · rw [List.getD_eq_getElem _ _ hd] at hget
        have hmem := h _ (List.getElem_mem hd)
        rw [hget] at hmem
        exact hmem hmiss
      · rw [List.getD_eq_default _ _ (by omega), Prod.mk.injEq] at hget
        rw [← hget.1, ← hget.2] at hmiss
        exact not_misses_full_full hmiss
    choose index hindex using hall
    exact ⟨index, hindex⟩

/-- `Comparable.start`, of any list of pairs. -/
def StartsKnown (pairs : List (Index × Index)) : Prop :=
  ∀ before p after, pairs = before ++ p :: after → NoStart p.1 p.2 →
    ∃ q ∈ before, SeenApart q.1 q.2

theorem startsKnown_cons {p : Index × Index} {pairs : List (Index × Index)} :
    StartsKnown (p :: pairs) ↔
      ¬ NoStart p.1 p.2 ∧ (SeenApart p.1 p.2 ∨ StartsKnown pairs) := by
  constructor
  · intro h
    refine ⟨fun hno => ?_, or_iff_not_imp_left.mpr fun hp before q after hq hno => ?_⟩
    · obtain ⟨_, hmem, _⟩ := h [] p pairs rfl hno
      cases hmem
    · obtain ⟨q', hmem, hseen⟩ := h (p :: before) q after (by rw [hq]; rfl) hno
      cases hmem with
      | head => exact absurd hseen hp
      | tail _ hmem => exact ⟨q', hmem, hseen⟩
  · rintro ⟨hp, h⟩ before q after hq hno
    cases before with
    | nil =>
        injection hq with hq
        rw [hq] at hp
        exact absurd hno hp
    | cons p' before =>
        injection hq with hq htail
        subst hq
        obtain hseen | h := h
        · exact ⟨p, List.mem_cons_self, hseen⟩
        · obtain ⟨q', hmem, hseen⟩ := h before q after htail hno
          exact ⟨q', List.mem_cons_of_mem _ hmem, hseen⟩

theorem allOverlap_spec (pairs : List (Index × Index)) :
    (allOverlap pairs = none ↔ ¬ StartsKnown pairs) ∧
      ∀ b, allOverlap pairs = some b → (b = false ↔ ∃ p ∈ pairs, SeenApart p.1 p.2) := by
  induction pairs with
  | nil =>
      refine ⟨by simp [allOverlap, StartsKnown], ?_⟩
      intro b hb
      injection hb with hb
      simp [← hb]
  | cons p pairs ih =>
      obtain ⟨x, y⟩ := p
      obtain ⟨hnone, hsome⟩ := slicesOverlap_spec x y
      rw [startsKnown_cons]
      simp only [List.exists_mem_cons_iff]
      unfold allOverlap
      rcases hxy : slicesOverlap x y with _ | _ | _
      · exact ⟨by simp [hnone.mp hxy], by simp⟩
      · have hno : ¬ NoStart x y := fun h => by rw [hnone.mpr h] at hxy; cases hxy
        have hseen : SeenApart x y := (hsome _ hxy).mp rfl
        exact ⟨by simp [hno, hseen], by simp [hseen]⟩
      · have hno : ¬ NoStart x y := fun h => by rw [hnone.mpr h] at hxy; cases hxy
        have hseen : ¬ SeenApart x y := fun h => by
          have := (hsome _ hxy).mpr h
          cases this
        simpa [hno, hseen] using ih

/-- The answer is right exactly for ranges that are `Comparable`. -/
theorem rangesOverlap_iff (r₁ r₂ : List Index) :
    (∃ b, rangesOverlap r₁ r₂ = some b ∧ (b = true ↔ CommonElement r₁ r₂)) ↔
      Comparable r₁ r₂ := by
  obtain ⟨hnone, hsome⟩ := allOverlap_spec (zipLongest r₁ r₂)
  rw [commonElement_iff]
  constructor
  · intro ⟨b, hb, hiff⟩
    have hfalse := hsome b hb
    refine ⟨?_, ?_, ?_⟩
    · by_contra hstart
      rw [rangesOverlap, hnone.mpr hstart] at hb
      cases hb
    · intro ⟨p, hp, hfull⟩
      have hb' : b = false := hfalse.mpr ⟨p, hp, .inl hfull⟩
      by_contra hmiss
      have : b = true := hiff.mpr fun q hq h => hmiss ⟨q, hq, h⟩
      rw [hb'] at this
      cases this
    · intro ⟨p, hp, hempty⟩
      refine hfalse.mp (Bool.eq_false_iff.mpr fun hb' => hiff.mp hb' p hp ?_)
      exact hempty.elim EmptyInside.misses fun h => misses_comm.mp h.misses
  · intro ⟨hstart, hfull, hempty⟩
    rcases hb : rangesOverlap r₁ r₂ with _ | b
    · exact absurd hstart (hnone.mp hb)
    · refine ⟨b, rfl, ?_⟩
      rw [← Bool.not_eq_false, hsome b hb, not_exists]
      constructor
      · intro h p hp hmiss
        have hin : EmptyInside p.1 p.2 ∨ EmptyInside p.2 p.1 := by
          by_contra hnot
          exact h p ⟨hp, .inr ⟨hmiss, fun h => hnot (.inl h), fun h => hnot (.inr h)⟩⟩
        obtain ⟨q, hq, hseen⟩ := hempty ⟨p, hp, hin⟩
        exact h q ⟨hq, hseen⟩
      · rintro h p ⟨hp, hbf | ⟨hmiss, -⟩⟩
        · obtain ⟨q, hq, hmiss⟩ := hfull ⟨p, hp, hbf⟩
          exact h q hq hmiss
        · exact h p hp hmiss

/-- Which of the two ranges comes first is of no importance. -/
theorem CommonElement.symm {r₁ r₂ : List Index} (h : CommonElement r₁ r₂) :
    CommonElement r₂ r₁ := by
  obtain ⟨index, h⟩ := h
  exact ⟨index, fun d => (h d).symm⟩

theorem Comparable.symm {r₁ r₂ : List Index} (h : Comparable r₁ r₂) :
    Comparable r₂ r₁ := by
  obtain ⟨hstart, hfull, hempty⟩ := h
  have hswap := zipLongest_swap r₁ r₂
  refine ⟨?_, ?_, ?_⟩
  · intro before p after hp hno
    rw [hswap] at hp
    have hback : zipLongest r₁ r₂ = before.map Prod.swap ++ p.swap :: after.map Prod.swap := by
      have := congrArg (List.map Prod.swap) hp
      simpa using this
    obtain ⟨q, hq, hseen⟩ := hstart _ _ _ hback hno.symm
    obtain ⟨q', hq', rfl⟩ := List.mem_map.mp hq
    exact ⟨q', hq', seenApart_comm.mp hseen⟩
  · rw [hswap]
    simp only [List.mem_map, Prod.exists, Prod.swap_prod_mk, Prod.mk.injEq]
    rintro ⟨_, _, ⟨x, y, hmem, rfl, rfl⟩, hbf⟩
    obtain ⟨p, hp, hmiss⟩ := hfull ⟨(x, y), hmem, hbf.2, hbf.1⟩
    exact ⟨p.2, p.1, ⟨p.1, p.2, hp, rfl, rfl⟩, misses_comm.mp hmiss⟩
  · rw [hswap]
    simp only [List.mem_map, Prod.exists, Prod.swap_prod_mk, Prod.mk.injEq]
    rintro ⟨_, _, ⟨x, y, hmem, rfl, rfl⟩, hin⟩
    obtain ⟨p, hp, hseen⟩ := hempty ⟨(x, y), hmem, hin.symm⟩
    exact ⟨p.2, p.1, ⟨p.1, p.2, hp, rfl, rfl⟩, seenApart_comm.mp hseen⟩

end JaxDas.Interpret
