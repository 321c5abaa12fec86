import JaxDas.Lib.NdArray
import Mathlib.Data.List.Nodup
import Mathlib.Tactic.Linarith

/-!
# Basic indexing

An integer takes an array at one position of an axis, a slice at a list of positions. The result
has an axis for every slice and for every axis that the index says nothing of. Indexing the result
again is indexing once, with the positions looked up in those of before.
-/

namespace JaxDas

/-! ## Positions -/

/-- Where an axis is taken: at one position, or at those of a list. -/
inductive AxisPick where
  | one (i : ℕ)
  | many (is : List ℕ)
deriving DecidableEq, Repr

namespace AxisPick

/-- The positions are those of an axis of size `n`. -/
def Fits : AxisPick → ℕ → Prop
  | one i, n => i < n
  | many is, n => ∀ i ∈ is, i < n

end AxisPick

/-- The picks are for the first axes of a shape, and fit them. -/
inductive FitsAll : List AxisPick → List ℕ → Prop where
  | nil (shape : List ℕ) : FitsAll [] shape
  | cons {p : AxisPick} {ps : List AxisPick} {n : ℕ} {shape : List ℕ} (hp : p.Fits n)
      (h : FitsAll ps shape) : FitsAll (p :: ps) (n :: shape)

def pickShape : List AxisPick → List ℕ → List ℕ
  | [], shape => shape
  | .one _ :: ps, _ :: shape => pickShape ps shape
  | .many is :: ps, _ :: shape => is.length :: pickShape ps shape
  | _ :: _, [] => []

/-- The element of the array that is at an index of the result. -/
def pickIndex : List AxisPick → List ℕ → List ℕ
  | [], idx => idx
  | .one i :: ps, idx => i :: pickIndex ps idx
  | .many is :: ps, k :: idx => is.getD k 0 :: pickIndex ps idx
  | .many _ :: _, [] => []

theorem within_pickIndex {ps : List AxisPick} {shape : List ℕ} (h : FitsAll ps shape) :
    ∀ {idx : List ℕ}, Within (pickShape ps shape) idx → Within shape (pickIndex ps idx) := by
  induction h with
  | nil shape => exact fun h => h
  | @cons p ps n shape hp _ ih =>
      intro idx hidx
      cases p with
      | one i => exact .cons hp (ih hidx)
      | many is =>
          cases hidx with
          | cons hk hidx =>
              refine .cons ?_ (ih hidx)
              rw [List.getD_eq_getElem _ _ hk]
              exact hp _ (List.getElem_mem hk)

namespace NdArray

variable {α : Type}

def pick (x : NdArray α) (ps : List AxisPick) (h : FitsAll ps x.shape) : NdArray α where
  shape := pickShape ps x.shape
  get? := fun idx => if Within (pickShape ps x.shape) idx then x.get? (pickIndex ps idx) else none
  within := by
    intro idx
    split
    · next hidx => exact iff_of_true ((x.within _).mpr (within_pickIndex h hidx)) hidx
    · next hidx => exact iff_of_false (by simp) hidx

theorem pick_get? {x : NdArray α} {ps : List AxisPick} (h : FitsAll ps x.shape) {idx : List ℕ}
    (hidx : Within (pickShape ps x.shape) idx) :
    (x.pick ps h).get? idx = x.get? (pickIndex ps idx) := if_pos hidx

theorem pick_congr {x : NdArray α} {ps qs : List AxisPick} (h : ps = qs) (hp : FitsAll ps x.shape)
    (hq : FitsAll qs x.shape) : x.pick ps hp = x.pick qs hq := by
  subst h
  rfl

theorem pick_nil (x : NdArray α) : x.pick [] (.nil x.shape) = x := by
  refine NdArray.ext rfl (funext fun idx => ?_)
  by_cases hidx : Within x.shape idx
  · exact if_pos hidx
  · exact (if_neg hidx).trans (get?_eq_none hidx).symm

end NdArray

/-! ## Picks of picks -/

/-- The positions of the second picks, looked up in those of the first. -/
def compPicks : List AxisPick → List AxisPick → List AxisPick
  | [], qs => qs
  | .one i :: ps, qs => .one i :: compPicks ps qs
  | .many is :: ps, [] => .many is :: ps
  | .many is :: ps, .one j :: qs => .one (is.getD j 0) :: compPicks ps qs
  | .many is :: ps, .many js :: qs => .many (js.map (is.getD · 0)) :: compPicks ps qs

theorem compPicks_nil : ∀ ps : List AxisPick, compPicks ps [] = ps
  | [] => rfl
  | .one i :: ps => congrArg (AxisPick.one i :: ·) (compPicks_nil ps)
  | .many _ :: _ => rfl

theorem compPicks_spec {ps : List AxisPick} {shape : List ℕ} (h : FitsAll ps shape) :
    ∀ {qs : List AxisPick}, FitsAll qs (pickShape ps shape) →
      FitsAll (compPicks ps qs) shape ∧
        pickShape (compPicks ps qs) shape = pickShape qs (pickShape ps shape) ∧
        ∀ idx, Within (pickShape qs (pickShape ps shape)) idx →
          pickIndex (compPicks ps qs) idx = pickIndex ps (pickIndex qs idx) := by
  induction h with
  | nil shape => exact fun hq => ⟨hq, rfl, fun _ _ => rfl⟩
  | @cons p ps n shape hp hps ih =>
      intro qs hq
      cases p with
      | one i =>
          obtain ⟨hfits, hshape, hindex⟩ := ih hq
          exact ⟨.cons hp hfits, hshape, fun idx hidx => congrArg (i :: ·) (hindex idx hidx)⟩
      | many is =>
          cases hq with
          | nil _ => exact ⟨.cons hp hps, rfl, fun _ _ => rfl⟩
          | @cons q qs _ _ hq hqs =>
              obtain ⟨hfits, hshape, hindex⟩ := ih hqs
              have hget : ∀ j < is.length, is.getD j 0 < n := by
                intro j hj
                rw [List.getD_eq_getElem _ _ hj]
                exact hp _ (List.getElem_mem hj)
              cases q with
              | one j =>
                  refine ⟨.cons (hget j hq) hfits, hshape, fun idx hidx => ?_⟩
                  exact congrArg (_ :: ·) (hindex idx hidx)
              | many js =>
                  refine ⟨.cons (fun i hi => ?_) hfits, ?_, fun idx hidx => ?_⟩
                  · obtain ⟨j, hj, rfl⟩ := List.mem_map.mp hi
                    exact hget j (hq j hj)
                  · exact congrArg₂ (· :: ·) (List.length_map _) hshape
                  · cases hidx with
                    | @cons k _ idx _ hk hidx =>
                        refine congrArg₂ (· :: ·) ?_ (hindex idx hidx)
                        rw [List.getD_eq_getElem _ _ (by rwa [List.length_map]), List.getElem_map,
                          List.getD_eq_getElem _ _ hk]

theorem NdArray.pick_pick {α : Type} {x : NdArray α} {ps qs : List AxisPick}
    (h : FitsAll ps x.shape) (hq : FitsAll qs (x.pick ps h).shape) :
    (x.pick ps h).pick qs hq = x.pick (compPicks ps qs) (compPicks_spec h hq).1 := by
  obtain ⟨-, hshape, hindex⟩ := compPicks_spec h hq
  refine NdArray.ext hshape.symm (funext fun idx => ?_)
  by_cases hidx : Within (pickShape qs (pickShape ps x.shape)) idx
  · rw [pick_get? hq hidx, pick_get? h (within_pickIndex hq hidx),
      pick_get? _ (by rwa [hshape]), hindex idx hidx]
  · rw [get?_eq_none hidx, get?_eq_none]
    exact fun h => hidx (hshape ▸ h)

/-! ## Integers and slices -/

/-- An integer or a slice, for one axis. -/
inductive RangeIndex where
  | int (i : ℤ)
  | slice (start stop step : ℤ)
deriving DecidableEq, Repr

namespace RangeIndex

/-- A bound of a slice, brought into an axis of size `n`. -/
def adjust (n : ℕ) (step v : ℤ) : ℤ :=
  if v < 0 then max (v + n) (if step < 0 then -1 else 0)
  else min v (if step < 0 then n - 1 else n)

/-- The number of positions of a slice with bounds that are brought in. -/
def sliceLength (start stop step : ℤ) : ℕ :=
  if step < 0 then (if stop < start then ((start - stop - 1) / -step + 1).toNat else 0)
  else if start < stop then ((stop - start - 1) / step + 1).toNat else 0

/-- Indexing an axis of size `n`: an integer that is not in it is an error, and so is a step of 0. -/
def resolve (n : ℕ) : RangeIndex → Option AxisPick
  | int i =>
      let j := if i < 0 then i + n else i
      if 0 ≤ j ∧ j < n then some (.one j.toNat) else none
  | slice start stop step =>
      if step = 0 then none
      else
        let start := adjust n step start
        let stop := adjust n step stop
        some (.many ((List.range (sliceLength start stop step)).map fun k : ℕ =>
          (start + k * step).toNat))

theorem adjust_bounds (n : ℕ) (step v : ℤ) : (if step < 0 then -1 else 0) ≤ adjust n step v ∧
    adjust n step v ≤ if step < 0 then (n : ℤ) - 1 else n := by
  unfold adjust
  split <;> split <;> omega

theorem mul_lt_of_lt_sliceLength {start stop step : ℤ} {k : ℕ} (h : k < sliceLength start stop step)
    (hstep : step ≠ 0) : if step < 0 then stop < start + k * step else start + k * step < stop := by
  unfold sliceLength at h
  split
  · next hneg =>
      rw [if_pos hneg] at h
      split at h
      · have hdiv := Int.ediv_mul_le (start - stop - 1) (by omega : -step ≠ 0)
        have hk : (k : ℤ) ≤ (start - stop - 1) / -step := by omega
        have hmul := Int.mul_le_mul_of_nonneg_right hk (by omega : 0 ≤ -step)
        linarith
      · omega
  · next hneg =>
      rw [if_neg hneg] at h
      split at h
      · have hdiv := Int.ediv_mul_le (stop - start - 1) hstep
        have hk : (k : ℤ) ≤ (stop - start - 1) / step := by omega
        have hmul := Int.mul_le_mul_of_nonneg_right hk (by omega : 0 ≤ step)
        linarith
      · omega

theorem resolve_fits {n : ℕ} {r : RangeIndex} {p : AxisPick} (h : r.resolve n = some p) :
    p.Fits n := by
  cases r with
  | int i =>
      rw [resolve] at h
      generalize (if i < 0 then i + n else i) = j at h
      simp only [Option.ite_none_right_eq_some] at h
      obtain ⟨hin, hp⟩ := h
      obtain rfl := Option.some.inj hp
      exact (Int.toNat_lt hin.1).mpr hin.2
  | slice start stop step =>
      simp only [resolve] at h
      split at h
      · cases h
      · next hstep =>
          obtain rfl := Option.some.inj h
          intro i hi
          obtain ⟨k, hk, rfl⟩ := List.mem_map.mp hi
          have hlt := mul_lt_of_lt_sliceLength (List.mem_range.mp hk) hstep
          have hk0 : (0 : ℤ) ≤ k := by omega
          obtain ⟨hstart, hstart'⟩ := adjust_bounds n step start
          obtain ⟨hstop, hstop'⟩ := adjust_bounds n step stop
          have hin : 0 ≤ adjust n step start + k * step ∧ adjust n step start + k * step < n := by
            split at hlt
            · next hneg =>
                rw [if_pos hneg] at hstart' hstop
                have hmul : k * step ≤ 0 := mul_nonpos_of_nonneg_of_nonpos hk0 (by omega)
                constructor <;> omega
            · next hneg =>
                rw [if_neg hneg] at hstart hstop'
                have hmul : 0 ≤ k * step := mul_nonneg hk0 (by omega)
                constructor <;> omega
          exact (Int.toNat_lt hin.1).mpr hin.2

end RangeIndex

/-- Indexing the first axes of a shape; it is an error if there are too few of them. -/
def resolveAll : List RangeIndex → List ℕ → Option (List AxisPick)
  | [], _ => some []
  | _ :: _, [] => none
  | r :: rs, n :: shape => do
      let p ← r.resolve n
      let ps ← resolveAll rs shape
      return p :: ps

theorem resolveAll_cons {r : RangeIndex} {rs : List RangeIndex} {n : ℕ} {shape : List ℕ}
    {ps : List AxisPick} : resolveAll (r :: rs) (n :: shape) = some ps ↔
      ∃ p qs, r.resolve n = some p ∧ resolveAll rs shape = some qs ∧ ps = p :: qs := by
  rw [resolveAll, Option.bind_eq_bind, Option.bind_eq_some_iff]
  constructor
  · rintro ⟨p, hp, h⟩
    obtain ⟨qs, hqs, h⟩ := Option.bind_eq_some_iff.mp h
    exact ⟨p, qs, hp, hqs, (Option.some.inj h).symm⟩
  · rintro ⟨p, qs, hp, hqs, rfl⟩
    exact ⟨p, hp, by rw [hqs]; rfl⟩

theorem resolveAll_fits : ∀ {rs : List RangeIndex} {shape : List ℕ} {ps : List AxisPick},
    resolveAll rs shape = some ps → FitsAll ps shape
  | [], shape, ps, h => by
      obtain rfl := Option.some.inj h
      exact .nil shape
  | _ :: _, [], _, h => by cases h
  | r :: rs, n :: shape, ps, h => by
      obtain ⟨p, qs, hp, hqs, rfl⟩ := resolveAll_cons.mp h
      exact .cons (RangeIndex.resolve_fits hp) (resolveAll_fits hqs)

namespace NdArray

variable {α : Type}

theorem fits_of_resolveAll {x : NdArray α} {rs : List RangeIndex} {ps : List AxisPick}
    (h : resolveAll rs x.shape = some ps) : FitsAll ps x.shape :=
  resolveAll_fits h

/-- `x[rs]` -/
def index (x : NdArray α) (rs : List RangeIndex) : Option (NdArray α) :=
  match h : resolveAll rs x.shape with
  | none => none
  | some ps => some (x.pick ps (resolveAll_fits h))

theorem index_eq {x : NdArray α} {rs : List RangeIndex} {ps : List AxisPick}
    (h : resolveAll rs x.shape = some ps) : x.index rs = some (x.pick ps (resolveAll_fits h)) := by
  unfold index
  split
  · next hnone =>
      rw [h] at hnone
      cases hnone
  · next qs hqs =>
      obtain rfl : ps = qs := Option.some.inj (h.symm.trans hqs)
      rfl

end NdArray

/-! ## Elements -/

namespace NdArray

variable {α : Type}

/-- An array by its elements. -/
def ofFn (shape : List ℕ) (f : List ℕ → α) : NdArray α where
  shape := shape
  get? := fun idx => if Within shape idx then some (f idx) else none
  within := by
    intro idx
    split <;> simp [*]

theorem ofFn_get? {shape idx : List ℕ} (f : List ℕ → α) (h : Within shape idx) :
    (ofFn shape f).get? idx = some (f idx) := if_pos h

variable [Inhabited α]

/-- The element at an index of the array. -/
def item (x : NdArray α) (idx : List ℕ) : α := (x.get? idx).getD default

theorem get?_eq_item {x : NdArray α} {idx : List ℕ} (h : Within x.shape idx) :
    x.get? idx = some (x.item idx) := by
  obtain ⟨a, ha⟩ := Option.isSome_iff_exists.mp ((x.within idx).mpr h)
  rw [item, ha]
  rfl

theorem item_ofFn {shape idx : List ℕ} (f : List ℕ → α) (h : Within shape idx) :
    (ofFn shape f).item idx = f idx := by
  rw [item, ofFn_get? f h]
  rfl

theorem item_pick {x : NdArray α} {ps : List AxisPick} (h : FitsAll ps x.shape) {idx : List ℕ}
    (hidx : Within (pickShape ps x.shape) idx) : (x.pick ps h).item idx = x.item (pickIndex ps idx) := by
  rw [item, pick_get? h hidx, item]

/-- Arrays of one shape with the same elements. -/
theorem ext_item {x y : NdArray α} (hshape : x.shape = y.shape)
    (h : ∀ idx, Within x.shape idx → x.item idx = y.item idx) : x = y := by
  refine NdArray.ext hshape (funext fun idx => ?_)
  by_cases hidx : Within x.shape idx
  · rw [get?_eq_item hidx, get?_eq_item (hshape ▸ hidx), h idx hidx]
  · rw [get?_eq_none hidx, get?_eq_none (hshape ▸ hidx)]

end NdArray

/-! ## Assignment -/

/-- The index of the result at which an element of the array is taken. -/
def locate : List AxisPick → List ℕ → Option (List ℕ)
  | [], idx => some idx
  | .one i :: ps, j :: idx => if i = j then locate ps idx else none
  | .many is :: ps, j :: idx => do
      let k ← is.idxOf? j
      let ks ← locate ps idx
      return k :: ks
  | _ :: _, [] => none

/-- No position is taken twice. -/
def AxisPick.Distinct : AxisPick → Prop
  | one _ => True
  | many is => is.Nodup

theorem idxOf?_eq_some_iff {is : List ℕ} (h : is.Nodup) {j k : ℕ} :
    is.idxOf? j = some k ↔ k < is.length ∧ is.getD k 0 = j := by
  rw [List.idxOf?_eq_some_iff]
  constructor
  · rintro ⟨hk, hj, -⟩
    exact ⟨hk, by rw [List.getD_eq_getElem _ _ hk]; simpa using hj⟩
  · rintro ⟨hk, hj⟩
    rw [List.getD_eq_getElem _ _ hk] at hj
    refine ⟨hk, by simpa using hj, fun i hi heq => ?_⟩
    have hik : is[i] = is[k] := (by simpa using heq : is[i] = j).trans hj.symm
    have := (List.Nodup.getElem_inj_iff h).mp hik
    omega

/-- An element that is taken, and the index at which it is. -/
theorem locate_eq_some_iff {ps : List AxisPick} {shape : List ℕ} (h : FitsAll ps shape)
    (hd : ∀ p ∈ ps, p.Distinct) : ∀ {idx ks : List ℕ}, Within shape idx →
      (locate ps idx = some ks ↔ Within (pickShape ps shape) ks ∧ pickIndex ps ks = idx) := by
  induction h with
  | nil shape =>
      intro idx ks hidx
      exact ⟨fun h => by cases h; exact ⟨hidx, rfl⟩, fun h => congrArg some h.2.symm⟩
  | @cons p ps n shape hp _ ih =>
      intro idx ks hidx
      obtain ⟨hdp, hdps⟩ := List.forall_mem_cons.mp hd
      cases hidx with
      | @cons j _ idx _ hj hidx =>
          cases p with
          | one i =>
              rw [locate, pickShape, pickIndex]
              by_cases hij : i = j
              · rw [if_pos hij, ih hdps hidx, List.cons.injEq, eq_true hij, true_and]
              · rw [if_neg hij]
                exact iff_of_false (by simp) fun h => hij (List.cons.inj h.2).1
          | many is =>
              rw [locate, pickShape]
              constructor
              · intro h
                obtain ⟨k, hk, h⟩ := Option.bind_eq_some_iff.mp h
                obtain ⟨ks', hks, h⟩ := Option.bind_eq_some_iff.mp h
                obtain rfl := Option.some.inj h
                obtain ⟨hlt, hget⟩ := (idxOf?_eq_some_iff hdp).mp hk
                obtain ⟨hwithin, hindex⟩ := (ih hdps hidx).mp hks
                exact ⟨.cons hlt hwithin, congrArg₂ (· :: ·) hget hindex⟩
              · rintro ⟨hwithin, hindex⟩
                cases hwithin with
                | @cons k _ ks _ hlt hwithin =>
                    obtain ⟨hget, hindex⟩ := List.cons.inj hindex
                    have hk := (idxOf?_eq_some_iff hdp).mpr ⟨hlt, hget⟩
                    have hks := (ih hdps hidx).mpr ⟨hwithin, hindex⟩
                    rw [hk, hks]
                    rfl

namespace NdArray

variable {α : Type} [Inhabited α]

/-- `x[rs] = value` -/
def put (x : NdArray α) (ps : List AxisPick) (value : NdArray α) : NdArray α :=
  ofFn x.shape fun idx =>
    match locate ps idx with
    | some ks => value.item ks
    | none => x.item idx

theorem item_put_pickIndex {x value : NdArray α} {ps : List AxisPick} (h : FitsAll ps x.shape)
    (hd : ∀ p ∈ ps, p.Distinct) {ks : List ℕ} (hks : Within (pickShape ps x.shape) ks) :
    (x.put ps value).item (pickIndex ps ks) = value.item ks := by
  have hidx := within_pickIndex h hks
  rw [put, item_ofFn _ hidx, (locate_eq_some_iff h hd hidx).mpr ⟨hks, rfl⟩]

theorem item_put_of_ne {x value : NdArray α} {ps : List AxisPick} (h : FitsAll ps x.shape)
    (hd : ∀ p ∈ ps, p.Distinct) {idx : List ℕ} (hidx : Within x.shape idx)
    (hne : ∀ ks, Within (pickShape ps x.shape) ks → pickIndex ps ks ≠ idx) :
    (x.put ps value).item idx = x.item idx := by
  have hnone : locate ps idx = none := by
    cases hlocate : locate ps idx with
    | none => rfl
    | some ks =>
        obtain ⟨hks, hindex⟩ := (locate_eq_some_iff h hd hidx).mp hlocate
        exact absurd hindex (hne ks hks)
  rw [put, item_ofFn _ hidx, hnone]

end NdArray

end JaxDas
