import JaxDas.Lib.RowMajor
import Mathlib.Algebra.Order.Ring.Nat
import Mathlib.Data.List.Perm.Subperm
import Mathlib.Data.List.Range

/-!
# Numbers with digits in several bases

The row-major offset of an index is the number whose digits are the index. `radix` is that number
when the digits and the bases belong to names: it does not mind names whose base is one, and the
number of a concatenation is made of the numbers of its parts. `product` lists the choices of one
element from each of several lists, in the order of these numbers.
-/

namespace JaxDas

theorem size_append : ∀ ds es : List ℕ, size (ds ++ es) = size ds * size es
  | [], es => by rw [List.nil_append, size, Nat.one_mul]
  | d :: ds, es => by rw [List.cons_append, size, size, size_append ds es, Nat.mul_assoc]

theorem size_pos {ds : List ℕ} (h : ∀ d ∈ ds, 0 < d) : 0 < size ds := by
  induction ds with
  | nil => exact Nat.one_pos
  | cons d ds ih =>
      exact Nat.mul_pos (h d List.mem_cons_self) (ih fun e he => h e (List.mem_cons_of_mem _ he))

/-- An index in the range of the dimensions. -/
def Within (ds idx : List ℕ) : Prop := List.Forall₂ (· < ·) idx ds

theorem within_append {ds es idx : List ℕ} : Within (ds ++ es) idx ↔
    ∃ l r, idx = l ++ r ∧ Within ds l ∧ Within es r := by
  constructor
  · intro h
    exact ⟨_, _, (List.take_append_drop ds.length idx).symm, List.forall₂_take_append _ _ _ h,
      List.forall₂_drop_append _ _ _ h⟩
  · rintro ⟨l, r, rfl, hl, hr⟩
    exact List.rel_append hl hr

theorem rowMajor_lt : ∀ {ds idx : List ℕ}, Within ds idx → rowMajor ds idx < size ds
  | _, _, .nil => Nat.one_pos
  | d :: ds, i :: idx, .cons hi h => by
      have hr := rowMajor_lt h
      have hle : (i + 1) * size ds ≤ d * size ds := Nat.mul_le_mul_right _ hi
      rw [Nat.add_mul] at hle
      simp only [rowMajor, size]
      omega

theorem rowMajor_inj : ∀ {ds idx idx' : List ℕ}, Within ds idx → Within ds idx' →
    rowMajor ds idx = rowMajor ds idx' → idx = idx'
  | _, _, _, .nil, .nil, _ => rfl
  | d :: ds, i :: idx, i' :: idx', .cons hi h, .cons hi' h', heq => by
      have hr := rowMajor_lt h
      have hr' := rowMajor_lt h'
      simp only [rowMajor] at heq
      have hpos : 0 < size ds := by omega
      have hdiv : ∀ k r : ℕ, r < size ds → (k * size ds + r) / size ds = k := by
        intro k r hr
        rw [Nat.mul_comm, Nat.mul_add_div hpos, Nat.div_eq_of_lt hr, Nat.add_zero]
      have hii : i = i' := by rw [← hdiv i _ hr, heq, hdiv i' _ hr']
      subst hii
      rw [rowMajor_inj h h' (by omega)]

theorem exists_rowMajor : ∀ {ds : List ℕ} {v : ℕ}, v < size ds →
    ∃ idx, Within ds idx ∧ rowMajor ds idx = v
  | [], v, hv => ⟨[], .nil, by
      have : v < 1 := hv
      simp only [rowMajor]
      omega⟩
  | d :: ds, v, hv => by
      have hpos : 0 < size ds := by
        rcases Nat.eq_zero_or_pos (size ds) with h | h
        · rw [size, h] at hv; omega
        · exact h
      obtain ⟨idx, hw, hr⟩ := exists_rowMajor (Nat.mod_lt v hpos)
      refine ⟨v / size ds :: idx, .cons ((Nat.div_lt_iff_lt_mul hpos).mpr hv) hw, ?_⟩
      rw [rowMajor, hr]
      exact Nat.div_add_mod' v (size ds)

/-! ## Named digits -/

section radix

variable {A : Type}

/-- The product of the bases. -/
def volume (l : List (A × ℕ)) : ℕ := size (l.map Prod.snd)

/-- The number with the digit `c a` for each name `a`, the first of them the most significant. -/
def radix (c : A → ℕ) (l : List (A × ℕ)) : ℕ :=
  rowMajor (l.map Prod.snd) (l.map fun a => c a.1)

/-- The digits are in the range of their bases. -/
def Digits (c : A → ℕ) (l : List (A × ℕ)) : Prop := ∀ a ∈ l, c a.1 < a.2

variable {c : A → ℕ}

@[simp] theorem volume_nil : volume ([] : List (A × ℕ)) = 1 := rfl

@[simp] theorem volume_cons (a : A × ℕ) (l : List (A × ℕ)) : volume (a :: l) = a.2 * volume l := rfl

@[simp] theorem radix_nil : radix c [] = 0 := rfl

@[simp] theorem radix_cons (a : A × ℕ) (l : List (A × ℕ)) :
    radix c (a :: l) = c a.1 * volume l + radix c l := rfl

theorem volume_append (l m : List (A × ℕ)) : volume (l ++ m) = volume l * volume m := by
  rw [volume, List.map_append, size_append]
  rfl

theorem volume_pos {l : List (A × ℕ)} (h : ∀ a ∈ l, 0 < a.2) : 0 < volume l :=
  size_pos fun d hd => by
    obtain ⟨a, ha, rfl⟩ := List.mem_map.mp hd
    exact h a ha

theorem volume_perm {l m : List (A × ℕ)} (h : l.Perm m) : volume l = volume m := by
  induction h with
  | nil => rfl
  | cons a _ ih => rw [volume_cons, volume_cons, ih]
  | swap a b l => rw [volume_cons, volume_cons, volume_cons, volume_cons, Nat.mul_left_comm]
  | trans _ _ ih ih' => rw [ih, ih']

theorem Digits.within {l : List (A × ℕ)} (h : Digits c l) :
    Within (l.map Prod.snd) (l.map fun a => c a.1) := by
  induction l with
  | nil => exact .nil
  | cons a l ih =>
      exact .cons (h a List.mem_cons_self) (ih fun b hb => h b (List.mem_cons_of_mem _ hb))

theorem Digits.subset {l m : List (A × ℕ)} (h : Digits c l) (hm : m ⊆ l) : Digits c m :=
  fun a ha => h a (hm ha)

theorem radix_lt {l : List (A × ℕ)} (h : Digits c l) : radix c l < volume l := rowMajor_lt h.within

theorem radix_append : ∀ l m : List (A × ℕ), radix c (l ++ m) = radix c l * volume m + radix c m
  | [], m => by simp
  | a :: l, m => by
      rw [List.cons_append, radix_cons, radix_cons, radix_append l m, volume_append, Nat.add_mul,
        Nat.mul_assoc, Nat.add_assoc]

/-- A base of one takes no room. -/
theorem volume_filter : ∀ l : List (A × ℕ), volume (l.filter fun a => a.2 ≠ 1) = volume l
  | [] => rfl
  | a :: l => by
      by_cases h1 : a.2 = 1
      · rw [List.filter_cons_of_neg (by simpa using h1), volume_filter l, volume_cons, h1,
          Nat.one_mul]
      · rw [List.filter_cons_of_pos (by simpa using h1), volume_cons, volume_cons, volume_filter l]

/-- And its digit is zero. -/
theorem radix_filter {l : List (A × ℕ)} (h : Digits c l) :
    radix c (l.filter fun a => a.2 ≠ 1) = radix c l := by
  induction l with
  | nil => rfl
  | cons a l ih =>
      have hr := ih fun b hb => h b (List.mem_cons_of_mem _ hb)
      have ha := h a List.mem_cons_self
      by_cases h1 : a.2 = 1
      · rw [List.filter_cons_of_neg (by simpa using h1), hr, radix_cons]
        have hc : c a.1 = 0 := by omega
        rw [hc, Nat.zero_mul, Nat.zero_add]
      · rw [List.filter_cons_of_pos (by simpa using h1), radix_cons, radix_cons, hr, volume_filter]

/-- The digits are determined by the number. -/
theorem radix_inj {c' : A → ℕ} {l : List (A × ℕ)} (h : Digits c l) (h' : Digits c' l)
    (heq : radix c l = radix c' l) : ∀ a ∈ l, c a.1 = c' a.1 := by
  have hmap := rowMajor_inj h.within h'.within heq
  exact List.map_inj_left.mp hmap

/-- Every number below the product of the bases has digits. -/
theorem exists_radix [DecidableEq A] {l : List (A × ℕ)} (hl : (l.map Prod.fst).Nodup) {v : ℕ}
    (hv : v < volume l) : ∃ c, Digits c l ∧ radix c l = v := by
  obtain ⟨idx, hw, hr⟩ := exists_rowMajor hv
  have hc : ∃ c : A → ℕ, (l.map fun a => c a.1) = idx := by
    clear hr hv
    induction l generalizing idx with
    | nil => exact ⟨fun _ => 0, by cases hw; rfl⟩
    | cons a l ih =>
        obtain ⟨hnot, hl⟩ := List.nodup_cons.mp hl
        cases hw with
        | @cons i _ idx _ hi hw =>
            obtain ⟨c, rfl⟩ := ih hl _ hw
            refine ⟨Function.update c a.1 i, ?_⟩
            rw [List.map_cons, Function.update_self]
            congr 1
            refine List.map_congr_left fun b hb => Function.update_of_ne ?_ _ _
            rintro heq
            exact hnot (heq ▸ List.mem_map_of_mem hb)
  obtain ⟨c, rfl⟩ := hc
  refine ⟨c, fun a ha => ?_, hr⟩
  obtain ⟨n, hn, rfl⟩ := List.getElem_of_mem ha
  have := List.Forall₂.get hw (by simpa using hn) (by simpa using hn)
  simpa using this

/-- The number of a concatenation has the numbers of the parts for digits. -/
theorem radix_flatten : ∀ ls : List (List (A × ℕ)),
    radix c ls.flatten = rowMajor (ls.map volume) (ls.map (radix c)) ∧
      volume ls.flatten = size (ls.map volume)
  | [] => ⟨rfl, rfl⟩
  | l :: ls => by
      obtain ⟨hr, hv⟩ := radix_flatten ls
      rw [List.flatten_cons, radix_append, volume_append, hr, hv]
      exact ⟨rfl, rfl⟩

end radix

/-! ## All choices -/

/-- `itertools.product` -/
def product {α : Type} : List (List α) → List (List α)
  | [] => [[]]
  | l :: ls => l.flatMap fun a => (product ls).map (a :: ·)

theorem length_flatMap_const {α β : Type} {f : α → List β} {n : ℕ} : ∀ {l : List α},
    (∀ a ∈ l, (f a).length = n) → (l.flatMap f).length = l.length * n
  | [], _ => by simp
  | a :: l, h => by
      rw [List.flatMap_cons, List.length_append, h a List.mem_cons_self,
        length_flatMap_const fun b hb => h b (List.mem_cons_of_mem _ hb), List.length_cons,
        Nat.add_mul, Nat.one_mul, Nat.add_comm]

theorem getElem?_flatMap_const {α β : Type} {f : α → List β} {n j : ℕ} (hj : j < n) :
    ∀ {l : List α} {i : ℕ} {a : α}, (∀ a ∈ l, (f a).length = n) → l[i]? = some a →
      (l.flatMap f)[i * n + j]? = (f a)[j]?
  | [], _, _, _, h => by simp at h
  | b :: l, 0, a, hl, h => by
      obtain rfl : b = a := by simpa using h
      rw [List.flatMap_cons, Nat.zero_mul, Nat.zero_add,
        List.getElem?_append_left (by rw [hl b List.mem_cons_self]; exact hj)]
  | b :: l, i + 1, a, hl, h => by
      have hlen := hl b List.mem_cons_self
      rw [List.flatMap_cons, List.getElem?_append_right (by rw [hlen, Nat.add_mul]; omega), hlen]
      rw [show (i + 1) * n + j - n = i * n + j by rw [Nat.add_mul]; omega]
      exact getElem?_flatMap_const hj (fun a ha => hl a (List.mem_cons_of_mem _ ha)) (by simpa using h)

theorem length_product {α : Type} : ∀ ls : List (List α),
    (product ls).length = size (ls.map List.length)
  | [] => rfl
  | l :: ls => by
      rw [product, length_flatMap_const (n := (product ls).length) fun a _ => by simp,
        length_product ls]
      rfl

/-- The choice at a number is that of its digits. -/
theorem getElem?_product {α : Type} : ∀ {ls : List (List α)} {idx : List ℕ} {xs : List α},
    idx.length = ls.length →
    List.Forall₂ (fun (li : List α × ℕ) x => li.1[li.2]? = some x) (ls.zip idx) xs →
    (product ls)[rowMajor (ls.map List.length) idx]? = some xs
  | [], [], _, _, .nil => rfl
  | l :: ls, i :: idx, x :: xs, hlen, .cons hx h => by
      have ih := getElem?_product (by simpa using hlen) h
      rw [product]
      have hlt : rowMajor (ls.map List.length) idx < (product ls).length := by
        obtain ⟨hlt, -⟩ := List.getElem?_eq_some_iff.mp ih
        exact hlt
      have hget := getElem?_flatMap_const (f := fun a => (product ls).map (a :: ·)) hlt (l := l)
        (i := i) (a := x) (fun a _ => by simp) hx
      rw [length_product] at hget
      simp only [List.map_cons, rowMajor]
      rw [hget, List.getElem?_map, ih]
      rfl

/-- The indices of an array, in row-major order. -/
def multiIndices (ds : List ℕ) : List (List ℕ) := product (ds.map List.range)

theorem map_length_range : ∀ ds : List ℕ, (ds.map List.range).map List.length = ds
  | [] => rfl
  | d :: ds => by
      rw [List.map_cons, List.map_cons, List.length_range, map_length_range ds]

theorem length_multiIndices (ds : List ℕ) : (multiIndices ds).length = size ds := by
  rw [multiIndices, length_product, map_length_range]

theorem getElem?_multiIndices {ds idx : List ℕ} (h : Within ds idx) :
    (multiIndices ds)[rowMajor ds idx]? = some idx := by
  have hall : List.Forall₂ (fun (li : List ℕ × ℕ) x => li.1[li.2]? = some x)
      ((ds.map List.range).zip idx) idx := by
    induction h with
    | nil => exact .nil
    | cons hi _ ih => exact .cons (List.getElem?_range hi) ih
  have hget := getElem?_product (by rw [List.length_map, h.length_eq]) hall
  rwa [map_length_range] at hget

theorem mem_multiIndices : ∀ {ds idx : List ℕ}, idx ∈ multiIndices ds ↔ Within ds idx
  | [], idx => by
      constructor
      · intro h
        rw [List.mem_singleton.mp h]
        exact .nil
      · intro h
        cases h
        exact List.mem_singleton.mpr rfl
  | d :: ds, idx => by
      rw [multiIndices, List.map_cons, product, List.mem_flatMap]
      constructor
      · rintro ⟨i, hi, h⟩
        obtain ⟨js, hjs, rfl⟩ := List.mem_map.mp h
        exact .cons (List.mem_range.mp hi) (mem_multiIndices.mp hjs)
      · intro h
        cases h with
        | cons hi h =>
            exact ⟨_, List.mem_range.mpr hi, List.mem_map.mpr ⟨_, mem_multiIndices.mpr h, rfl⟩⟩

end JaxDas
