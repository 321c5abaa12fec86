import Mathlib.Data.List.Forall2
import Mathlib.Tactic.Common

/-!
# Lists and masks

A mask says of each position of a list whether it is selected. Lists that run in parallel
stay in parallel when one mask selects from all of them: what was at one position of two
lists is at one position of the two selections.
-/

namespace JaxDas

variable {α β γ : Type}

/-- The elements at the positions a mask marks. -/
def select : List α → List Bool → List α
  | x :: xs, true :: bs => x :: select xs bs
  | _ :: xs, false :: bs => select xs bs
  | _, _ => []

@[simp] theorem select_nil (bs : List Bool) : select ([] : List α) bs = [] := by
  cases bs <;> rfl

@[simp] theorem select_nil_mask (xs : List α) : select xs [] = [] := by
  cases xs <;> rfl

@[simp] theorem select_cons_true (x : α) (xs : List α) (bs : List Bool) :
    select (x :: xs) (true :: bs) = x :: select xs bs := rfl

@[simp] theorem select_cons_false (x : α) (xs : List α) (bs : List Bool) :
    select (x :: xs) (false :: bs) = select xs bs := rfl

theorem select_sublist : ∀ (xs : List α) (bs : List Bool), (select xs bs).Sublist xs
  | [], _ => by simp
  | _ :: _, [] => by simp
  | x :: xs, true :: bs => (select_sublist xs bs).cons_cons x
  | x :: xs, false :: bs => (select_sublist xs bs).cons x

theorem mem_of_mem_select {x : α} {xs : List α} {bs : List Bool} (h : x ∈ select xs bs) :
    x ∈ xs :=
  (select_sublist xs bs).subset h

theorem length_select : ∀ {xs : List α} {bs : List Bool}, xs.length = bs.length →
    (select xs bs).length = bs.count true
  | [], [], _ => rfl
  | _ :: xs, true :: bs, h => by
      simp [length_select (Nat.succ.inj h)]
  | _ :: xs, false :: bs, h => by
      simp [length_select (Nat.succ.inj h)]

theorem select_append : ∀ {xs : List α} {bs : List Bool} (ys : List α) (cs : List Bool),
    xs.length = bs.length → select (xs ++ ys) (bs ++ cs) = select xs bs ++ select ys cs
  | [], [], _, _, _ => rfl
  | _ :: xs, true :: bs, ys, cs, h => by
      simp [select_append ys cs (Nat.succ.inj h)]
  | _ :: xs, false :: bs, ys, cs, h => by
      simp [select_append ys cs (Nat.succ.inj h)]

theorem select_map (f : α → β) : ∀ (xs : List α) (bs : List Bool),
    select (xs.map f) bs = (select xs bs).map f
  | [], _ => by simp
  | _ :: _, [] => by simp
  | _ :: xs, true :: bs => by simp [select_map f xs bs]
  | _ :: xs, false :: bs => by simp [select_map f xs bs]

theorem select_zipWith (f : α → β → γ) : ∀ (xs : List α) (ys : List β) (bs : List Bool),
    select (xs.zipWith f ys) bs = (select xs bs).zipWith f (select ys bs)
  | [], _, _ => by simp
  | _ :: _, [], _ => by simp
  | _ :: _, _ :: _, [] => by simp
  | _ :: xs, _ :: ys, true :: bs => by simp [select_zipWith f xs ys bs]
  | _ :: xs, _ :: ys, false :: bs => by simp [select_zipWith f xs ys bs]

theorem select_replicate_true : ∀ (xs : List α), select xs (List.replicate xs.length true) = xs
  | [] => rfl
  | x :: xs => by simp [List.replicate_succ, select_replicate_true xs]

/-- A mask that marks nothing selects nothing. -/
theorem select_eq_nil : ∀ (xs : List α) {bs : List Bool}, bs.any id = false → select xs bs = []
  | [], _, _ => by simp
  | _ :: _, [], _ => by simp
  | _ :: xs, true :: bs, h => by simp at h
  | _ :: xs, false :: bs, h => by
      have hbs : bs.any id = false := by simpa using h
      exact select_eq_nil xs hbs

theorem select_map_eq_filter (p : α → Bool) : ∀ (xs : List α),
    select xs (xs.map p) = xs.filter p
  | [] => rfl
  | x :: xs => by
      cases h : p x <;> simp [h, select_map_eq_filter p xs]

/-- The marked elements of a list, by their positions. -/
theorem mem_select_iff {x : α} {xs : List α} {bs : List Bool} :
    x ∈ select xs bs ↔ (x, true) ∈ xs.zip bs := by
  induction xs generalizing bs with
  | nil => simp
  | cons y ys ih =>
      cases bs with
      | nil => simp
      | cons b bs => cases b <;> simp [ih]

/-- An element is selected when all positions it is at are marked. -/
theorem mem_select_of_forall {x : α} {xs : List α} {bs : List Bool} (hx : x ∈ xs)
    (hlen : bs.length = xs.length) (h : ∀ b, (x, b) ∈ xs.zip bs → b = true) :
    x ∈ select xs bs := by
  obtain ⟨i, hi⟩ := List.getElem?_of_mem hx
  obtain ⟨hlt, _⟩ := List.getElem?_eq_some_iff.mp hi
  have hm : (x, bs[i]) ∈ xs.zip bs :=
    List.mem_of_getElem? (List.getElem?_zip_eq_some.mpr ⟨hi, List.getElem?_eq_getElem _⟩)
  exact mem_select_iff.mpr (h _ hm ▸ hm)

/-- Positions of two selections by one mask are positions of the two lists. -/
theorem getElem?_select {xs : List α} {ys : List β} {bs : List Bool} {i : ℕ} {x : α} {y : β}
    (hx : (select xs bs)[i]? = some x) (hy : (select ys bs)[i]? = some y) :
    ∃ j : ℕ, xs[j]? = some x ∧ ys[j]? = some y := by
  have hz : ((select xs bs).zip (select ys bs))[i]? = some (x, y) :=
    List.getElem?_zip_eq_some.mpr ⟨hx, hy⟩
  have hzip := select_zipWith (fun a b => (a, b)) xs ys bs
  rw [← List.zip_eq_zipWith, ← List.zip_eq_zipWith] at hzip
  rw [← hzip] at hz
  obtain ⟨j, hj⟩ := List.getElem?_of_mem (mem_of_mem_select (List.mem_of_getElem? hz))
  exact ⟨j, List.getElem?_zip_eq_some.mp hj⟩

theorem take_select {xs : List α} {bs : List Bool} (n : ℕ) (h : xs.length = bs.length) :
    (select xs bs).take ((bs.take n).count true) = select (xs.take n) (bs.take n) := by
  have hn : (xs.take n).length = (bs.take n).length := by simp [h]
  have happ := select_append (xs.drop n) (bs.drop n) hn
  rw [List.take_append_drop, List.take_append_drop] at happ
  rw [happ, ← length_select hn, List.take_left]

theorem drop_select {xs : List α} {bs : List Bool} (n : ℕ) (h : xs.length = bs.length) :
    (select xs bs).drop ((bs.take n).count true) = select (xs.drop n) (bs.drop n) := by
  have hn : (xs.take n).length = (bs.take n).length := by simp [h]
  have happ := select_append (xs.drop n) (bs.drop n) hn
  rw [List.take_append_drop, List.take_append_drop] at happ
  rw [happ, ← length_select hn, List.drop_left]

/-! ### The other elements -/

/-- The elements at the positions a mask does not mark. -/
def reject (xs : List α) (bs : List Bool) : List α := select xs (bs.map fun b => !b)

@[simp] theorem reject_nil (bs : List Bool) : reject ([] : List α) bs = [] := select_nil _

@[simp] theorem reject_cons_true (x : α) (xs : List α) (bs : List Bool) :
    reject (x :: xs) (true :: bs) = reject xs bs := rfl

@[simp] theorem reject_cons_false (x : α) (xs : List α) (bs : List Bool) :
    reject (x :: xs) (false :: bs) = x :: reject xs bs := rfl

theorem count_map_not (bs : List Bool) : (bs.map fun b => !b).count true = bs.count false := by
  induction bs with
  | nil => rfl
  | cons b bs ih => cases b <;> simp [ih]

theorem length_reject {xs : List α} {bs : List Bool} (h : xs.length = bs.length) :
    (reject xs bs).length = bs.count false := by
  rw [reject, length_select (by rw [h, List.length_map]), count_map_not]

theorem reject_append {xs : List α} {bs : List Bool} (ys : List α) (cs : List Bool)
    (h : xs.length = bs.length) : reject (xs ++ ys) (bs ++ cs) = reject xs bs ++ reject ys cs := by
  rw [reject, List.map_append, select_append _ _ (by rw [h, List.length_map])]
  rfl

theorem reject_map (f : α → β) (xs : List α) (bs : List Bool) :
    reject (xs.map f) bs = (reject xs bs).map f := select_map f xs _

theorem reject_replicate_false (xs : List α) :
    reject xs (List.replicate xs.length false) = xs := by
  rw [reject, List.map_replicate]
  exact select_replicate_true xs

theorem reject_replicate_true (xs : List α) (n : ℕ) : reject xs (List.replicate n true) = [] := by
  rw [reject, List.map_replicate]
  exact select_eq_nil xs (by simp)

theorem select_replicate_false (xs : List α) (n : ℕ) : select xs (List.replicate n false) = [] :=
  select_eq_nil xs (by simp)

/-- The two parts of a list, put together again. -/
def mergeLists : List Bool → List α → List α → List α
  | false :: bs, x :: l0, l1 => x :: mergeLists bs l0 l1
  | true :: bs, l0, y :: l1 => y :: mergeLists bs l0 l1
  | _, _, _ => []

theorem mergeLists_partition : ∀ {bs : List Bool} {xs : List α}, xs.length = bs.length →
    mergeLists bs (reject xs bs) (select xs bs) = xs
  | [], [], _ => rfl
  | true :: bs, x :: xs, h => by
      rw [reject_cons_true, select_cons_true, mergeLists, mergeLists_partition (by simpa using h)]
  | false :: bs, x :: xs, h => by
      rw [reject_cons_false, select_cons_false, mergeLists, mergeLists_partition (by simpa using h)]

theorem mergeLists_map (f : α → β) : ∀ (bs : List Bool) (l0 l1 : List α),
    (mergeLists bs l0 l1).map f = mergeLists bs (l0.map f) (l1.map f)
  | [], _, _ => rfl
  | false :: bs, [], l1 => by cases l1 <;> rfl
  | false :: bs, x :: l0, l1 => by
      rw [mergeLists, List.map_cons, List.map_cons, mergeLists, mergeLists_map f bs]
  | true :: bs, l0, [] => by cases l0 <;> rfl
  | true :: bs, l0, y :: l1 => by
      rw [mergeLists, List.map_cons, List.map_cons, mergeLists, mergeLists_map f bs]

/-! ### Masks in order -/

/-- Every position one mask marks, the other marks too. -/
abbrev Below (bs cs : List Bool) : Prop := List.Forall₂ (fun b c => b = true → c = true) bs cs

theorem Below.refl (bs : List Bool) : Below bs bs := List.forall₂_same.mpr fun _ _ => id

theorem below_replicate_true : ∀ (bs : List Bool), Below bs (List.replicate bs.length true)
  | [] => .nil
  | _ :: bs => .cons (fun _ => rfl) (below_replicate_true bs)

theorem below_zipWith_or_left : ∀ {bs cs : List Bool}, bs.length = cs.length →
    Below bs (bs.zipWith (· || ·) cs)
  | [], [], _ => .nil
  | _ :: _, _ :: _, h =>
      .cons (fun hb => by simp [hb]) (below_zipWith_or_left (Nat.succ.inj h))

theorem below_zipWith_or_right : ∀ {bs cs : List Bool}, bs.length = cs.length →
    Below cs (bs.zipWith (· || ·) cs)
  | [], [], _ => .nil
  | _ :: _, _ :: _, h =>
      .cons (fun hc => by simp [hc]) (below_zipWith_or_right (Nat.succ.inj h))

theorem zipWith_or_of_below : ∀ {bs cs : List Bool}, Below bs cs → bs.zipWith (· || ·) cs = cs
  | _, _, .nil => rfl
  | b :: _, c :: _, .cons h t => by
      rw [List.zipWith_cons_cons, zipWith_or_of_below t]
      cases b <;> simp_all

theorem Below.trans : ∀ {bs cs ds : List Bool}, Below bs cs → Below cs ds → Below bs ds
  | _, _, _, .nil, .nil => .nil
  | _, _, _, .cons h₁ t₁, .cons h₂ t₂ => .cons (h₂ ∘ h₁) (Below.trans t₁ t₂)

/-- Of two masks in order either both are the same, or the larger marks more. -/
theorem Below.eq_or_count_lt : ∀ {bs cs : List Bool}, Below bs cs →
    bs = cs ∨ bs.count true < cs.count true
  | _, _, .nil => .inl rfl
  | b :: bs, c :: cs, .cons h t => by
      rcases Below.eq_or_count_lt t with heq | hlt
      · subst heq
        cases b <;> cases c <;> simp at h ⊢
      · right
        cases b <;> cases c <;> simp at h ⊢ <;> omega

end JaxDas
