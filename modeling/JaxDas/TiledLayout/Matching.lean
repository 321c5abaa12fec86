import JaxDas.TiledLayout.Layout

/-!
# The greedy search of `Canonicalize`

`Canonicalize` compares the sizes of all dimensions with those of the dimensions that the
canonical tiling has, from the last one on, and takes the first match that it finds. The
search always ends with a full match, since only dimensions of size one are gone; but of
several dimensions of size one it may keep others than the tiling does.

So a dimension of another size gets the number of the same dimension, and one of size one
may get the number of a neighbour.
-/

namespace JaxDas.TiledLayout

/--
Cells of size one are gone, in a list that is read from the end. What is left is the same,
up to an exchange of cells of size one.
-/
inductive Deletes : List Cell → List Cell → Prop where
  | nil : Deletes [] []
  | keep {c c' : Cell} {cs cs' : List Cell} : (c = c' ∨ c.size = 1 ∧ c'.size = 1) →
      Deletes cs cs' → Deletes (c :: cs) (c' :: cs')
  | drop {c : Cell} {cs cs' : List Cell} : c.size = 1 → Deletes cs cs' → Deletes (c :: cs) cs'

theorem deletes_neededCells : ∀ {cs : List Cell},
    (∀ c ∈ cs, c.needed = false → c.size = 1) → Deletes cs (neededCells cs)
  | [], _ => .nil
  | c :: cs, h => by
      have ih := deletes_neededCells fun c' hc' => h c' (List.mem_cons_of_mem c hc')
      cases hc : c.needed with
      | true =>
          rw [neededCells, List.filter_cons_of_pos hc]
          exact .keep (.inl rfl) ih
      | false =>
          rw [neededCells, List.filter_cons_of_neg (by simp [hc])]
          exact .drop (h c List.mem_cons_self hc) ih

/-- A cell of size one that was left may go too. -/
theorem Deletes.drop_head {cs cs' : List Cell} {c' : Cell} (h : Deletes cs (c' :: cs'))
    (hc' : c'.size = 1) : Deletes cs cs' := by
  generalize hall : c' :: cs' = all at h
  induction h with
  | nil => exact absurd hall (by simp)
  | @keep c c'' cs cs'' heq h _ =>
      obtain ⟨rfl, rfl⟩ := List.cons.inj hall
      refine .drop ?_ h
      rcases heq with rfl | ⟨hc, -⟩
      · exact hc'
      · exact hc
  | drop hc _ ih => exact .drop hc (ih hall)

/-- It is always safe to match two cells of one size. -/
theorem Deletes.greedy {cs cs' : List Cell} {c c' : Cell} (h : Deletes (c :: cs) (c' :: cs'))
    (hsize : c.size = c'.size) : (c = c' ∨ c.size = 1 ∧ c'.size = 1) ∧ Deletes cs cs' := by
  cases h with
  | keep heq h => exact ⟨heq, h⟩
  | drop hc h => exact ⟨.inr ⟨hc, hsize ▸ hc⟩, h.drop_head (hsize ▸ hc)⟩

/-- What the search does with `cs` and `cs'`; `true` stands for a cell that is gone. -/
inductive Matched : List Cell → List Cell → List Bool → Prop where
  | nil : Matched [] [] []
  | keep {c c' : Cell} {cs cs' : List Cell} {removed : List Bool} :
      (c = c' ∨ c.size = 1 ∧ c'.size = 1) → Matched cs cs' removed →
      Matched (c :: cs) (c' :: cs') (false :: removed)
  | drop {c : Cell} {cs cs' : List Cell} {removed : List Bool} : c.size = 1 →
      (∀ c' ∈ cs'.head?, c'.size ≠ 1) → Matched cs cs' removed →
      Matched (c :: cs) cs' (true :: removed)

/-- **The search succeeds.** -/
theorem matched_of_deletes : ∀ {cs cs' : List Cell}, Deletes cs cs' →
    ∃ removed, revRemovedDims (sizes cs) (sizes cs') = (removed, []) ∧ Matched cs cs' removed
  | [], _, h => by
      cases h
      exact ⟨[], rfl, .nil⟩
  | c :: cs, [], h => by
      cases h with
      | drop hc h =>
          obtain ⟨removed, hrun, hmatched⟩ := matched_of_deletes h
          refine ⟨true :: removed, ?_, .drop hc (by simp) hmatched⟩
          simp only [sizes, List.map_cons, List.map_nil, revRemovedDims] at hrun ⊢
          rw [hrun]
  | c :: cs, c' :: cs', h => by
      by_cases hsize : c.size = c'.size
      · obtain ⟨heq, h⟩ := h.greedy hsize
        obtain ⟨removed, hrun, hmatched⟩ := matched_of_deletes h
        refine ⟨false :: removed, ?_, .keep heq hmatched⟩
        simp only [sizes, List.map_cons, revRemovedDims, if_pos hsize] at hrun ⊢
        rw [hrun]
      · cases h with
        | keep heq h =>
            refine absurd ?_ hsize
            rcases heq with rfl | ⟨hc, hc'⟩
            · rfl
            · rw [hc, hc']
        | drop hc h =>
            obtain ⟨removed, hrun, hmatched⟩ := matched_of_deletes h
            have hhead : ∀ d ∈ (c' :: cs').head?, d.size ≠ 1 := by
              intro d hd
              obtain rfl : c' = d := by simpa using hd
              exact fun hd => hsize (hc.trans hd.symm)
            refine ⟨true :: removed, ?_, .drop hc hhead hmatched⟩
            simp only [sizes, List.map_cons, revRemovedDims, if_neg hsize] at hrun ⊢
            rw [hrun]

/-! ## The new numbers -/

/-- How many of the first `n` cells are left. -/
def kept (removed : List Bool) (n : ℕ) : ℕ := (removed.take n).count false

@[simp] theorem kept_zero (removed : List Bool) : kept removed 0 = 0 := by simp [kept]

@[simp] theorem kept_cons_false (removed : List Bool) (n : ℕ) :
    kept (false :: removed) (n + 1) = kept removed n + 1 := by simp [kept]

@[simp] theorem kept_cons_true (removed : List Bool) (n : ℕ) :
    kept (true :: removed) (n + 1) = kept removed n := by simp [kept]

theorem kept_le : ∀ {cs cs' : List Cell} {removed : List Bool} (n : ℕ),
    Matched cs cs' removed → kept removed n ≤ cs'.length := by
  intro cs cs' removed n h
  induction h generalizing n with
  | nil => simp [kept]
  | keep _ _ ih =>
      cases n with
      | zero => simp
      | succ n =>
          rw [kept_cons_false, List.length_cons]
          exact Nat.succ_le_succ (ih n)
  | drop _ _ _ ih =>
      cases n with
      | zero => simp
      | succ n =>
          rw [kept_cons_true]
          exact ih n

theorem Matched.length_eq {cs cs' : List Cell} {removed : List Bool} (h : Matched cs cs' removed) :
    removed.length = cs.length := by
  induction h with
  | nil => rfl
  | keep _ _ ih => rw [List.length_cons, List.length_cons, ih]
  | drop _ _ _ ih => rw [List.length_cons, List.length_cons, ih]

theorem runningSums_getD : ∀ {removed : List Bool} {k : ℕ} (sum : ℤ), k < removed.length →
    (runningSums sum removed).getD k 0 = sum + (k + 1 - kept removed (k + 1) : ℤ)
  | [], _, _, h => absurd h (by simp)
  | b :: removed, 0, sum, _ => by
      cases b <;> simp [runningSums, kept]
  | b :: removed, k + 1, sum, h => by
      have hk : k < removed.length := by simpa using h
      have ih := runningSums_getD (if b then sum + 1 else sum) hk
      rw [runningSums, List.getD_cons_succ, ih]
      cases b with
      | true =>
          rw [kept_cons_true, if_pos rfl]
          push_cast
          ring
      | false =>
          rw [kept_cons_false, if_neg (by simp)]
          push_cast
          ring

theorem length_runningSums : ∀ (sum : ℤ) (removed : List Bool),
    (runningSums sum removed).length = removed.length
  | _, [] => rfl
  | _, b :: removed => by
      rw [runningSums, List.length_cons, List.length_cons, length_runningSums]

/-- Counting from the end. -/
theorem fromEnd_neg {xs : List ℤ} {k : ℕ} (hk : k < xs.length) :
    fromEnd xs (-(k + 1)) = xs.reverse.getD k 0 := by
  have hidx : (-((k : ℤ) + 1) + xs.length).toNat = xs.length - 1 - k := by omega
  rw [fromEnd, hidx, List.getD_eq_getElem?_getD, List.getD_eq_getElem?_getD,
    List.getElem?_reverse hk]

/-- **The new number** of a dimension: how many are left from it to the end. -/
theorem renumbered {removed : List Bool} {k : ℕ} (hk : k < removed.length) :
    -((k : ℤ) + 1) + fromEnd (runningSums 0 removed).reverse (-(k + 1)) =
      -(kept removed (k + 1) : ℤ) := by
  rw [fromEnd_neg (by rwa [List.length_reverse, length_runningSums]), List.reverse_reverse,
    runningSums_getD 0 hk]
  ring

/-- A dimension whose size is not one is left, and gets the number of the same dimension. -/
theorem Matched.same {cs cs' : List Cell} {removed : List Bool} (h : Matched cs cs' removed) :
    ∀ {k : ℕ} {c : Cell}, cs[k]? = some c → c.size ≠ 1 →
      removed[k]? = some false ∧ ∃ j, kept removed (k + 1) = j + 1 ∧ cs'[j]? = some c := by
  induction h with
  | nil =>
      intro k c hk _
      exact absurd hk (by simp)
  | @keep d d' cs cs' removed heq _ ih =>
      intro k c hk hc
      cases k with
      | zero =>
          obtain rfl : d = c := by simpa using hk
          rcases heq with rfl | ⟨hone, -⟩
          · exact ⟨rfl, 0, by simp, rfl⟩
          · exact absurd hone hc
      | succ k =>
          obtain ⟨hleft, j, hj, hget⟩ := ih (by simpa using hk) hc
          exact ⟨by simpa using hleft, j + 1, by rw [kept_cons_false, hj], by simpa using hget⟩
  | @drop d cs cs' removed hone _ _ ih =>
      intro k c hk hc
      cases k with
      | zero =>
          obtain rfl : d = c := by simpa using hk
          exact absurd hone hc
      | succ k =>
          obtain ⟨hleft, j, hj, hget⟩ := ih (by simpa using hk) hc
          exact ⟨by simpa using hleft, j, by rw [kept_cons_true, hj], hget⟩

theorem kept_pos : ∀ {removed : List Bool} {k : ℕ}, removed[k]? = some false →
    0 < kept removed (k + 1)
  | [], _, h => absurd h (by simp)
  | b :: removed, 0, h => by
      obtain rfl : b = false := by simpa using h
      simp
  | b :: removed, k + 1, h => by
      have ih := @kept_pos removed k (by simpa using h)
      cases b with
      | true => rwa [kept_cons_true]
      | false =>
          rw [kept_cons_false]
          omega

/-- Two dimensions that are left have different numbers. -/
theorem kept_inj : ∀ {removed : List Bool} {k l : ℕ}, removed[k]? = some false →
    removed[l]? = some false → kept removed (k + 1) = kept removed (l + 1) → k = l
  | [], _, _, hk, _, _ => absurd hk (by simp)
  | b :: removed, 0, 0, _, _, _ => rfl
  | b :: removed, 0, l + 1, hk, hl, heq => by
      obtain rfl : b = false := by simpa using hk
      rw [kept_cons_false, kept_cons_false, kept_zero] at heq
      have hpos := @kept_pos removed l (by simpa using hl)
      omega
  | b :: removed, k + 1, 0, hk, hl, heq => by
      obtain rfl : b = false := by simpa using hl
      rw [kept_cons_false, kept_cons_false, kept_zero] at heq
      have hpos := @kept_pos removed k (by simpa using hk)
      omega
  | b :: removed, k + 1, l + 1, hk, hl, heq => by
      have hrest : kept removed (k + 1) = kept removed (l + 1) := by
        cases b <;> simpa using heq
      rw [kept_inj (by simpa using hk) (by simpa using hl) hrest]

/-! ## A dimension of size one -/

/-- What comes after the first `n` sizes that are not one. -/
def afterOthers : ℕ → List ℤ → List ℤ
  | 0, ds => ds
  | _ + 1, [] => []
  | n + 1, d :: ds => if d = 1 then afterOthers (n + 1) ds else afterOthers n ds

/-- How many of the first `k` sizes are not one. -/
def othersBefore (ds : List ℤ) (k : ℕ) : ℕ := (ds.take k).countP (· ≠ 1)

/--
**The new number of a dimension of size one** is that of a dimension of size one, if there
is one left between the same neighbours. `prev` is the size of the dimension that was
matched last.
-/
theorem Matched.one {cs cs' : List Cell} {removed : List Bool} (h : Matched cs cs' removed) :
    ∀ {k : ℕ} {c : Cell} (prev : ℤ), cs[k]? = some c → c.size = 1 →
      ((prev :: sizes cs')[kept removed (k + 1)]? = some 1 ↔
        othersBefore (sizes cs) k = 0 ∧ prev = 1 ∨
          (afterOthers (othersBefore (sizes cs) k) (sizes cs')).head? = some 1) := by
  induction h with
  | nil =>
      intro k c _ hk _
      exact absurd hk (by simp)
  | @keep d d' cs cs' removed heq h ih =>
      intro k c prev hk hc
      have hsize : d.size = d'.size := by
        rcases heq with rfl | ⟨hd, hd'⟩
        · rfl
        · rw [hd, hd']
      cases k with
      | zero =>
          obtain rfl : d = c := by simpa using hk
          simp [kept, sizes, othersBefore, afterOthers, ← hsize, hc]
      | succ k =>
          have ih := ih d'.size (k := k) (by simpa using hk) hc
          rw [kept_cons_false, List.getElem?_cons_succ]
          refine Iff.trans ih ?_
          by_cases hd : d.size = 1
          · have hothers : othersBefore (sizes (d :: cs)) (k + 1) = othersBefore (sizes cs) k := by
              simp [othersBefore, sizes, hd]
            rw [hothers]
            cases othersBefore (sizes cs) k with
            | zero => simp [afterOthers, sizes, ← hsize, hd]
            | succ m => simp [afterOthers, sizes, ← hsize, hd]
          · have hothers : othersBefore (sizes (d :: cs)) (k + 1) =
                othersBefore (sizes cs) k + 1 := by
              simp [othersBefore, sizes, hd]
            rw [hothers]
            simp [afterOthers, sizes, ← hsize, hd]
  | @drop d cs cs' removed hone hhead h ih =>
      intro k c prev hk hc
      cases k with
      | zero =>
          have hnone : (sizes cs').head? ≠ some 1 := by
            cases cs' with
            | nil => simp [sizes]
            | cons d' cs' => simpa [sizes] using hhead d' (by simp)
          simp [othersBefore, afterOthers, hnone]
      | succ k =>
          have hothers : othersBefore (sizes (d :: cs)) (k + 1) = othersBefore (sizes cs) k := by
            simp [othersBefore, sizes, hone]
          rw [kept_cons_true, hothers]
          exact ih prev (by simpa using hk) hc

/-! ## Dimensions that are not taken -/

/-- The cells that are not taken and not of size one; `taken` is about positions. -/
def free : (ℕ → Bool) → List Cell → List Cell
  | _, [] => []
  | taken, c :: cs =>
      if c.size ≠ 1 ∧ taken 0 = false then c :: free (fun k => taken (k + 1)) cs
      else free (fun k => taken (k + 1)) cs

/-- **Renumbering keeps the cells that are free**, if it keeps what is taken. -/
theorem Matched.free_eq {cs cs' : List Cell} {removed : List Bool} (h : Matched cs cs' removed) :
    ∀ {taken taken' : ℕ → Bool}, (∀ k c, cs[k]? = some c → c.size ≠ 1 →
      taken k = taken' (kept removed (k + 1) - 1)) → free taken cs = free taken' cs' := by
  induction h with
  | nil => exact fun _ => rfl
  | @keep d d' cs cs' removed heq h ih =>
      intro taken taken' htaken
      have hrest : free (fun k => taken (k + 1)) cs = free (fun k => taken' (k + 1)) cs' := by
        refine ih fun k c hk hc => ?_
        obtain ⟨-, j, hj, -⟩ := h.same hk hc
        have := htaken (k + 1) c (by simpa using hk) hc
        rw [kept_cons_false, hj] at this
        rw [this, hj]
        rfl
      rcases heq with rfl | ⟨hd, hd'⟩
      · by_cases hd : d.size = 1
        · rw [free, free, if_neg (by simp [hd]), if_neg (by simp [hd]), hrest]
        · have hzero : taken 0 = taken' 0 := by simpa using htaken 0 d rfl hd
          rw [free, free, hzero, hrest]
      · rw [free, free, if_neg (by simp [hd]), if_neg (by simp [hd']), hrest]
  | @drop d cs cs' removed hone hhead h ih =>
      intro taken taken' htaken
      rw [free, if_neg (by simp [hone])]
      refine ih fun k c hk hc => ?_
      simpa using htaken (k + 1) c (by simpa using hk) hc

end JaxDas.TiledLayout
