import Mathlib.Data.List.Basic
import Mathlib.Data.List.Range
import Mathlib.Data.Nat.Notation

/-!
# Tables by rows and by columns

A table is a list of rows of one length; `column` reads it the other way.
-/

namespace JaxDas

variable {E : Type}

/-- The entries of all rows at one position. -/
def column (k : ℕ) (rows : List (List E)) : List E := rows.filterMap fun row => row[k]?

/-- `m` rows of `n` entries. -/
structure Rect (m n : ℕ) (rows : List (List E)) : Prop where
  length : rows.length = m
  row : ∀ row ∈ rows, row.length = n

/-- The first `n` columns. -/
def columns (n : ℕ) (rows : List (List E)) : List (List E) :=
  (List.range n).map fun k => column k rows

/-- The table with these columns. -/
def ofColumns (m n : ℕ) (f : ℕ → List E) : List (List E) :=
  (List.range m).map fun i => (List.range n).filterMap fun k => (f k)[i]?

theorem column_map {g : List E → List E} {k k' : ℕ} {rows : List (List E)}
    (h : ∀ row ∈ rows, (g row)[k]? = row[k']?) : column k (rows.map g) = column k' rows := by
  rw [column, List.filterMap_map]
  exact List.filterMap_congr h

theorem column_zipWith_left {g : List E → List E → List E} {k k' : ℕ} :
    ∀ {a b : List (List E)}, a.length = b.length →
      (∀ x ∈ a, ∀ y ∈ b, (g x y)[k]? = x[k']?) → column k (List.zipWith g a b) = column k' a
  | [], [], _, _ => rfl
  | x :: a, y :: b, hlen, h => by
      have htail := column_zipWith_left (k := k) (Nat.succ.inj hlen) fun x' hx y' hy =>
        h x' (List.mem_cons_of_mem _ hx) y' (List.mem_cons_of_mem _ hy)
      unfold column at htail ⊢
      rw [List.zipWith_cons_cons, List.filterMap_cons, List.filterMap_cons, htail,
        h x List.mem_cons_self y List.mem_cons_self]

theorem column_zipWith_right {g : List E → List E → List E} {k k' : ℕ} {a b : List (List E)}
    (hlen : a.length = b.length) (h : ∀ x ∈ a, ∀ y ∈ b, (g x y)[k]? = y[k']?) :
    column k (List.zipWith g a b) = column k' b := by
  rw [List.zipWith_comm]
  exact column_zipWith_left hlen.symm fun y hy x hx => h x hx y hy

theorem length_column {m n : ℕ} : ∀ {rows : List (List E)}, Rect m n rows → ∀ {k : ℕ}, k < n →
    (column k rows).length = m := by
  intro rows h k hk
  rw [← h.length, column]
  refine List.filterMap_length_eq_length.mpr fun row hrow => ?_
  rw [List.getElem?_eq_getElem (by rw [h.row row hrow]; exact hk)]
  rfl

/-- All entries are there. -/
theorem getElem?_filterMap_range {f : ℕ → Option E} : ∀ {n : ℕ}, (∀ k < n, (f k).isSome) →
    ((List.range n).filterMap f).length = n ∧
      ∀ k < n, ((List.range n).filterMap f)[k]? = f k
  | 0, _ => ⟨rfl, fun k hk => absurd hk (Nat.not_lt_zero _)⟩
  | n + 1, h => by
      obtain ⟨hlen, hget⟩ := getElem?_filterMap_range fun k hk => h k (Nat.lt_succ_of_lt hk)
      obtain ⟨x, hx⟩ := Option.isSome_iff_exists.mp (h n (Nat.lt_succ_self n))
      have hlast : [n].filterMap f = [x] := by
        rw [List.filterMap_cons, hx]
        rfl
      rw [List.range_succ, List.filterMap_append, hlast]
      refine ⟨by rw [List.length_append, hlen]; rfl, fun k hk => ?_⟩
      rcases Nat.lt_succ_iff_lt_or_eq.mp hk with hlt | rfl
      · rw [List.getElem?_append_left (by omega), hget k hlt]
      · rw [List.getElem?_append_right (by omega), hlen, Nat.sub_self, hx]
        rfl

theorem ofColumns_spec {m n : ℕ} {f : ℕ → List E} (h : ∀ k < n, (f k).length = m) :
    Rect m n (ofColumns m n f) ∧ ∀ k < n, column k (ofColumns m n f) = f k := by
  have hsome : ∀ i < m, ∀ k < n, ((f k)[i]?).isSome := by
    intro i hi k hk
    rw [List.getElem?_eq_getElem (by rw [h k hk]; exact hi)]
    rfl
  refine ⟨⟨by rw [ofColumns, List.length_map, List.length_range], fun row hrow => ?_⟩, fun k hk => ?_⟩
  · obtain ⟨i, hi, rfl⟩ := List.mem_map.mp hrow
    exact (getElem?_filterMap_range (hsome i (List.mem_range.mp hi))).1
  · rw [column, ofColumns, List.filterMap_map]
    have hget : ∀ i ∈ List.range m, ((List.range n).filterMap fun k => (f k)[i]?)[k]? = (f k)[i]? :=
      fun i hi => (getElem?_filterMap_range (hsome i (List.mem_range.mp hi))).2 k hk
    refine (List.filterMap_congr hget).trans (List.ext_getElem? fun i => ?_)
    have hrow := getElem?_filterMap_range (f := fun i => (f k)[i]?) fun i hi => hsome i hi k hk
    rcases Nat.lt_or_ge i m with hi | hi
    · exact hrow.2 i hi
    · rw [List.getElem?_eq_none (by rw [hrow.1]; exact hi),
        List.getElem?_eq_none (by rw [h k hk]; exact hi)]

theorem Rect.map {m n n' : ℕ} {rows : List (List E)} (h : Rect m n rows) {g : List E → List E}
    (hg : ∀ row : List E, row.length = n → (g row).length = n') : Rect m n' (rows.map g) := by
  refine ⟨by rw [List.length_map, h.length], fun row hrow => ?_⟩
  obtain ⟨row, hmem, rfl⟩ := List.mem_map.mp hrow
  exact hg row (h.row row hmem)

theorem Rect.zipWith {m n n' n'' : ℕ} {a b : List (List E)} (ha : Rect m n a) (hb : Rect m n' b)
    {g : List E → List E → List E} (hg : ∀ x y : List E, x.length = n → y.length = n' →
      (g x y).length = n'') : Rect m n'' (List.zipWith g a b) := by
  refine ⟨by rw [List.length_zipWith, ha.length, hb.length, Nat.min_self], fun row hrow => ?_⟩
  obtain ⟨i, hi, rfl⟩ := List.getElem_of_mem hrow
  rw [List.getElem_zipWith]
  exact hg _ _ (ha.row _ (List.getElem_mem _)) (hb.row _ (List.getElem_mem _))

end JaxDas
