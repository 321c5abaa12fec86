import Mathlib.Data.List.Basic
import Mathlib.Tactic.Ring
import Mathlib.Tactic.LinearCombination

/-!
# Linear combinations as sorted lists of pairs

A finite linear combination with integer coefficients is kept as a list of
`(key, coefficient)` pairs, largest key first. Two such lists are added by one
merging pass, which never has to look a key up. The pass is sound for *any*
pair of lists, sorted or not, because the only thing it ever does to two entries
is to combine those whose keys compare equal; sortedness is what makes the
*result* canonical, and it is carried separately.

Nothing here knows what the keys are.
-/

namespace JaxDas.SortedPairs

variable {α : Type}

/-- Scale every entry by `f`, dropping the entries whose coefficient is zero. -/
def scaled (f : ℤ) (p : List (α × ℤ)) : List (α × ℤ) :=
  (p.filter (fun m => m.2 ≠ 0)).map (fun m => (m.1, m.2 * f))

/-- The inner loop of `merge`: `m₁` is the head of the first list, `rest` merges its tail. -/
def mergeHead (cmp : α → α → Ordering) (m₁ : α × ℤ) (f₁ f₂ : ℤ)
    (rest : List (α × ℤ) → List (α × ℤ)) : List (α × ℤ) → List (α × ℤ)
  | [] => scaled f₁ [m₁] ++ rest []
  | m₂ :: p₂ =>
      match cmp m₁.1 m₂.1 with
      | .lt => (m₂.1, m₂.2 * f₂) :: mergeHead cmp m₁ f₁ f₂ rest p₂
      | .gt => (m₁.1, m₁.2 * f₁) :: rest (m₂ :: p₂)
      | .eq => if m₁.2 * f₁ + m₂.2 * f₂ = 0 then rest p₂
               else (m₁.1, m₁.2 * f₁ + m₂.2 * f₂) :: rest p₂

/-- `p₁ * f₁ + p₂ * f₂` for two lists with the largest key first. -/
def merge (cmp : α → α → Ordering) (f₁ f₂ : ℤ) :
    List (α × ℤ) → List (α × ℤ) → List (α × ℤ)
  | [], p₂ => scaled f₂ p₂
  | m₁ :: p₁, p₂ => mergeHead cmp m₁ f₁ f₂ (merge cmp f₁ f₂ p₁) p₂

/-! ## The equations of the merge -/

theorem scaled_cons (f : ℤ) (m : α × ℤ) (p : List (α × ℤ)) :
    scaled f (m :: p) = scaled f [m] ++ scaled f p := by
  unfold scaled
  by_cases h : m.2 = 0 <;> simp [h]

theorem merge_nil (cmp : α → α → Ordering) (f₁ f₂ : ℤ) (p₂ : List (α × ℤ)) :
    merge cmp f₁ f₂ [] p₂ = scaled f₂ p₂ := rfl

theorem merge_nil_right (cmp : α → α → Ordering) (f₁ f₂ : ℤ) :
    ∀ p₁ : List (α × ℤ), merge cmp f₁ f₂ p₁ [] = scaled f₁ p₁
  | [] => rfl
  | m₁ :: p₁ => by
      show scaled f₁ [m₁] ++ merge cmp f₁ f₂ p₁ [] = scaled f₁ (m₁ :: p₁)
      rw [merge_nil_right cmp f₁ f₂ p₁, ← scaled_cons]

/-- Two lists merge by comparing their heads: the loop body of the source. -/
theorem merge_cons (cmp : α → α → Ordering) (f₁ f₂ : ℤ) (m₁ m₂ : α × ℤ)
    (p₁ p₂ : List (α × ℤ)) :
    merge cmp f₁ f₂ (m₁ :: p₁) (m₂ :: p₂) =
      match cmp m₁.1 m₂.1 with
      | .lt => (m₂.1, m₂.2 * f₂) :: merge cmp f₁ f₂ (m₁ :: p₁) p₂
      | .gt => (m₁.1, m₁.2 * f₁) :: merge cmp f₁ f₂ p₁ (m₂ :: p₂)
      | .eq => if m₁.2 * f₁ + m₂.2 * f₂ = 0 then merge cmp f₁ f₂ p₁ p₂
               else (m₁.1, m₁.2 * f₁ + m₂.2 * f₂) :: merge cmp f₁ f₂ p₁ p₂ := rfl

/--
**Merge induction.** A property of two lists holds when it survives consuming the
head of either one, or the heads of both.
-/
theorem merge_induction (cmp : α → α → Ordering) {P : List (α × ℤ) → List (α × ℤ) → Prop}
    (nil : ∀ p₂, P [] p₂) (nil_right : ∀ p₁, P p₁ [])
    (lt : ∀ m₁ p₁ m₂ p₂, cmp m₁.1 m₂.1 = .lt → P (m₁ :: p₁) p₂ → P (m₁ :: p₁) (m₂ :: p₂))
    (gt : ∀ m₁ p₁ m₂ p₂, cmp m₁.1 m₂.1 = .gt → P p₁ (m₂ :: p₂) → P (m₁ :: p₁) (m₂ :: p₂))
    (eq : ∀ m₁ p₁ m₂ p₂, cmp m₁.1 m₂.1 = .eq → P p₁ p₂ → P (m₁ :: p₁) (m₂ :: p₂)) :
    ∀ p₁ p₂, P p₁ p₂
  | [], p₂ => nil p₂
  | m₁ :: p₁, [] => nil_right (m₁ :: p₁)
  | m₁ :: p₁, m₂ :: p₂ => by
      cases h : cmp m₁.1 m₂.1 with
      | lt => exact lt _ _ _ _ h (merge_induction cmp nil nil_right lt gt eq (m₁ :: p₁) p₂)
      | gt => exact gt _ _ _ _ h (merge_induction cmp nil nil_right lt gt eq p₁ (m₂ :: p₂))
      | eq => exact eq _ _ _ _ h (merge_induction cmp nil nil_right lt gt eq p₁ p₂)
termination_by p₁ p₂ => p₁.length + p₂.length

/-! ## What a list of pairs denotes -/

/-- The value of a linear combination when key `a` is worth `g a`. -/
def total (g : α → ℤ) : List (α × ℤ) → ℤ
  | [] => 0
  | m :: p => g m.1 * m.2 + total g p

@[simp] theorem total_nil (g : α → ℤ) : total g [] = 0 := rfl

@[simp] theorem total_cons (g : α → ℤ) (m : α × ℤ) (p : List (α × ℤ)) :
    total g (m :: p) = g m.1 * m.2 + total g p := rfl

theorem total_zero (p : List (α × ℤ)) : total (fun _ => 0) p = 0 := by
  induction p with
  | nil => rfl
  | cons m p ih => rw [total_cons, ih, zero_mul, add_zero]

theorem total_congr {g g' : α → ℤ} : ∀ {p : List (α × ℤ)}, (∀ m ∈ p, g m.1 = g' m.1) →
    total g p = total g' p
  | [], _ => rfl
  | m :: p, h => by
      rw [total_cons, total_cons, h m List.mem_cons_self,
        total_congr fun m' hm' => h m' (List.mem_cons_of_mem _ hm')]

theorem total_append (g : α → ℤ) (p q : List (α × ℤ)) :
    total g (p ++ q) = total g p + total g q := by
  induction p with
  | nil => simp
  | cons m p ih => simp only [List.cons_append, total_cons, ih]; ring

theorem total_map (g : α → ℤ) {β : Type} (u : β → α) (k : ℤ) (p : List (β × ℤ)) :
    total g (p.map fun m => (u m.1, m.2 * k)) = total (fun b => g (u b)) p * k := by
  induction p with
  | nil => simp
  | cons m p ih => simp only [List.map_cons, total_cons, ih]; ring

theorem total_perm (g : α → ℤ) {p q : List (α × ℤ)} (h : p.Perm q) :
    total g p = total g q := by
  induction h with
  | nil => rfl
  | cons m _ ih => simp only [total_cons, ih]
  | swap a b l => simp only [total_cons]; ring
  | trans _ _ ih₁ ih₂ => rw [ih₁, ih₂]

theorem total_filter (g : α → ℤ) (p : List (α × ℤ)) :
    total g (p.filter fun m => m.2 ≠ 0) = total g p := by
  induction p with
  | nil => rfl
  | cons m p ih =>
      rw [List.filter_cons]
      split
      · rw [total_cons, total_cons, ih]
      · rename_i h
        have h0 : m.2 = 0 := by simpa using h
        rw [total_cons, ih, h0]; ring

theorem total_scaled (g : α → ℤ) (f : ℤ) (p : List (α × ℤ)) :
    total g (scaled f p) = f * total g p := by
  unfold scaled
  rw [total_map g (fun a => a) f, total_filter, mul_comm]

/-- **Merging adds.** No order on the keys is needed, only that equal keys are worth the same. -/
theorem total_merge {cmp : α → α → Ordering} {g : α → ℤ}
    (hg : ∀ a b, cmp a b = .eq → g a = g b) (f₁ f₂ : ℤ) (p₁ p₂ : List (α × ℤ)) :
    total g (merge cmp f₁ f₂ p₁ p₂) = f₁ * total g p₁ + f₂ * total g p₂ := by
  induction p₁, p₂ using merge_induction cmp with
  | nil p₂ => rw [merge_nil, total_scaled]; simp
  | nil_right p₁ => rw [merge_nil_right, total_scaled]; simp
  | lt m₁ p₁ m₂ p₂ h ih =>
      rw [merge_cons, h]
      simp only [total_cons] at ih ⊢
      rw [ih]; ring
  | gt m₁ p₁ m₂ p₂ h ih =>
      rw [merge_cons, h]
      simp only [total_cons] at ih ⊢
      rw [ih]; ring
  | eq m₁ p₁ m₂ p₂ h ih =>
      rw [merge_cons, h]
      have hkey : g m₁.1 = g m₂.1 := hg _ _ h
      by_cases hz : m₁.2 * f₁ + m₂.2 * f₂ = 0
      · simp only [hz, if_true, total_cons, ih, hkey]
        linear_combination (-(g m₂.1)) * hz
      · simp only [hz, if_false, total_cons, ih, hkey]
        ring

/-! ## Keys of a merge come from its operands -/

theorem mem_scaled {f : ℤ} {p : List (α × ℤ)} {m : α × ℤ} (h : m ∈ scaled f p) :
    ∃ c, (m.1, c) ∈ p ∧ c ≠ 0 ∧ m.2 = c * f := by
  obtain ⟨x, hx, rfl⟩ := List.mem_map.mp h
  rw [List.mem_filter] at hx
  exact ⟨x.2, hx.1, by simpa using hx.2, rfl⟩

theorem mem_merge_keys {cmp : α → α → Ordering} {f₁ f₂ : ℤ} {p₁ p₂ : List (α × ℤ)} {m : α × ℤ} :
    m ∈ merge cmp f₁ f₂ p₁ p₂ → (∃ c, (m.1, c) ∈ p₁) ∨ ∃ c, (m.1, c) ∈ p₂ := by
  induction p₁, p₂ using merge_induction cmp with
  | nil p₂ =>
      intro h; rw [merge_nil] at h
      obtain ⟨c, hc, _⟩ := mem_scaled h
      exact .inr ⟨c, hc⟩
  | nil_right p₁ =>
      intro h; rw [merge_nil_right] at h
      obtain ⟨c, hc, _⟩ := mem_scaled h
      exact .inl ⟨c, hc⟩
  | lt m₁ p₁ m₂ p₂ h ih =>
      intro hm; rw [merge_cons, h] at hm
      rcases List.mem_cons.mp hm with rfl | hm
      · exact .inr ⟨m₂.2, List.mem_cons_self⟩
      · exact (ih hm).imp id fun ⟨c, hc⟩ => ⟨c, List.mem_cons_of_mem _ hc⟩
  | gt m₁ p₁ m₂ p₂ h ih =>
      intro hm; rw [merge_cons, h] at hm
      rcases List.mem_cons.mp hm with rfl | hm
      · exact .inl ⟨m₁.2, List.mem_cons_self⟩
      · exact (ih hm).imp (fun ⟨c, hc⟩ => ⟨c, List.mem_cons_of_mem _ hc⟩) id
  | eq m₁ p₁ m₂ p₂ h ih =>
      intro hm; rw [merge_cons, h] at hm
      have key : m ∈ merge cmp f₁ f₂ p₁ p₂ →
          (∃ c, (m.1, c) ∈ m₁ :: p₁) ∨ ∃ c, (m.1, c) ∈ m₂ :: p₂ := fun hm =>
        (ih hm).imp (fun ⟨c, hc⟩ => ⟨c, List.mem_cons_of_mem _ hc⟩)
          fun ⟨c, hc⟩ => ⟨c, List.mem_cons_of_mem _ hc⟩
      by_cases hz : m₁.2 * f₁ + m₂.2 * f₂ = 0
      · simp only [hz, if_true] at hm; exact key hm
      · simp only [hz, if_false] at hm
        rcases List.mem_cons.mp hm with rfl | hm
        · exact .inl ⟨m₁.2, List.mem_cons_self⟩
        · exact key hm

/-! ## A merge of sorted lists is sorted -/

/-- Strictly decreasing keys: the largest key first, none twice. -/
def Desc (cmp : α → α → Ordering) (p : List (α × ℤ)) : Prop :=
  p.Pairwise fun a b => cmp a.1 b.1 = .gt

/-- No entry with coefficient zero. -/
def NonZero (p : List (α × ℤ)) : Prop := ∀ m ∈ p, m.2 ≠ 0

theorem Desc.tail {cmp : α → α → Ordering} {m : α × ℤ} {p : List (α × ℤ)}
    (h : Desc cmp (m :: p)) : Desc cmp p := (List.pairwise_cons.mp h).2

theorem Desc.head_gt {cmp : α → α → Ordering} {m : α × ℤ} {p : List (α × ℤ)}
    (h : Desc cmp (m :: p)) {k : α} {c : ℤ} (hk : (k, c) ∈ p) : cmp m.1 k = .gt :=
  (List.pairwise_cons.mp h).1 _ hk

theorem desc_scaled {cmp : α → α → Ordering} {f : ℤ} {p : List (α × ℤ)} (h : Desc cmp p) :
    Desc cmp (scaled f p) :=
  List.pairwise_map.mpr (h.filter _)

theorem desc_merge {cmp : α → α → Ordering} [Std.TransCmp cmp] {f₁ f₂ : ℤ}
    {p₁ p₂ : List (α × ℤ)} : Desc cmp p₁ → Desc cmp p₂ → Desc cmp (merge cmp f₁ f₂ p₁ p₂) := by
  induction p₁, p₂ using merge_induction cmp with
  | nil p₂ => exact fun _ h₂ => desc_scaled h₂
  | nil_right p₁ => intro h₁ _; rw [merge_nil_right]; exact desc_scaled h₁
  | lt m₁ p₁ m₂ p₂ h ih =>
      intro h₁ h₂
      rw [merge_cons, h]
      refine List.pairwise_cons.mpr ⟨fun x hx => ?_, ih h₁ h₂.tail⟩
      have hgt : cmp m₂.1 m₁.1 = .gt := Std.OrientedCmp.gt_of_lt h
      rcases mem_merge_keys hx with ⟨c, hc⟩ | ⟨c, hc⟩
      · rcases List.mem_cons.mp hc with rfl | hc
        · exact hgt
        · exact Std.TransCmp.gt_trans hgt (h₁.head_gt hc)
      · exact h₂.head_gt hc
  | gt m₁ p₁ m₂ p₂ h ih =>
      intro h₁ h₂
      rw [merge_cons, h]
      refine List.pairwise_cons.mpr ⟨fun x hx => ?_, ih h₁.tail h₂⟩
      rcases mem_merge_keys hx with ⟨c, hc⟩ | ⟨c, hc⟩
      · exact h₁.head_gt hc
      · rcases List.mem_cons.mp hc with rfl | hc
        · exact h
        · exact Std.TransCmp.gt_trans h (h₂.head_gt hc)
  | eq m₁ p₁ m₂ p₂ h ih =>
      intro h₁ h₂
      rw [merge_cons, h]
      have hrest := ih h₁.tail h₂.tail
      by_cases hz : m₁.2 * f₁ + m₂.2 * f₂ = 0
      · simpa only [hz, if_true] using hrest
      · simp only [hz, if_false]
        refine List.pairwise_cons.mpr ⟨fun x hx => ?_, hrest⟩
        rcases mem_merge_keys hx with ⟨c, hc⟩ | ⟨c, hc⟩
        · exact h₁.head_gt hc
        · exact Std.TransCmp.gt_of_eq_of_gt h (h₂.head_gt hc)

theorem nonZero_scaled {f : ℤ} (hf : f ≠ 0) {p : List (α × ℤ)} : NonZero (scaled f p) := by
  intro m hm
  obtain ⟨c, _, hc, he⟩ := mem_scaled hm
  rw [he]; exact mul_ne_zero hc hf

theorem nonZero_merge {cmp : α → α → Ordering} {f₁ f₂ : ℤ} (hf₁ : f₁ ≠ 0) (hf₂ : f₂ ≠ 0)
    {p₁ p₂ : List (α × ℤ)} : NonZero p₁ → NonZero p₂ → NonZero (merge cmp f₁ f₂ p₁ p₂) := by
  induction p₁, p₂ using merge_induction cmp with
  | nil p₂ => exact fun _ _ => nonZero_scaled hf₂
  | nil_right p₁ => intro _ _; rw [merge_nil_right]; exact nonZero_scaled hf₁
  | lt m₁ p₁ m₂ p₂ h ih =>
      intro h₁ h₂
      rw [merge_cons, h]
      refine List.forall_mem_cons.mpr ⟨mul_ne_zero (h₂ _ List.mem_cons_self) hf₂, ?_⟩
      exact ih h₁ fun m hm => h₂ m (List.mem_cons_of_mem _ hm)
  | gt m₁ p₁ m₂ p₂ h ih =>
      intro h₁ h₂
      rw [merge_cons, h]
      refine List.forall_mem_cons.mpr ⟨mul_ne_zero (h₁ _ List.mem_cons_self) hf₁, ?_⟩
      exact ih (fun m hm => h₁ m (List.mem_cons_of_mem _ hm)) h₂
  | eq m₁ p₁ m₂ p₂ h ih =>
      intro h₁ h₂
      rw [merge_cons, h]
      have hrest := ih (fun m hm => h₁ m (List.mem_cons_of_mem _ hm))
        fun m hm => h₂ m (List.mem_cons_of_mem _ hm)
      by_cases hz : m₁.2 * f₁ + m₂.2 * f₂ = 0
      · simpa only [hz, if_true] using hrest
      · simp only [hz, if_false]
        exact List.forall_mem_cons.mpr ⟨hz, hrest⟩

/-! ## A sorted list is determined by its coefficients -/

section

variable [DecidableEq α]

/-- The coefficient of a key, zero for a key that is not there. -/
def coeff (a : α) (p : List (α × ℤ)) : ℤ := total (fun b => if b = a then 1 else 0) p

@[simp] theorem coeff_nil (a : α) : coeff a [] = 0 := rfl

theorem coeff_cons (a : α) (m : α × ℤ) (p : List (α × ℤ)) :
    coeff a (m :: p) = (if m.1 = a then m.2 else 0) + coeff a p := by
  unfold coeff
  rw [total_cons]
  split <;> simp

theorem coeff_merge {cmp : α → α → Ordering} (hcmp : ∀ a b, cmp a b = .eq → a = b) (a : α)
    (f₁ f₂ : ℤ) (p₁ p₂ : List (α × ℤ)) :
    coeff a (merge cmp f₁ f₂ p₁ p₂) = f₁ * coeff a p₁ + f₂ * coeff a p₂ :=
  total_merge (fun b c h => by rw [hcmp b c h]) f₁ f₂ p₁ p₂

theorem coeff_eq_zero {a : α} : ∀ {p : List (α × ℤ)}, (∀ c, (a, c) ∉ p) → coeff a p = 0
  | [], _ => rfl
  | m :: p, h => by
      have hne : m.1 ≠ a := by
        intro heq
        exact h m.2 (heq ▸ List.mem_cons_self)
      rw [coeff_cons, if_neg hne, coeff_eq_zero fun c hc => h c (List.mem_cons_of_mem _ hc),
        add_zero]

theorem coeff_of_mem {cmp : α → α → Ordering} [Std.ReflCmp cmp] {a : α} {c : ℤ} :
    ∀ {p : List (α × ℤ)}, Desc cmp p → (a, c) ∈ p → coeff a p = c
  | m :: p, hd, hm => by
      rw [coeff_cons]
      have habsent : ∀ b, (m.1, b) ∉ p := by
        intro b hb
        have hself : cmp m.1 m.1 = .eq := Std.ReflCmp.compare_self
        rw [hd.head_gt hb] at hself
        injection hself
      rcases List.mem_cons.mp hm with rfl | hm
      · rw [if_pos rfl, coeff_eq_zero habsent, add_zero]
      · have hne : m.1 ≠ a := by
          intro heq
          exact habsent c (heq ▸ hm)
        rw [if_neg hne, coeff_of_mem hd.tail hm, zero_add]

theorem mem_iff_coeff {cmp : α → α → Ordering} [Std.ReflCmp cmp] {p : List (α × ℤ)}
    (hd : Desc cmp p) (hz : NonZero p) {a : α} {c : ℤ} :
    (a, c) ∈ p ↔ coeff a p = c ∧ c ≠ 0 := by
  constructor
  · intro hm
    exact ⟨coeff_of_mem hd hm, hz _ hm⟩
  · intro h
    obtain ⟨hc, hne⟩ := h
    by_contra hm
    have habsent : ∀ b, (a, b) ∉ p := by
      intro b hb
      rw [coeff_of_mem hd hb] at hc
      exact hm (hc ▸ hb)
    exact hne (hc ▸ coeff_eq_zero habsent)

omit [DecidableEq α] in
theorem Desc.nodup {cmp : α → α → Ordering} [Std.ReflCmp cmp] {p : List (α × ℤ)}
    (hd : Desc cmp p) : p.Nodup := by
  refine List.Pairwise.imp (fun {m m'} hgt heq => ?_) hd
  have hself : cmp m.1 m.1 = .eq := Std.ReflCmp.compare_self
  rw [← heq, hself] at hgt
  injection hgt

/-- **The sorted form is unique.** -/
theorem eq_of_coeff {cmp : α → α → Ordering} [Std.TransCmp cmp] {p q : List (α × ℤ)}
    (hp : Desc cmp p) (hq : Desc cmp q) (hzp : NonZero p) (hzq : NonZero q)
    (h : ∀ a, coeff a p = coeff a q) : p = q := by
  have hperm : p.Perm q := by
    rw [List.perm_ext_iff_of_nodup hp.nodup hq.nodup]
    intro m
    rw [show m = (m.1, m.2) from rfl, mem_iff_coeff hp hzp, mem_iff_coeff hq hzq, h]
  refine hperm.eq_of_pairwise (fun m m' _ _ hgt hgt' => ?_) hp hq
  rw [Std.OrientedCmp.gt_iff_lt, hgt] at hgt'
  injection hgt'

end

end JaxDas.SortedPairs
