import Mathlib.Algebra.BigOperators.Group.List.Basic
import Mathlib.Algebra.GroupWithZero.Nat
import Mathlib.Data.Finset.Card
import Mathlib.Data.List.Dedup
import Mathlib.Data.List.Pairwise

/-!
# Collecting sets by key

`groupSets` is a dictionary of sets, filled from pairs of a key and an element. Sets are pairwise
disjoint exactly if their sizes add up to the size of their union.
-/

namespace JaxDas

variable {κ α : Type} [DecidableEq κ] [DecidableEq α]

/-! ## A dictionary of sets -/

/-- `groups[k].add(a)`, where a key that is new has the empty set. -/
def addToGroup (k : κ) (a : α) : List (κ × Finset α) → List (κ × Finset α)
  | [] => [(k, {a})]
  | (k', s) :: groups =>
      if k' = k then (k', insert a s) :: groups else (k', s) :: addToGroup k a groups

def groupSets (items : List (κ × α)) : List (κ × Finset α) :=
  items.foldl (fun groups item => addToGroup item.1 item.2 groups) []

/-- The elements that come with a key. -/
def groupOf (items : List (κ × α)) (k : κ) : Finset α :=
  ((items.filter fun item => item.1 = k).map Prod.snd).toFinset

theorem mem_groupOf {items : List (κ × α)} {k : κ} {a : α} :
    a ∈ groupOf items k ↔ (k, a) ∈ items := by
  rw [groupOf, List.mem_toFinset, List.mem_map]
  constructor
  · rintro ⟨⟨k', a'⟩, hmem, rfl⟩
    obtain ⟨hmem, hk⟩ := List.mem_filter.mp hmem
    rw [← of_decide_eq_true hk]
    exact hmem
  · exact fun h => ⟨_, List.mem_filter.mpr ⟨h, decide_eq_true rfl⟩, rfl⟩

theorem groupOf_concat (items : List (κ × α)) (k k' : κ) (a : α) :
    groupOf (items ++ [(k, a)]) k' =
      if k' = k then insert a (groupOf items k') else groupOf items k' := by
  ext b
  split
  · next h =>
      subst h
      rw [Finset.mem_insert, mem_groupOf, mem_groupOf, List.mem_append, List.mem_singleton,
        Prod.mk.injEq, eq_true rfl, true_and, or_comm]
  · next h =>
      rw [mem_groupOf, mem_groupOf, List.mem_append, List.mem_singleton, Prod.mk.injEq]
      exact or_iff_left fun heq => h heq.1

theorem groupOf_of_not_mem {items : List (κ × α)} {k : κ} (h : k ∉ items.map Prod.fst) :
    groupOf items k = ∅ := by
  refine Finset.eq_empty_of_forall_notMem fun a ha => ?_
  exact h (List.mem_map.mpr ⟨_, mem_groupOf.mp ha, rfl⟩)

theorem lookup_cons_ite {ν : Type} (k k₀ : κ) (v : ν) (l : List (κ × ν)) :
    ((k₀, v) :: l).lookup k = if k = k₀ then some v else l.lookup k := by
  rw [List.lookup_cons]
  by_cases h : k = k₀
  · rw [if_pos h, beq_iff_eq.mpr h]
  · rw [if_neg h, beq_eq_false_iff_ne.mpr h]

theorem lookup_addToGroup (k : κ) (a : α) (k' : κ) : ∀ groups : List (κ × Finset α),
    (addToGroup k a groups).lookup k' =
      if k' = k then some (insert a ((groups.lookup k).getD ∅)) else groups.lookup k'
  | [] => by
      rw [addToGroup, lookup_cons_ite]
      rfl
  | (k₀, s) :: groups => by
      rw [addToGroup, lookup_cons_ite k, lookup_cons_ite k' k₀ s groups]
      by_cases h₀ : k₀ = k
      · subst h₀
        rw [if_pos rfl, if_pos rfl, lookup_cons_ite, Option.getD_some]
        by_cases h : k' = k₀
        · rw [if_pos h, if_pos h]
        · rw [if_neg h, if_neg h, if_neg h]
      · rw [if_neg h₀, if_neg (Ne.symm h₀), lookup_cons_ite, lookup_addToGroup k a k' groups]
        by_cases h : k' = k₀
        · rw [if_pos h, if_pos h, if_neg fun hk => h₀ (h.symm.trans hk)]
        · rw [if_neg h, if_neg h]

theorem keys_addToGroup (k : κ) (a : α) (k' : κ) : ∀ groups : List (κ × Finset α),
    k' ∈ (addToGroup k a groups).map Prod.fst ↔ k' = k ∨ k' ∈ groups.map Prod.fst
  | [] => by simp [addToGroup]
  | (k₀, s) :: groups => by
      rw [addToGroup]
      split
      · next h =>
          subst h
          rw [List.map_cons, List.map_cons, List.mem_cons]
          tauto
      · rw [List.map_cons, List.map_cons, List.mem_cons, List.mem_cons,
          keys_addToGroup k a k' groups]
        tauto

theorem nodup_addToGroup (k : κ) (a : α) : ∀ {groups : List (κ × Finset α)},
    (groups.map Prod.fst).Nodup → ((addToGroup k a groups).map Prod.fst).Nodup
  | [], _ => by simp [addToGroup]
  | (k₀, s) :: groups, h => by
      rw [addToGroup]
      split
      · exact h
      · next hne =>
          obtain ⟨hk, h⟩ := List.nodup_cons.mp h
          refine List.nodup_cons.mpr ⟨fun hmem => ?_, nodup_addToGroup k a h⟩
          exact ((keys_addToGroup k a k₀ groups).mp hmem).elim hne hk

theorem groupSets_concat (items : List (κ × α)) (item : κ × α) :
    groupSets (items ++ [item]) = addToGroup item.1 item.2 (groupSets items) := by
  rw [groupSets, List.foldl_append]
  rfl

theorem nodup_groupSets (items : List (κ × α)) : ((groupSets items).map Prod.fst).Nodup := by
  induction items using List.reverseRecOn with
  | nil => exact .nil
  | append_singleton items item ih =>
      rw [groupSets_concat]
      exact nodup_addToGroup item.1 item.2 ih

theorem lookup_groupSets (items : List (κ × α)) (k : κ) : (groupSets items).lookup k =
    if k ∈ items.map Prod.fst then some (groupOf items k) else none := by
  induction items using List.reverseRecOn generalizing k with
  | nil => rfl
  | append_singleton items item ih =>
      have hmem : k ∈ (items ++ [item]).map Prod.fst ↔ k = item.1 ∨ k ∈ items.map Prod.fst := by
        rw [List.map_append, List.mem_append, or_comm]
        exact or_congr_left List.mem_singleton
      rw [groupSets_concat, lookup_addToGroup, ih item.1, ih k, groupOf_concat]
      by_cases h : k = item.1
      · subst h
        rw [if_pos rfl, if_pos rfl, if_pos (hmem.mpr (.inl rfl))]
        by_cases hk : item.1 ∈ items.map Prod.fst
        · rw [if_pos hk, Option.getD_some]
        · rw [if_neg hk, groupOf_of_not_mem hk, Option.getD_none]
      · rw [if_neg h, if_neg h]
        exact if_congr (hmem.trans (or_iff_right h)).symm rfl rfl

/-- The value of a key that occurs once. -/
theorem lookup_eq_some_of_nodup {ν : Type} : ∀ {l : List (κ × ν)},
    (l.map Prod.fst).Nodup → ∀ {a : κ × ν}, a ∈ l → l.lookup a.1 = some a.2
  | b :: l, hl, a, ha => by
      rw [List.map_cons, List.nodup_cons] at hl
      rw [lookup_cons_ite]
      rcases List.mem_cons.mp ha with rfl | ha
      · exact if_pos rfl
      · have hne : a.1 ≠ b.1 := fun h => hl.1 (h ▸ List.mem_map_of_mem ha)
        rw [if_neg hne]
        exact lookup_eq_some_of_nodup hl.2 ha

theorem mem_of_lookup {ν : Type} {k : κ} {v : ν} : ∀ {l : List (κ × ν)},
    l.lookup k = some v → (k, v) ∈ l
  | b :: l, h => by
      rw [lookup_cons_ite] at h
      split at h
      · next hk =>
          obtain rfl := Option.some.inj h
          rw [hk]
          exact List.mem_cons_self
      · exact List.mem_cons_of_mem _ (mem_of_lookup h)

/-- The values of the dictionary are the groups. -/
theorem mem_groupSets_values {items : List (κ × α)} {s : Finset α} :
    s ∈ (groupSets items).map Prod.snd ↔ ∃ k ∈ items.map Prod.fst, s = groupOf items k := by
  rw [List.mem_map]
  constructor
  · rintro ⟨⟨k, s⟩, hmem, rfl⟩
    have hlookup := lookup_eq_some_of_nodup (nodup_groupSets items) hmem
    rw [lookup_groupSets, Option.ite_none_right_eq_some] at hlookup
    exact ⟨k, hlookup.1, (Option.some.inj hlookup.2).symm⟩
  · rintro ⟨k, hk, rfl⟩
    exact ⟨(k, groupOf items k), mem_of_lookup ((lookup_groupSets items k).trans (if_pos hk)), rfl⟩

/-- The order in which a set has its elements: it is a function of what was put in. -/
structure SetOrder (α : Type) [DecidableEq α] where
  order : List α → List α
  perm : ∀ l, (order l).Perm l.dedup

theorem SetOrder.mem_order (o : SetOrder α) {l : List α} {a : α} : a ∈ o.order l ↔ a ∈ l :=
  (o.perm l).mem_iff.trans List.mem_dedup

theorem SetOrder.nodup_order (o : SetOrder α) (l : List α) : (o.order l).Nodup :=
  (o.perm l).nodup_iff.mpr (List.nodup_dedup l)

/-! ## Sizes -/

def unionAll (l : List (Finset α)) : Finset α := l.foldr (· ∪ ·) ∅

theorem mem_unionAll {l : List (Finset α)} {a : α} : a ∈ unionAll l ↔ ∃ s ∈ l, a ∈ s := by
  induction l with
  | nil => simp [unionAll]
  | cons s l ih =>
      change a ∈ s ∪ unionAll l ↔ _
      rw [Finset.mem_union, ih, List.exists_mem_cons_iff]

theorem card_unionAll_le (l : List (Finset α)) :
    (unionAll l).card ≤ (l.map Finset.card).sum := by
  induction l with
  | nil => exact Nat.le_refl 0
  | cons s l ih =>
      rw [List.map_cons, List.sum_cons]
      exact (Finset.card_union_le s (unionAll l)).trans (Nat.add_le_add_left ih _)

/-- The sizes add up to that of the union only if no two sets meet. -/
theorem pairwise_disjoint_iff {l : List (Finset α)} :
    (l.map Finset.card).sum = (unionAll l).card ↔ l.Pairwise Disjoint := by
  induction l with
  | nil => exact iff_of_true rfl .nil
  | cons s l ih =>
      have hle := card_unionAll_le l
      have hunion := Finset.card_union_le s (unionAll l)
      have hdisjoint : Disjoint s (unionAll l) ↔ ∀ t ∈ l, Disjoint s t := by
        simp only [Finset.disjoint_left, mem_unionAll]
        constructor
        · exact fun h t ht a hs hat => h hs ⟨t, ht, hat⟩
        · rintro h a hs ⟨t, ht, hat⟩
          exact h t ht hs hat
      rw [List.map_cons, List.sum_cons, List.pairwise_cons, ← hdisjoint, ← ih,
        ← Finset.card_union_eq_card_add_card]
      change _ = (s ∪ unionAll l).card ↔ _
      omega

/-! ## Groups that partition -/

theorem groupOf_map {β : Type} [DecidableEq β] (f : α → β) (items : List (κ × α)) (k : κ) :
    groupOf (items.map (Prod.map id f)) k = (groupOf items k).image f := by
  ext b
  rw [mem_groupOf, Finset.mem_image, List.mem_map]
  constructor
  · rintro ⟨⟨k', a⟩, hmem, h⟩
    obtain ⟨rfl, rfl⟩ := Prod.mk.inj h
    exact ⟨a, mem_groupOf.mpr hmem, rfl⟩
  · rintro ⟨a, ha, rfl⟩
    exact ⟨(k, a), mem_groupOf.mp ha, rfl⟩

variable (o : SetOrder (Finset α)) (items : List (κ × α))

/-- The distinct groups, in the order of the set. -/
def distinctGroups : List (Finset α) := o.order ((groupSets items).map Prod.snd)

variable {o items}

theorem mem_distinctGroups {s : Finset α} :
    s ∈ distinctGroups o items ↔ ∃ k ∈ items.map Prod.fst, s = groupOf items k :=
  o.mem_order.trans mem_groupSets_values

theorem unionAll_distinctGroups :
    unionAll (distinctGroups o items) = (items.map Prod.snd).toFinset := by
  ext a
  rw [mem_unionAll, List.mem_toFinset, List.mem_map]
  constructor
  · rintro ⟨s, hs, ha⟩
    obtain ⟨k, -, rfl⟩ := mem_distinctGroups.mp hs
    exact ⟨(k, a), mem_groupOf.mp ha, rfl⟩
  · rintro ⟨⟨k, a⟩, hmem, rfl⟩
    exact ⟨groupOf items k, mem_distinctGroups.mpr ⟨k, List.mem_map_of_mem hmem, rfl⟩,
      mem_groupOf.mpr hmem⟩

/-- The index of a group among the distinct ones names it. -/
theorem idxOf_distinctGroups {k k' : κ} (hk : k ∈ items.map Prod.fst) :
    (distinctGroups o items).idxOf (groupOf items k) =
      (distinctGroups o items).idxOf (groupOf items k') ↔ groupOf items k = groupOf items k' :=
  List.idxOf_inj (mem_distinctGroups.mpr ⟨k, hk, rfl⟩)

theorem lt_length_distinctGroups {i : ℕ} : i < (distinctGroups o items).length ↔
    ∃ k ∈ items.map Prod.fst, (distinctGroups o items).idxOf (groupOf items k) = i := by
  constructor
  · intro hi
    obtain ⟨k, hk, hget⟩ := mem_distinctGroups.mp (List.getElem_mem hi)
    exact ⟨k, hk, hget ▸ (o.nodup_order _).idxOf_getElem i hi⟩
  · rintro ⟨k, hk, rfl⟩
    exact List.idxOf_lt_length_of_mem (mem_distinctGroups.mpr ⟨k, hk, rfl⟩)

theorem disjoint_of_sum
    (h : ((distinctGroups o items).map Finset.card).sum = (items.map Prod.snd).toFinset.card)
    {k k' : κ} (hk : k ∈ items.map Prod.fst) (hk' : k' ∈ items.map Prod.fst)
    (hne : groupOf items k ≠ groupOf items k') : Disjoint (groupOf items k) (groupOf items k') := by
  rw [← unionAll_distinctGroups (o := o), pairwise_disjoint_iff] at h
  have hsymm : Std.Symm (Disjoint : Finset α → Finset α → Prop) := ⟨fun _ _ hd => hd.symm⟩
  exact h.forall (mem_distinctGroups.mpr ⟨k, hk, rfl⟩)
    (mem_distinctGroups.mpr ⟨k', hk', rfl⟩) hne

/-- Groups of one size, as many as there are distinct ones, make up everything. -/
theorem length_mul_card
    (h : ((distinctGroups o items).map Finset.card).sum = (items.map Prod.snd).toFinset.card)
    {n : ℕ} (hcard : ∀ k ∈ items.map Prod.fst, (groupOf items k).card = n) :
    (distinctGroups o items).length * n = (items.map Prod.snd).toFinset.card := by
  rw [← h]
  have hall : (distinctGroups o items).map Finset.card =
      List.replicate (distinctGroups o items).length n := by
    refine List.eq_replicate_iff.mpr ⟨List.length_map _, fun c hc => ?_⟩
    obtain ⟨s, hs, rfl⟩ := List.mem_map.mp hc
    obtain ⟨k, hk, rfl⟩ := mem_distinctGroups.mp hs
    exact hcard k hk
  rw [hall, List.sum_replicate_nat]

end JaxDas
