import Mathlib.Tactic.Common

/-!
# Computations that may fail

How to take a successful run of a `do` block in `Except` apart.
-/

namespace JaxDas

variable {ε α β : Type}

theorem ok_bind (a : α) (f : α → Except ε β) : (Except.ok a >>= f) = f a := rfl

/-- A sequence succeeds when both of its parts do. -/
theorem bind_ok {x : Except ε α} {f : α → Except ε β} {b : β} :
    (x >>= f) = .ok b ↔ ∃ a, x = .ok a ∧ f a = .ok b := by
  cases x with
  | error e => exact ⟨fun h => absurd h (by simp [bind, Except.bind]), fun ⟨_, h, _⟩ => nomatch h⟩
  | ok a => exact ⟨fun h => ⟨a, rfl, h⟩, fun ⟨_, h, hf⟩ => by injection h with h; exact h ▸ hf⟩

theorem bind_error {x : Except ε α} {f : α → Except ε β} {e : ε} :
    (x >>= f) = .error e ↔ x = .error e ∨ ∃ a, x = .ok a ∧ f a = .error e := by
  cases x with
  | error e' => simp [bind, Except.bind]
  | ok a => simp [bind, Except.bind]

theorem toOption_eq_some_iff {x : Except ε α} {a : α} : x.toOption = some a ↔ x = .ok a := by
  cases x <;> simp [Except.toOption]

/-- A `Bool` test in a sequence: what succeeded was one of the branches. -/
theorem ite_ok {c : Prop} [Decidable c] {x y : Except ε α} {a : α}
    (h : (if c then x else y) = .ok a) : (c ∧ x = .ok a) ∨ (¬ c ∧ y = .ok a) := by
  split at h
  · exact .inl ⟨‹_›, h⟩
  · exact .inr ⟨‹_›, h⟩

/-- A successful `mapM` has a result for every element. -/
theorem mapM_ok {f : α → Except ε β} : ∀ {l : List α} {r : List β},
    l.mapM f = .ok r → List.Forall₂ (fun a b => f a = .ok b) l r
  | [], r, h => by
      rw [List.mapM_nil] at h
      injection h with h
      exact h ▸ .nil
  | a :: l, r, h => by
      rw [List.mapM_cons] at h
      obtain ⟨b, hb, h⟩ := bind_ok.mp h
      obtain ⟨bs, hbs, h⟩ := bind_ok.mp h
      injection h with h
      exact h ▸ .cons hb (mapM_ok hbs)

/-- The exception of a `mapM` is that of one of the elements. -/
theorem mapM_error {f : α → Except ε β} : ∀ {l : List α} {e : ε},
    l.mapM f = .error e → ∃ a ∈ l, f a = .error e
  | [], e, h => by rw [List.mapM_nil] at h; exact nomatch h
  | a :: l, e, h => by
      rw [List.mapM_cons] at h
      cases ha : f a with
      | error e' =>
          rw [ha] at h
          injection h with h
          exact ⟨a, List.mem_cons_self, by rw [ha, h]⟩
      | ok b =>
          rw [ha] at h
          cases hl : l.mapM f with
          | error e' =>
              rw [hl] at h
              injection h with h
              obtain ⟨a', ha', he⟩ := mapM_error hl
              exact ⟨a', List.mem_cons_of_mem _ ha', by rw [he, h]⟩
          | ok bs => rw [hl] at h; exact nomatch h

theorem mapM_of_forall₂ {f : α → Except ε β} {l : List α} {r : List β}
    (h : List.Forall₂ (fun a b => f a = .ok b) l r) : l.mapM f = .ok r := by
  induction h with
  | nil => rfl
  | cons hb _ ih => rw [List.mapM_cons, hb, ih]; rfl

/-- What a successful `mapM` did with one of the elements. -/
theorem mapM_ok_of_mem {f : α → Except ε β} {l : List α} {r : List β} (h : l.mapM f = .ok r)
    {a : α} (ha : a ∈ l) : ∃ b ∈ r, f a = .ok b := by
  have hall := mapM_ok h
  induction hall with
  | nil => exact absurd ha (by simp)
  | cons hb hall ih =>
      rcases List.mem_cons.mp ha with rfl | ha
      · exact ⟨_, List.mem_cons_self, hb⟩
      · obtain ⟨b, hb, hf⟩ := ih (mapM_of_forall₂ hall) ha
        exact ⟨b, List.mem_cons_of_mem _ hb, hf⟩

theorem mem_of_mapM_ok {f : α → Except ε β} {l : List α} {r : List β} (h : l.mapM f = .ok r)
    {b : β} (hb : b ∈ r) : ∃ a ∈ l, f a = .ok b := by
  have hall := mapM_ok h
  induction hall with
  | nil => exact absurd hb (by simp)
  | cons hf hall ih =>
      rcases List.mem_cons.mp hb with rfl | hb
      · exact ⟨_, List.mem_cons_self, hf⟩
      · obtain ⟨a, ha, hf⟩ := ih (mapM_of_forall₂ hall) hb
        exact ⟨a, List.mem_cons_of_mem _ ha, hf⟩

/-- A `mapM` whose every step succeeds does. -/
theorem mapM_exists {f : α → Except ε β} : ∀ {l : List α}, (∀ a ∈ l, ∃ b, f a = .ok b) →
    ∃ r, l.mapM f = .ok r
  | [], _ => ⟨[], rfl⟩
  | a :: l, h => by
      obtain ⟨b, hb⟩ := h a List.mem_cons_self
      obtain ⟨r, hr⟩ := mapM_exists fun a ha => h a (List.mem_cons_of_mem _ ha)
      exact ⟨b :: r, by rw [List.mapM_cons, hb, hr]; rfl⟩

theorem filterMap_toOption {f : α → Except ε β} {l : List α} {r : List β}
    (h : l.mapM f = .ok r) : l.filterMap (fun a => (f a).toOption) = r := by
  have hall := mapM_ok h
  clear h
  induction hall with
  | nil => rfl
  | cons hb _ ih =>
      rw [List.filterMap_cons, hb, ih]
      rfl

theorem mapError_eq_ok {ε' : Type} {x : Except ε α} {f : ε → ε'} {a : α}
    (h : x.mapError f = .ok a) : x = .ok a := by
  cases x with
  | error e => cases h
  | ok b => rw [Except.ok.inj h]

end JaxDas
