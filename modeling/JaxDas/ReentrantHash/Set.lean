import JaxDas.ReentrantHash.Fuel
import JaxDas.ReentrantHash.Operations

/-!
# The table is a set

Where the equality functor leaves the table alone, every operation ends and does what it
says, as long as `clear` finds nothing to clear. A `clear` that does leaves the sentinel in
the byte that mirrors slot 0: with groups of 8 and 8 slots a `find` may then look at the
same full group for ever.
-/

namespace JaxDas.ReentrantHash

variable {Key : Type} {W : ℕ} {hash : Key → ℕ} {eqv : Key → Key → Bool} {T T' : Table Key}

/-- The tables that operations make of an empty one, where the equality functor leaves the
table alone. `ok` says which tables are cleared. -/
inductive Reached (W : ℕ) (hash : Key → ℕ) (eqv : Key → Key → Bool) (ok : Table Key → Prop) :
    Table Key → Prop
  | init : Reached W hash eqv ok (init W)
  | op {T T' : Table Key} (h : Reached W hash eqv ok T) {op : Op Key} (hop : op.Fits hash eqv)
      (fuel : ℕ) {r : Result} (hr : op.run W hash fuel T = some (T', r)) :
      Reached W hash eqv ok T'
  | erase {T T' : Table Key} (h : Reached W hash eqv ok T) {idx : ℕ}
      (he : T.erase W idx = some T') : Reached W hash eqv ok T'
  | clear {T : Table Key} (h : Reached W hash eqv ok T) (hok : ok T) :
      Reached W hash eqv ok (T.clear W)

/-- What a table is between two operations. -/
structure IsSet (W : ℕ) (hash : Key → ℕ) (eqv : Key → Key → Bool) (T : Table Key) : Prop where
  /-- No two elements are equal. -/
  distinct : ∀ i j a b, T.slots i = some a → T.slots j = some b → eqv a b = true → i = j
  size : T.size = T.stored.card
  /-- A control byte tells what is in its slot. -/
  full_iff : ∀ i, i < T.capacity → ∀ b,
    T.ctrl i = .full b ↔ ∃ k, T.slots i = some k ∧ h2 (hash k) = b
  /-- The first group is repeated at the end. -/
  mirrored : Mirrored W T
  /-- Every probe sees an empty byte. -/
  seesEmpty : 0 < T.capacity → Open W T

theorem wf_init (hW : W = 8 ∨ W = 16) : WF W hash eqv (init W) :=
  wf_reset hW _ fun h => absurd h (Nat.lt_irrefl 0)

theorem mirrored_init : Mirrored W (init W : Table Key) := mirrored_reset _ 0

theorem mirrored_erase (h : Mirrored W T) {idx : ℕ} (he : T.erase W idx = some T') :
    Mirrored W T' := by
  obtain ⟨hidx, -, hw, -⟩ := erase_eq_some he
  exact h.wrote hw hidx

theorem isSet_of_wf (h : WF W hash eqv T) (hm : Mirrored W T) : IsSet W hash eqv T where
  distinct := h.distinct
  size := h.counts.size
  full_iff := h.shape.full_iff
  mirrored := hm
  seesEmpty := h.open (.inl hm)

/-- Whatever fuel an operation was run with, it did what it does with enough of it. -/
theorem run_done (hW : W = 8 ∨ W = 16) (hsymm : ∀ a b, eqv a b = eqv b a)
    (hwf : WF W hash eqv T) (hm : Mirrored W T) {op : Op Key} (hop : op.Fits hash eqv)
    {fuel : ℕ} {r : Result} (hr : op.run W hash fuel T = some (T', r)) :
    WF W hash eqv T' ∧ Mirrored W T' ∧ Done T T' op r := by
  obtain ⟨T₁, r₁, hr₁, hwf₁, -, hm₁, hdone⟩ :=
    run_ok hW hsymm hwf (.inl hm) hop (le_max_right fuel (T.enough W))
  have heq := run_mono (le_max_left fuel (T.enough W)) hr
  rw [hr₁] at heq
  obtain ⟨rfl, rfl⟩ := Prod.mk.inj (Option.some.inj heq)
  exact ⟨hwf₁, hm₁ hm, hdone⟩

theorem wf_reached (hW : W = 8 ∨ W = 16) (hsymm : ∀ a b, eqv a b = eqv b a)
    (h : Reached W hash eqv (fun T => T.capacity = 0) T) : WF W hash eqv T ∧ Mirrored W T := by
  induction h with
  | init => exact ⟨wf_init hW, mirrored_init⟩
  | op _ hop _ hr ih =>
      obtain ⟨hwf, hm, -⟩ := run_done hW hsymm ih.1 ih.2 hop hr
      exact ⟨hwf, hm⟩
  | erase _ he ih => exact ⟨wf_erase ih.1 he, mirrored_erase ih.2 he⟩
  | clear _ hok ih => rwa [Table.clear, if_pos hok]

/-- **The table is a set, and every operation ends**, in every run that clears only tables
nothing was ever put into. -/
theorem isSet_reached (hW : W = 8 ∨ W = 16) (hsymm : ∀ a b, eqv a b = eqv b a)
    (hcons : ∀ a b, eqv a b = true → hash a = hash b)
    (h : Reached W hash eqv (fun T => T.capacity = 0) T) :
    IsSet W hash eqv T ∧
      (∀ op : Op Key, op.Fits hash eqv →
        ∃ T' r, Done T T' op r ∧ ∃ N, ∀ fuel ≥ N, op.run W hash fuel T = some (T', r)) ∧
      (∀ key, (Op.insert hash eqv key).Fits hash eqv) ∧
      ∀ idx k, T.slots idx = some k → ∃ T', T.erase W idx = some T' ∧
        T'.size + 1 = T.size ∧ ∀ i, T'.slots i = if i = idx then none else T.slots i := by
  obtain ⟨hwf, hm⟩ := wf_reached hW hsymm h
  refine ⟨isSet_of_wf hwf hm, ?_, insert_fits hcons, ?_⟩
  · intro op hop
    obtain ⟨T', r, hr, -, -, -, hdone⟩ := run_ok hW hsymm hwf (.inl hm) hop (Nat.le_refl _)
    exact ⟨T', r, hdone, T.enough W, fun fuel hfuel => run_mono hfuel hr⟩
  · intro idx k hk
    have hidx := hwf.shape.lt_capacity hk
    have hfull := (hwf.shape.full_iff idx hidx _).mpr ⟨k, hk, rfl⟩
    have hmem : idx ∈ T.stored := by
      rw [Table.stored, Finset.mem_filter, Finset.mem_range, hk]
      exact ⟨hidx, rfl⟩
    have hpos : 0 < T.size := hwf.counts.size ▸ Finset.card_pos.mpr ⟨idx, hmem⟩
    obtain ⟨T', he⟩ : ∃ T', T.erase W idx = some T' := by
      rw [Table.erase, if_pos hidx, hfull]
      exact ⟨_, rfl⟩
    obtain ⟨-, -, hw, hsize, -⟩ := erase_eq_some he
    exact ⟨T', he, by omega, hw.slots⟩

/-- Numbers as keys, each its own hash. -/
def natEq (a b : ℕ) : Bool := decide (a = b)

theorem natEq_insert_fits (key : ℕ) : (Op.insert id natEq key).Fits id natEq :=
  insert_fits (fun _ _ h => of_decide_eq_true h) key

/-- A table with one element. -/
def single : Table ℕ := ((init 16).reset 16 8).add 16 1 0 128

theorem isSet_reached_single :
    Reached 16 id natEq (fun T => T.capacity = 0) single ∧ IsSet 16 id natEq single ∧
      ∃ T' r, Done single T' (.find ⟨128, natEq 128⟩) r := by
  have h : Reached 16 id natEq (fun T => T.capacity = 0) single :=
    .op (r := .inserted 1) .init (natEq_insert_fits 128) 1 rfl
  obtain ⟨hset, hop, -⟩ := isSet_reached (.inr rfl) (fun a b => decide_eq_decide.mpr eq_comm)
    (fun _ _ h => of_decide_eq_true h) h
  obtain ⟨T', r, hdone, -⟩ := hop (.find ⟨128, natEq 128⟩) fun k hk => (of_decide_eq_true hk).symm
  exact ⟨h, hset, T', r, hdone⟩

/-! ## What clear leaves behind -/

/-- Every `clear` of a table with slots leaves the sentinel where slot 0 is mirrored. -/
theorem not_mirrored_clear (hW : 0 < W) (hpos : 0 < T.capacity) : ¬ Mirrored W (T.clear W) := by
  rw [Table.clear, if_neg (by omega)]
  intro hm
  have h := hm 0 hpos hW
  simp only [Nat.zero_add, if_true] at h
  rw [if_neg (by omega), if_pos (by omega)] at h
  cases h

/-- A table of 8 slots that had an element, is cleared, and gets `n` elements whose probes
begin at slot 1. -/
def cleared : ℕ → Table ℕ
  | 0 => (((init 8).reset 8 8).add 8 1 0 128).clear 8
  | n + 1 => (cleared n).add 8 (n + 1) (n + 1) (129 + n)

theorem attempt_cleared {n : ℕ} (hn : n < 7) :
    (Op.insert id natEq (129 + n)).attempt 8 id 1 (cleared n)
      = some (cleared (n + 1), .returned (.inserted (n + 1))) := by
  interval_cases n <;> rfl

theorem reached_cleared : ∀ n ≤ 7, Reached 8 id natEq (fun _ => True) (cleared n)
  | 0, _ => by
      refine .clear ?_ trivial
      exact .op (r := .inserted 1) .init (natEq_insert_fits 128) 1 rfl
  | n + 1, hn => by
      refine .op (r := .inserted (n + 1)) (reached_cleared n (by omega))
        (natEq_insert_fits (129 + n)) 1 ?_
      rw [Op.run, attempt_cleared (by omega)]
      rfl

/-- A probe that is at the same group after every step, and finds nothing there. -/
theorem scan_same_group (x : ℕ) (hcap : T.capacity = 8) {curr : ℕ} (hcurr : curr < 8)
    (hmatch : T.groupMatch 8 curr (h2 x) = []) (hempty : T.groupEmpty 8 curr = false) :
    ∀ (fuel step : ℕ) (target : Option ℕ), 8 ∣ step →
      T.scan 8 x fuel ⟨curr, step, target, []⟩ = none
  | 0, _, _, _ => rfl
  | fuel + 1, step, target, hstep => by
      have hmod : (curr + (step + 8)) % 8 = curr := by omega
      rw [Table.scan, Table.visit]
      simp only [hempty, hcap, hmod, hmatch, Bool.false_eq_true, if_false]
      exact scan_same_group x hcap hcurr hmatch hempty fuel (step + 8) _ (by omega)

theorem attempt_find_cleared (fuel : ℕ) :
    (Op.find ⟨128, natEq 128⟩).attempt 8 id fuel (cleared 7) = none := by
  have hframe : (cleared 7).frame 8 128 = ⟨1, 0, none, []⟩ := rfl
  have hmatch : (cleared 7).groupMatch 8 1 (h2 128) = [] := by decide
  have hempty : (cleared 7).groupEmpty 8 1 = false := by decide
  have hscan := scan_same_group 128 rfl (by omega) hmatch hempty fuel 0 none (by omega)
  rw [Op.attempt, if_neg (by decide), Op.probe, Op.advance]
  simp only [Op.query, hframe, hscan]

/-- A `find` of what was cleared never ends: the byte that would show slot 0 is the sentinel. -/
theorem cleared_find_never_ends : Reached 8 id natEq (fun _ => True) (cleared 7) ∧
    (Op.find ⟨128, natEq 128⟩).Fits id natEq ∧
    ∀ fuel, (Op.find ⟨128, natEq 128⟩).run 8 id fuel (cleared 7) = none := by
  refine ⟨reached_cleared 7 (Nat.le_refl 7), fun k hk => (of_decide_eq_true hk).symm, ?_⟩
  intro fuel
  rw [Op.run, attempt_find_cleared]

end JaxDas.ReentrantHash
