import JaxDas.Lib.Related
import JaxDas.Interner.Interner

/-!
# One live object for each key

`Interned` is what holds whenever the lock is free. Its heart is `served`: as long as an
object lives that a call has returned, an entry for its key has it. An entry only goes when
the callback of its own weakref runs, and only gets another weakref when its object is
dead, because addresses of weakrefs that may still be called back are not used again.
-/

namespace JaxDas.Interner

open WeakrefCache Related

variable {Obj Val : Type} {C : Comparison Obj}

/-! ## Keys -/

section Keys

theorem Key.equal_iff {a b : Key Obj} : Key.equal C a b = true ↔
    a.kwnames = b.kwnames ∧ List.Forall₂ (fun x y => C.equal x y = true) a.args b.args := by
  rw [Key.equal, Bool.and_eq_true, beq_iff_eq, listsEqual_iff]

variable (hC : C.Laws)

include hC

theorem Key.equal_symm {a b : Key Obj} (h : Key.equal C a b = true) : Key.equal C b a = true := by
  rw [Key.equal_iff] at h ⊢
  exact ⟨h.1.symm, h.2.flip.imp fun _ _ hxy => hC.equal_symm hxy⟩

theorem Key.equal_trans {a b c : Key Obj} (hab : Key.equal C a b = true)
    (hbc : Key.equal C b c = true) : Key.equal C a c = true := by
  rw [Key.equal_iff] at hab hbc ⊢
  have hba := (Key.equal_iff.mp (Key.equal_symm hC (Key.equal_iff.mpr hab))).2
  refine ⟨hab.1.trans hbc.1, forall₂_of_common hba hbc.2 ?_⟩
  intro y _ x _ z _ hyx hyz
  exact hC.equal_trans (hC.equal_symm hyx) hyz

theorem Key.equal_of_pointerEqual {a b : Key Obj} (h : Key.pointerEqual C a b = true) :
    Key.equal C a b = true := by
  rw [Key.pointerEqual, Bool.and_eq_true, beq_iff_eq, listsEqual_iff] at h
  rw [Key.equal_iff]
  exact ⟨h.1, h.2.imp fun _ _ hxy => hC.equal_of_is hxy⟩

theorem Key.pointerEqual_refl (a : Key Obj) : Key.pointerEqual C a a = true := by
  rw [Key.pointerEqual, Bool.and_eq_true, beq_iff_eq, listsEqual_iff]
  exact ⟨rfl, List.forall₂_same.mpr fun x _ => hC.is_refl x⟩

end Keys

/-! ## The invariant -/

/-- What holds whenever the lock is free. -/
structure Interned (C : Comparison Obj) (s : State Obj Val) : Prop where
  /-- Entries have different keys. -/
  keys : ∀ a ∈ s.entries, ∀ b ∈ s.entries, Key.equal C a.key b.key = true → a = b
  addrs : (s.entries.map Entry.addr).Nodup
  refs : ∀ a ∈ s.entries, ∀ b ∈ s.entries, a.valueWeakref.addr = b.valueWeakref.addr → a = b
  /-- `reverse_index_` has exactly the weakrefs of the entries. -/
  reverse : ∀ w a, (w, a) ∈ s.reverseIndex ↔
    ∃ e ∈ s.entries, e.valueWeakref.addr = w ∧ e.addr = a
  /-- What a call is about to store lives, and has addresses of its own. -/
  storing_live : ∀ c e, s.calls c = .storing e → e.valueWeakref.referent ∉ s.dead
  storing_new : ∀ c e, s.calls c = .storing e → ∀ x ∈ s.entries,
    x.valueWeakref.addr ≠ e.valueWeakref.addr ∧ x.addr ≠ e.addr
  storing_pending : ∀ c e, s.calls c = .storing e → ∀ w ∈ s.pending, w.addr ≠ e.valueWeakref.addr
  storing_apart : ∀ c e, s.calls c = .storing e → ∀ c' e', s.calls c' = .storing e' → c ≠ c' →
    e.valueWeakref.addr ≠ e'.valueWeakref.addr ∧ e.addr ≠ e'.addr
  pending_dead : ∀ w ∈ s.pending, w.referent ∈ s.dead
  /-- No entry has another weakref at the address of one whose callback is due. -/
  pending_ref : ∀ w ∈ s.pending, ∀ e ∈ s.entries, e.valueWeakref.addr = w.addr → e.valueWeakref = w
  /-- A living object that was returned is the object of an entry for its key. -/
  served : ∀ k v, (k, v) ∈ s.returned → v ∉ s.dead →
    ∃ e ∈ s.entries, Key.equal C e.key k = true ∧ e.valueWeakref.referent = v

theorem interned_init : Interned C (State.init : State Obj Val) where
  keys := by intro a ha; simp [State.init] at ha
  addrs := by simp [State.init]
  refs := by intro a ha; simp [State.init] at ha
  reverse := by intro w a; simp [State.init]
  storing_live := by intro c e h; simp [State.init] at h
  storing_new := by intro c e h; simp [State.init] at h
  storing_pending := by intro c e h; simp [State.init] at h
  storing_apart := by intro c e h; simp [State.init] at h
  pending_dead := by intro w hw; simp [State.init] at hw
  pending_ref := by intro w hw; simp [State.init] at hw
  served := by intro k v h; simp [State.init] at h

/-- Two living objects that were returned for equal keys. -/
theorem Interned.unique (hC : C.Laws) {s : State Obj Val} (h : Interned C s) {k k' : Key Obj}
    {v v' : Val} (hv : (k, v) ∈ s.returned) (hv' : (k', v') ∈ s.returned)
    (hk : Key.equal C k k' = true) (hlive : v ∉ s.dead) (hlive' : v' ∉ s.dead) : v = v' := by
  obtain ⟨e, he, hek, rfl⟩ := h.served k v hv hlive
  obtain ⟨e', he', hek', rfl⟩ := h.served k' v' hv' hlive'
  have heq : Key.equal C e.key e'.key = true :=
    Key.equal_trans hC (Key.equal_trans hC hek hk) (Key.equal_symm hC hek')
  rw [h.keys e he e' he' heq]

section Steps

variable {s : State Obj Val}

theorem mem_of_find {entries : List (Entry Obj Val)} {key : Key Obj} {e : Entry Obj Val}
    (h : find C entries key = some e) : e ∈ entries ∧ Key.equal C e.key key = true :=
  ⟨List.mem_of_find?_eq_some h, by simpa using List.find?_some h⟩

theorem not_equal_of_find {entries : List (Entry Obj Val)} {key : Key Obj}
    (h : find C entries key = none) : ∀ e ∈ entries, Key.equal C e.key key = false := by
  intro e he
  simpa using List.find?_eq_none.mp h e he

/-- What a call returns is the object of an entry. -/
theorem Interned.returns (h : Interned C s) {key : Key Obj} {ans : Val}
    (hans : ∃ e ∈ s.entries, Key.equal C e.key key = true ∧ e.valueWeakref.referent = ans) :
    Interned C { s with returned := (key, ans) :: s.returned } :=
  { h with
    served := by
      intro k v hv hlive
      rcases List.mem_cons.mp hv with heq | hv
      · obtain ⟨rfl, rfl⟩ := Prod.mk.inj heq
        exact hans
      · exact h.served k v hv hlive }

/-- A call that is no longer storing, or that is not storing yet. -/
theorem Interned.setCall (h : Interned C s) {c : ℕ} {call : Call Obj Val}
    (hcall : ∀ e, call ≠ .storing e) :
    Interned C { s with calls := Function.update s.calls c call } := by
  have hstoring : ∀ {c' e}, Function.update s.calls c call c' = .storing e →
      s.calls c' = .storing e := by
    intro c' e hc'
    by_cases heq : c' = c
    · subst heq
      rw [Function.update_self] at hc'
      exact absurd hc' (hcall e)
    · rwa [Function.update_of_ne heq] at hc'
  exact
    { h with
      storing_live := fun c' e hc' => h.storing_live c' e (hstoring hc')
      storing_new := fun c' e hc' => h.storing_new c' e (hstoring hc')
      storing_pending := fun c' e hc' => h.storing_pending c' e (hstoring hc')
      storing_apart := fun c' e hc' c'' e' hc'' =>
        h.storing_apart c' e (hstoring hc') c'' e' (hstoring hc'') }

theorem interned_functionReturns (h : Interned C s) {c addr weakref : ℕ} {key : Key Obj}
    {result : Val} (hlive : result ∉ s.dead) (href : ¬ s.HasRef weakref)
    (hentry : ¬ s.HasEntry addr) :
    Interned C { s with
      calls := Function.update s.calls c (.storing ⟨addr, key, ⟨weakref, result⟩⟩) } := by
  simp only [State.HasRef, State.HasEntry, not_or, not_exists, not_and] at href hentry
  obtain ⟨hentries, hcalls, hpending⟩ := href
  -- a call that is storing is the new one, or was storing before
  have hcases : ∀ {c' e}, Function.update s.calls c (.storing ⟨addr, key, ⟨weakref, result⟩⟩) c' =
      .storing e → c' = c ∧ e = ⟨addr, key, ⟨weakref, result⟩⟩ ∨ c' ≠ c ∧ s.calls c' = .storing e := by
    intro c' e hc'
    by_cases heq : c' = c
    · subst heq
      rw [Function.update_self] at hc'
      exact .inl ⟨rfl, (Call.storing.inj hc').symm⟩
    · rw [Function.update_of_ne heq] at hc'
      exact .inr ⟨heq, hc'⟩
  refine { h with storing_live := ?_, storing_new := ?_, storing_pending := ?_, storing_apart := ?_ }
  · intro c' e hc'
    rcases hcases hc' with ⟨-, rfl⟩ | ⟨-, hc'⟩
    · exact hlive
    · exact h.storing_live c' e hc'
  · intro c' e hc' x hx
    rcases hcases hc' with ⟨-, rfl⟩ | ⟨-, hc'⟩
    · exact ⟨hentries x hx, hentry.1 x hx⟩
    · exact h.storing_new c' e hc' x hx
  · intro c' e hc' w hw
    rcases hcases hc' with ⟨-, rfl⟩ | ⟨-, hc'⟩
    · exact hpending w hw
    · exact h.storing_pending c' e hc' w hw
  · intro c' e hc' c'' e' hc'' hne
    rcases hcases hc' with ⟨rfl, rfl⟩ | ⟨-, hc'⟩
    · rcases hcases hc'' with ⟨rfl, -⟩ | ⟨-, hc''⟩
      · exact absurd rfl hne
      · exact ⟨fun heq => hcalls c'' e' hc'' heq.symm, fun heq => hentry.2 c'' e' hc'' heq.symm⟩
    · rcases hcases hc'' with ⟨-, rfl⟩ | ⟨-, hc''⟩
      · exact ⟨hcalls c' e hc', hentry.2 c' e hc'⟩
      · exact h.storing_apart c' e hc' c'' e' hc'' hne

/-- The addresses of the entries tell them apart. -/
theorem Interned.addr_inj (h : Interned C s) {a b : Entry Obj Val} (ha : a ∈ s.entries)
    (hb : b ∈ s.entries) (heq : a.addr = b.addr) : a = b :=
  List.inj_on_of_nodup_map h.addrs ha hb heq

/-! ## Storing -/

theorem mem_eraseRef {r : List (ℕ × ℕ)} {w w' a : ℕ} :
    (w, a) ∈ eraseRef r w' ↔ (w, a) ∈ r ∧ w ≠ w' := by
  rw [eraseRef, List.mem_filter]
  simp

theorem mem_setRef {r : List (ℕ × ℕ)} {w a w' a' : ℕ} :
    (w, a) ∈ setRef r w' a' ↔ w = w' ∧ a = a' ∨ (w, a) ∈ r ∧ w ≠ w' := by
  rw [setRef, List.mem_cons, mem_eraseRef, Prod.mk.injEq]

/-- The entries after one of them got another weakref. -/
theorem Interned.mem_update (h : Interned C s) {e : Entry Obj Val} (he : e ∈ s.entries)
    (w : WeakRef Val) {x : Entry Obj Val} :
    x ∈ (s.entries.map fun e' => if e'.addr = e.addr then { e' with valueWeakref := w } else e') ↔
      x ∈ s.entries ∧ x.addr ≠ e.addr ∨ x = { e with valueWeakref := w } := by
  rw [List.mem_map]
  constructor
  · rintro ⟨y, hy, rfl⟩
    by_cases haddr : y.addr = e.addr
    · rw [if_pos haddr, h.addr_inj hy he haddr]
      exact .inr rfl
    · rw [if_neg haddr]
      exact .inl ⟨hy, haddr⟩
  · rintro (⟨hx, haddr⟩ | rfl)
    · exact ⟨x, hx, if_neg haddr⟩
    · exact ⟨e, he, if_pos rfl⟩

/-- A call that stores a new entry. -/
theorem interned_insert (hC : C.Laws) (h : Interned C s) {new : Entry Obj Val}
    (hlive : new.valueWeakref.referent ∉ s.dead)
    (hnew : ∀ x ∈ s.entries, x.valueWeakref.addr ≠ new.valueWeakref.addr ∧ x.addr ≠ new.addr)
    (hpending : ∀ w ∈ s.pending, w.addr ≠ new.valueWeakref.addr)
    (hapart : ∀ c e, s.calls c = .storing e →
      e.valueWeakref.addr ≠ new.valueWeakref.addr ∧ e.addr ≠ new.addr)
    (hkey : ∀ e ∈ s.entries, Key.equal C e.key new.key = false) :
    Interned C { s with
      entries := new :: s.entries
      reverseIndex := setRef s.reverseIndex new.valueWeakref.addr new.addr } := by
  refine { h with
    keys := ?_, addrs := ?_, refs := ?_, reverse := ?_, storing_new := ?_, pending_ref := ?_,
    served := ?_ }
  · intro a ha b hb heq
    rcases List.mem_cons.mp ha with rfl | hmem
    · rcases List.mem_cons.mp hb with rfl | hb
      · rfl
      · have := Key.equal_symm hC heq
        rw [hkey b hb] at this
        exact absurd this (by simp)
    · rcases List.mem_cons.mp hb with rfl | hb
      · have hne := hkey a hmem
        rw [heq] at hne
        exact absurd hne (by simp)
      · exact h.keys a hmem b hb heq
  · rw [List.map_cons, List.nodup_cons]
    refine ⟨fun hmem => ?_, h.addrs⟩
    obtain ⟨x, hx, heq⟩ := List.mem_map.mp hmem
    exact (hnew x hx).2 heq
  · intro a ha b hb heq
    rcases List.mem_cons.mp ha with rfl | hmem
    · rcases List.mem_cons.mp hb with rfl | hb
      · rfl
      · exact absurd heq.symm (hnew b hb).1
    · rcases List.mem_cons.mp hb with rfl | hb
      · exact absurd heq (hnew a hmem).1
      · exact h.refs a hmem b hb heq
  · intro w a
    rw [mem_setRef, h.reverse]
    constructor
    · rintro (⟨rfl, rfl⟩ | ⟨⟨e, he, rfl, rfl⟩, -⟩)
      · exact ⟨new, List.mem_cons_self, rfl, rfl⟩
      · exact ⟨e, List.mem_cons_of_mem new he, rfl, rfl⟩
    · rintro ⟨e, he, rfl, rfl⟩
      rcases List.mem_cons.mp he with rfl | he
      · exact .inl ⟨rfl, rfl⟩
      · exact .inr ⟨⟨e, he, rfl, rfl⟩, (hnew e he).1⟩
  · intro c e hc x hx
    rcases List.mem_cons.mp hx with rfl | hx
    · exact ⟨(hapart c e hc).1.symm, (hapart c e hc).2.symm⟩
    · exact h.storing_new c e hc x hx
  · intro w hw e he haddr
    rcases List.mem_cons.mp he with rfl | he
    · exact absurd haddr.symm (hpending w hw)
    · exact h.pending_ref w hw e he haddr
  · intro k v hv hlive
    obtain ⟨e, he, hek⟩ := h.served k v hv hlive
    exact ⟨e, List.mem_cons_of_mem new he, hek⟩

/-- A call that gives its weakref to an entry whose value is dead. -/
theorem interned_update (h : Interned C s) {e : Entry Obj Val} {w : WeakRef Val}
    (he : e ∈ s.entries) (hdead : e.valueWeakref.referent ∈ s.dead)
    (hnew : ∀ x ∈ s.entries, x.valueWeakref.addr ≠ w.addr)
    (hpending : ∀ w' ∈ s.pending, w'.addr ≠ w.addr)
    (hapart : ∀ c e', s.calls c = .storing e' → e'.valueWeakref.addr ≠ w.addr) :
    Interned C { s with
      entries := s.entries.map fun e' =>
        if e'.addr = e.addr then { e' with valueWeakref := w } else e'
      reverseIndex := setRef (eraseRef s.reverseIndex e.valueWeakref.addr) w.addr e.addr } := by
  refine { h with
    keys := ?_, addrs := ?_, refs := ?_, reverse := ?_, storing_new := ?_, pending_ref := ?_,
    served := ?_ }
  · intro a ha b hb heq
    rcases (h.mem_update he w).mp ha with ⟨ha, hae⟩ | rfl
    · rcases (h.mem_update he w).mp hb with ⟨hb, -⟩ | rfl
      · exact h.keys a ha b hb heq
      · exact absurd (congrArg Entry.addr (h.keys a ha e he heq)) hae
    · rcases (h.mem_update he w).mp hb with ⟨hb, hbe⟩ | rfl
      · exact absurd (congrArg Entry.addr (h.keys e he b hb heq)).symm hbe
      · rfl
  · have hmap : (s.entries.map fun e' =>
        if e'.addr = e.addr then { e' with valueWeakref := w } else e').map Entry.addr =
          s.entries.map Entry.addr := by
      rw [List.map_map]
      refine List.map_congr_left fun x _ => ?_
      dsimp only [Function.comp]
      split <;> rfl
    rw [hmap]
    exact h.addrs
  · intro a ha b hb heq
    rcases (h.mem_update he w).mp ha with ⟨ha, -⟩ | rfl
    · rcases (h.mem_update he w).mp hb with ⟨hb, -⟩ | rfl
      · exact h.refs a ha b hb heq
      · exact absurd heq (hnew a ha)
    · rcases (h.mem_update he w).mp hb with ⟨hb, -⟩ | rfl
      · exact absurd heq.symm (hnew b hb)
      · rfl
  · intro w' a
    rw [mem_setRef, mem_eraseRef, h.reverse]
    constructor
    · rintro (⟨rfl, rfl⟩ | ⟨⟨⟨x, hx, rfl, rfl⟩, hne⟩, -⟩)
      · exact ⟨_, (h.mem_update he w).mpr (.inr rfl), rfl, rfl⟩
      · refine ⟨x, (h.mem_update he w).mpr (.inl ⟨hx, fun haddr => hne ?_⟩), rfl, rfl⟩
        rw [h.addr_inj hx he haddr]
    · rintro ⟨x, hx, rfl, rfl⟩
      rcases (h.mem_update he w).mp hx with ⟨hx, hxe⟩ | rfl
      · refine .inr ⟨⟨⟨x, hx, rfl, rfl⟩, fun haddr => hxe ?_⟩, hnew x hx⟩
        rw [h.refs x hx e he haddr]
      · exact .inl ⟨rfl, rfl⟩
  · intro c e' hc x hx
    rcases (h.mem_update he w).mp hx with ⟨hx, -⟩ | rfl
    · exact h.storing_new c e' hc x hx
    · exact ⟨(hapart c e' hc).symm, (h.storing_new c e' hc e he).2⟩
  · intro w' hw' x hx haddr
    rcases (h.mem_update he w).mp hx with ⟨hx, -⟩ | rfl
    · exact h.pending_ref w' hw' x hx haddr
    · exact absurd haddr.symm (hpending w' hw')
  · intro k v hv hlive
    obtain ⟨x, hx, hxk, rfl⟩ := h.served k v hv hlive
    -- the entry of a living object has not been changed
    refine ⟨x, (h.mem_update he w).mpr (.inl ⟨hx, fun haddr => hlive ?_⟩), hxk, rfl⟩
    rwa [h.addr_inj hx he haddr]

variable [DecidableEq Val]

theorem deref_eq_some {dead : List Val} {w : WeakRef Val} {v : Val} :
    deref dead w = some v ↔ w.referent ∉ dead ∧ w.referent = v := by
  unfold deref
  split
  · simp [*]
  · simp [*]

theorem deref_eq_none {dead : List Val} {w : WeakRef Val} :
    deref dead w = none ↔ w.referent ∈ dead := by
  unfold deref
  split
  · simp [*]
  · simp [*]

theorem interned_hit (h : Interned C s) {key : Key Obj} {ans : Val}
    (hlookup : lookup C s key = some ans) :
    Interned C { s with returned := (key, ans) :: s.returned } := by
  refine h.returns ?_
  unfold lookup at hlookup
  split at hlookup
  · rename_i e he
    obtain ⟨hmem, hkey⟩ := mem_of_find he
    exact ⟨e, hmem, hkey, (deref_eq_some.mp hlookup).2⟩
  · exact absurd hlookup (by simp)

theorem interned_dies (h : Interned C s) {v : Val}
    (hheld : ∀ c e, s.calls c = .storing e → e.valueWeakref.referent ≠ v) :
    Interned C { s with
      dead := v :: s.dead
      pending := (s.entries.map Entry.valueWeakref).filter (·.referent = v) ++ s.pending } := by
  -- a weakref whose callback is due now is that of an entry
  have hcases : ∀ {w}, w ∈ (s.entries.map Entry.valueWeakref).filter (·.referent = v) ++ s.pending →
      (∃ e ∈ s.entries, e.valueWeakref = w ∧ w.referent = v) ∨ w ∈ s.pending := by
    intro w hw
    rcases List.mem_append.mp hw with hw | hw
    · obtain ⟨hw, hv⟩ := List.mem_filter.mp hw
      obtain ⟨e, he, rfl⟩ := List.mem_map.mp hw
      exact .inl ⟨e, he, rfl, by simpa using hv⟩
    · exact .inr hw
  refine { h with
    storing_live := ?_, storing_pending := ?_, pending_dead := ?_, pending_ref := ?_, served := ?_ }
  · intro c e hc hdead
    rcases List.mem_cons.mp hdead with heq | hdead
    · exact hheld c e hc heq
    · exact h.storing_live c e hc hdead
  · intro c e hc w hw
    rcases hcases hw with ⟨x, hx, rfl, -⟩ | hw
    · exact (h.storing_new c e hc x hx).1
    · exact h.storing_pending c e hc w hw
  · intro w hw
    rcases hcases hw with ⟨x, hx, rfl, hv⟩ | hw
    · exact hv ▸ List.mem_cons_self
    · exact List.mem_cons_of_mem v (h.pending_dead w hw)
  · intro w hw e he haddr
    rcases hcases hw with ⟨x, hx, rfl, -⟩ | hw
    · rw [h.refs e he x hx haddr]
    · exact h.pending_ref w hw e he haddr
  · intro k u hu hlive
    exact h.served k u hu fun hdead => hlive (List.mem_cons_of_mem v hdead)

/-- **A call stores its entry**, or drops it for that of another call. -/
theorem interned_store (hC : C.Laws) (h : Interned C s) {c : ℕ} {new : Entry Obj Val}
    (hc : s.calls c = .storing new) :
    Interned C { (store C s new).1 with
      calls := Function.update s.calls c .idle
      returned := (new.key, (store C s new).2) :: s.returned } := by
  have hlive := h.storing_live c new hc
  have hnew := h.storing_new c new hc
  have hpending := h.storing_pending c new hc
  have h' : Interned C { s with calls := Function.update s.calls c .idle } := h.setCall (by simp)
  have hapart : ∀ c' e, Function.update s.calls c .idle c' = .storing e →
      e.valueWeakref.addr ≠ new.valueWeakref.addr ∧ e.addr ≠ new.addr := by
    intro c' e hc'
    by_cases heq : c' = c
    · subst heq
      rw [Function.update_self] at hc'
      exact absurd hc' (by simp)
    · rw [Function.update_of_ne heq] at hc'
      exact h.storing_apart c' e hc' c new hc heq
  unfold store
  cases hfind : find C s.entries new.key with
  | none =>
      have hins := interned_insert hC h' hlive hnew hpending hapart (not_equal_of_find hfind)
      exact hins.returns ⟨new, List.mem_cons_self,
        Key.equal_of_pointerEqual hC (Key.pointerEqual_refl hC new.key), rfl⟩
  | some e =>
      obtain ⟨he, hkey⟩ := mem_of_find hfind
      cases hderef : deref s.dead e.valueWeakref with
      | some ans =>
          simp only [hderef]
          exact h'.returns ⟨e, he, hkey, (deref_eq_some.mp hderef).2⟩
      | none =>
          simp only [hderef]
          have hupd := interned_update h' he (deref_eq_none.mp hderef) (fun x hx => (hnew x hx).1)
            hpending fun c' e' hc' => (hapart c' e' hc').1
          exact hupd.returns ⟨_, (h.mem_update he _).mpr (.inr rfl), hkey, rfl⟩

/-! ## Callbacks -/

omit [DecidableEq Val] in
/-- An entry whose value is dead goes. -/
theorem interned_remove (h : Interned C s) {e : Entry Obj Val} {l₁ l₂ : List (Entry Obj Val)}
    (hsplit : s.entries = l₁ ++ e :: l₂) (hdead : e.valueWeakref.referent ∈ s.dead) :
    Interned C { s with
      entries := l₁ ++ l₂
      reverseIndex := eraseRef s.reverseIndex e.valueWeakref.addr } := by
  have haddrs := h.addrs
  rw [hsplit, List.map_append, List.map_cons, List.nodup_middle, List.nodup_cons,
    ← List.map_append] at haddrs
  have he : e ∈ s.entries := by simp [hsplit]
  have hmem : ∀ {x}, x ∈ l₁ ++ l₂ ↔ x ∈ s.entries ∧ x ≠ e := by
    intro x
    rw [hsplit]
    constructor
    · intro hx
      refine ⟨by simpa using Or.imp_right Or.inr (List.mem_append.mp hx), ?_⟩
      rintro rfl
      exact haddrs.1 (List.mem_map_of_mem hx)
    · rintro ⟨hx, hne⟩
      simpa [hne] using hx
  refine { h with
    keys := fun a ha b hb => h.keys a (hmem.mp ha).1 b (hmem.mp hb).1
    addrs := haddrs.2
    refs := fun a ha b hb => h.refs a (hmem.mp ha).1 b (hmem.mp hb).1
    reverse := ?_
    storing_new := fun c x hc y hy => h.storing_new c x hc y (hmem.mp hy).1
    pending_ref := fun w hw x hx => h.pending_ref w hw x (hmem.mp hx).1
    served := ?_ }
  · intro w a
    rw [mem_eraseRef, h.reverse]
    constructor
    · rintro ⟨⟨x, hx, rfl, rfl⟩, hne⟩
      refine ⟨x, hmem.mpr ⟨hx, ?_⟩, rfl, rfl⟩
      rintro rfl
      exact hne rfl
    · rintro ⟨x, hx, rfl, rfl⟩
      obtain ⟨hx, hne⟩ := hmem.mp hx
      exact ⟨⟨x, hx, rfl, rfl⟩, fun haddr => hne (h.refs x hx e he haddr)⟩
  · intro k v hv hlive
    obtain ⟨x, hx, hxk, rfl⟩ := h.served k v hv hlive
    refine ⟨x, hmem.mpr ⟨hx, ?_⟩, hxk, rfl⟩
    rintro rfl
    exact hlive hdead

omit [DecidableEq Val] in
/-- A callback removes the entry that has its weakref, if there is one. -/
theorem onWeakrefDestroyed_cases (hC : C.Laws) (h : Interned C s) (weakref : ℕ) :
    onWeakrefDestroyed C s weakref = s ∨
      ∃ e l₁ l₂, s.entries = l₁ ++ e :: l₂ ∧ e.valueWeakref.addr = weakref ∧
        onWeakrefDestroyed C s weakref =
          { s with
            entries := l₁ ++ l₂
            reverseIndex := eraseRef s.reverseIndex weakref } := by
  unfold onWeakrefDestroyed
  cases hfind : s.reverseIndex.find? fun p => p.1 = weakref with
  | none => exact .inl rfl
  | some p =>
      obtain ⟨w, addr⟩ := p
      obtain rfl : w = weakref := by simpa using List.find?_some hfind
      obtain ⟨e, he, hew, hea⟩ := (h.reverse w addr).mp (List.mem_of_find?_eq_some hfind)
      have hentry : (s.entries.find? fun x => x.addr = addr) = some e := by
        cases hx : s.entries.find? fun x => x.addr = addr with
        | none =>
            have := List.find?_eq_none.mp hx e he
            simp [hea] at this
        | some x =>
            have hxa : x.addr = addr := by simpa using List.find?_some hx
            rw [h.addr_inj (List.mem_of_find?_eq_some hx) he (hxa.trans hea.symm)]
      -- of all entries only `e` has the key of `e`
      obtain ⟨x, l₁, l₂, -, hx, hsplit, herase⟩ := List.exists_of_eraseP he
        (p := fun x => Key.pointerEqual C x.key e.key) (Key.pointerEqual_refl hC e.key)
      obtain rfl : x = e :=
        h.keys x (by simp [hsplit]) e he (Key.equal_of_pointerEqual hC hx)
      refine .inr ⟨x, l₁, l₂, hsplit, hew, ?_⟩
      simp only [hentry, herase]

omit [DecidableEq Val] in
/-- Callbacks that are no longer due. -/
theorem Interned.pending_subset (h : Interned C s) {pending : List (WeakRef Val)}
    (hsub : ∀ w ∈ pending, w ∈ s.pending) : Interned C { s with pending } :=
  { h with
    storing_pending := fun c e hc w hw => h.storing_pending c e hc w (hsub w hw)
    pending_dead := fun w hw => h.pending_dead w (hsub w hw)
    pending_ref := fun w hw => h.pending_ref w (hsub w hw) }

theorem interned_callback (hC : C.Laws) (h : Interned C s) {w : WeakRef Val} (hw : w ∈ s.pending) :
    Interned C { onWeakrefDestroyed C s w.addr with pending := s.pending.erase w } := by
  have hsub : ∀ w' ∈ s.pending.erase w, w' ∈ s.pending := fun w' => List.mem_of_mem_erase
  rcases onWeakrefDestroyed_cases hC h w.addr with heq | ⟨e, l₁, l₂, hsplit, hew, heq⟩
  · rw [heq]
    exact h.pending_subset hsub
  · have hdead : e.valueWeakref.referent ∈ s.dead := by
      rw [h.pending_ref w hw e (by simp [hsplit]) hew]
      exact h.pending_dead w hw
    rw [heq, ← hew]
    exact (interned_remove h hsplit hdead).pending_subset hsub

/-! ## Runs -/

/-- **Every step keeps the invariant.** -/
theorem interned_step (hC : C.Laws) {s' : State Obj Val} (h : Interned C s) (hstep : Step C s s') :
    Interned C s' := by
  cases hstep with
  | hit _ hlookup => exact interned_hit h hlookup
  | miss _ _ => exact h.setCall (by simp)
  | functionReturns _ hlive href hentry => exact interned_functionReturns h hlive href hentry
  | fails => exact h.setCall (by simp)
  | store hc => exact interned_store hC h hc
  | dies _ hheld => exact interned_dies h hheld
  | callback hw => exact interned_callback hC h hw

theorem interned_reachable (hC : C.Laws) (h : Reachable C s) : Interned C s := by
  induction h with
  | init => exact interned_init
  | step _ hstep ih => exact interned_step hC ih hstep

/--
**One live object for each key.** In every state of every run, two objects that were
returned for equal keys and both live are the same object; `reverse_index_` maps the weakrefs
of the entries, and nothing else, to their entries; and a callback that runs late removes
no entry but one that still has the weakref it was made for.
-/
theorem oneLiveObject_reachable (hC : C.Laws) (h : Reachable C s) :
    (∀ k v k' v', (k, v) ∈ s.returned → (k', v') ∈ s.returned → Key.equal C k k' = true →
      v ∉ s.dead → v' ∉ s.dead → v = v') ∧
    (∀ w a, (w, a) ∈ s.reverseIndex ↔ ∃ e ∈ s.entries, e.valueWeakref.addr = w ∧ e.addr = a) ∧
    (∀ w ∈ s.pending, ∀ e ∈ s.entries, e ∉ (onWeakrefDestroyed C s w.addr).entries →
      e.valueWeakref = w) := by
  have hs := interned_reachable hC h
  refine ⟨fun k v k' v' hv hv' hk hlive hlive' => hs.unique hC hv hv' hk hlive hlive', hs.reverse,
    fun w hw e he hgone => ?_⟩
  rcases onWeakrefDestroyed_cases hC hs w.addr with heq | ⟨x, l₁, l₂, hsplit, hxw, heq⟩
  · rw [heq] at hgone
    exact absurd he hgone
  · rw [heq] at hgone
    obtain rfl : e = x := by
      rw [hsplit] at he
      simp only [List.mem_append, List.mem_cons] at he hgone
      tauto
    exact hs.pending_ref w hw e he hxw

end Steps

/-! ## A race -/

/-- Numbers, whose identity is equality. -/
def numbers : Comparison ℕ := ⟨fun a b => a == b, fun a b => a == b⟩

theorem numbers_laws : numbers.Laws where
  is_refl a := beq_self_eq_true a
  equal_of_is h := h
  equal_symm h := by
    simp only [numbers, beq_iff_eq] at h ⊢
    exact h.symm
  equal_trans h h' := by
    simp only [numbers, beq_iff_eq] at h h' ⊢
    exact h.trans h'

/-- Two calls miss on one key and both call the function; both return the first object stored. -/
theorem race_reachable : ∃ s : State ℕ ℕ, Reachable numbers s ∧
    s.returned = [(⟨[], [7]⟩, 0), (⟨[], [7]⟩, 0)] ∧ s.dead = [] := by
  have hmiss := Reachable.init.step (@Step.miss ℕ ℕ _ numbers State.init 0 ⟨[], [7]⟩ rfl rfl)
  have hmiss' := hmiss.step (@Step.miss _ _ _ _ _ 1 ⟨[], [7]⟩ rfl rfl)
  refine ⟨_, (((hmiss'.step (@Step.functionReturns _ _ _ _ _ 0 0 0 ⟨[], [7]⟩ 0 rfl ?_ ?_ ?_)).step
    (@Step.functionReturns _ _ _ _ _ 1 1 1 ⟨[], [7]⟩ 1 rfl ?_ ?_ ?_)).step
    (@Step.store _ _ _ _ _ 0 ⟨0, ⟨[], [7]⟩, ⟨0, 0⟩⟩ rfl)).step
    (@Step.store _ _ _ _ _ 1 ⟨1, ⟨[], [7]⟩, ⟨1, 1⟩⟩ rfl), rfl, rfl⟩
  · simp [State.init]
  · simp only [State.HasRef, State.init, Function.update_apply]
    grind
  · simp only [State.HasEntry, State.init, Function.update_apply]
    grind
  · simp [State.init]
  · simp only [State.HasRef, State.init, Function.update_apply]
    grind
  · simp only [State.HasEntry, State.init, Function.update_apply]
    grind

/-- What the race comes to. -/
theorem oneLiveObject_race : ∃ s : State ℕ ℕ, Reachable numbers s ∧
    s.returned = [(⟨[], [7]⟩, 0), (⟨[], [7]⟩, 0)] ∧
    (∀ k v k' v', (k, v) ∈ s.returned → (k', v') ∈ s.returned →
      Key.equal numbers k k' = true → v ∉ s.dead → v' ∉ s.dead → v = v') ∧
    (∀ w a, (w, a) ∈ s.reverseIndex ↔ ∃ e ∈ s.entries, e.valueWeakref.addr = w ∧ e.addr = a) ∧
    (∀ w ∈ s.pending, ∀ e ∈ s.entries, e ∉ (onWeakrefDestroyed numbers s w.addr).entries →
      e.valueWeakref = w) := by
  obtain ⟨s, hs, hreturned, -⟩ := race_reachable
  exact ⟨s, hs, hreturned, oneLiveObject_reachable numbers_laws hs⟩

end JaxDas.Interner
