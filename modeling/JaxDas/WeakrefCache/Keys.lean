import Mathlib.Data.List.Perm.Basic
import JaxDas.Lib.Fallible

/-!
# The keys of the weakref caches

An entry is found in two steps: by the objects that the cache holds weakly, and by
everything else about the call. The comparisons of both keys end in comparisons of
Python objects, which belong to the program; `Interp` collects them, and `PyLaws`
says what the language asks of them.

`pointerEqual` is the comparison by identity that the cache uses to find an entry
again without running any Python code.
-/

namespace JaxDas.WeakrefCache

/--
What the cache asks of its surroundings. `Def` are the tree definitions that
`MultiWeakrefLRUCache` puts into its keys.
-/
structure Interp (Obj Def : Type) where
  /-- `a is b`. -/
  is : Obj → Obj → Bool
  /-- `a is b or a == b`, as `PyObject_RichCompareBool` has it. -/
  eq : Obj → Obj → Bool
  hash : Obj → ℕ
  /-- `PyTreeDef::operator==`. -/
  defEq : Def → Def → Bool
  /-- `absl::HashOf` of a weak key, from the hashes of its objects. -/
  hashWeak : List ℕ → ℕ
  /-- `absl::HashOf` of a strong key, from the hashes of its objects. -/
  hashStrong : ℕ → List String → List ℕ → Option Def → ℕ
  /--
  A lookup with the second hash, in a table whose slots have the hashes of the list,
  comes by a slot with the third. A lookup does not compare whole hashes.
  -/
  reaches : List ℕ → ℕ → ℕ → Bool
  /-- The order in which a `flat_hash_set` is gone through. -/
  order : List ℕ → List ℕ

/-- A `weakref.ref` with the callback of the cache, and the object it was made for. -/
structure WeakRef (Obj : Type) where
  id : ℕ
  referent : Obj

/-- `WeakKey`. -/
abbrev WeakKey (Obj : Type) := List (WeakRef Obj)

/-- The weakrefs of a key, by identity. -/
abbrev WeakKey.ids {Obj : Type} (k : WeakKey Obj) : List ℕ := k.map fun r : WeakRef Obj => r.id

/-- `StrongKey`. Names are interned, so that equal names are the same object. -/
structure StrongKey (Obj Def : Type) where
  context : Obj
  kwnames : List String
  args : List Obj
  treedef : Option Def

variable {Obj Def : Type}

section Comparisons

variable (I : Interp Obj Def)

/-- `WeakKey::cached_hash`. -/
def WeakKey.hash (k : WeakKey Obj) : ℕ := I.hashWeak (k.map fun r => I.hash r.referent)

/-- `StrongKey::cached_hash_`. -/
def StrongKey.hash (k : StrongKey Obj Def) : ℕ :=
  I.hashStrong (I.hash k.context) k.kwnames (k.args.map I.hash) k.treedef

/-- `a == b` for weakrefs: a cleared one equals nothing but itself. -/
def WeakRef.equal (cleared : ℕ → Bool) (a b : WeakRef Obj) : Bool :=
  a.id == b.id || (!cleared a.id && !cleared b.id && I.eq a.referent b.referent)

/-- Compare two lists, element by element. -/
def listsEqual {β γ : Type} (r : β → γ → Bool) : List β → List γ → Bool
  | [], [] => true
  | a :: as, b :: bs => r a b && listsEqual r as bs
  | _, _ => false

/-- `WeakKey::SafeEqual` of two weak keys. -/
def WeakKey.equal (cleared : ℕ → Bool) (a b : WeakKey Obj) : Bool :=
  listsEqual (WeakRef.equal I cleared) a b

/-- `WeakKey::SafeEqual` of a weak key and a `PointerWeakKey`. -/
def WeakKey.pointerEqual (a b : WeakKey Obj) : Bool :=
  listsEqual (fun r r' : WeakRef Obj => r.id == r'.id) a b

/-- `treedef` is compared only when both sides have one. -/
def treedefsEqual : Option Def → Option Def → Bool
  | none, none => true
  | some d, some e => I.defEq d e
  | _, _ => false

/-- `StrongKey::SafeEqual` of a strong key and a `StrongKeyView`. -/
def StrongKey.equal (a b : StrongKey Obj Def) : Bool :=
  treedefsEqual I a.treedef b.treedef && I.eq a.context b.context && a.kwnames == b.kwnames &&
    listsEqual I.eq a.args b.args

/-- `StrongKey::SafeEqual` of a strong key and a `PointerStrongKey`. -/
def StrongKey.pointerEqual (a b : StrongKey Obj Def) : Bool :=
  treedefsEqual I a.treedef b.treedef && I.is a.context b.context && a.kwnames == b.kwnames &&
    listsEqual I.is a.args b.args

end Comparisons

/-! ## What the language promises -/

/-- Identity implies equality, equality is an equivalence, and equal objects have equal hashes. -/
structure Interp.PyLaws (I : Interp Obj Def) : Prop where
  is_refl : ∀ a, I.is a a = true
  eq_of_is : ∀ {a b}, I.is a b = true → I.eq a b = true
  eq_symm : ∀ {a b}, I.eq a b = true → I.eq b a = true
  eq_trans : ∀ {a b c}, I.eq a b = true → I.eq b c = true → I.eq a c = true
  hash_eq : ∀ {a b}, I.eq a b = true → I.hash a = I.hash b
  /-- A lookup comes by every slot that has the same hash. -/
  reaches_self : ∀ hs h, I.reaches hs h h = true
  order_perm : ∀ l, (I.order l).Perm l

/-- The comparison of tree definitions is reflexive and symmetric, and respects hashes. -/
structure Interp.DefLaws (I : Interp Obj Def) : Prop where
  defEq_refl : ∀ d, I.defEq d d = true
  defEq_symm : ∀ {d e}, I.defEq d e = true → I.defEq e d = true
  hash_eq : ∀ {d e}, I.defEq d e = true → ∀ c ns as,
    I.hashStrong c ns as (some d) = I.hashStrong c ns as (some e)

theorem listsEqual_iff {β γ : Type} {r : β → γ → Bool} : ∀ {as : List β} {bs : List γ},
    listsEqual r as bs = true ↔ List.Forall₂ (fun a b => r a b = true) as bs
  | [], [] => by simp [listsEqual]
  | [], _ :: _ => by simp [listsEqual]
  | _ :: _, [] => by simp [listsEqual]
  | a :: as, b :: bs => by
      rw [listsEqual, Bool.and_eq_true, listsEqual_iff, List.forall₂_cons]

theorem WeakKey.pointerEqual_iff {a b : WeakKey Obj} :
    WeakKey.pointerEqual a b = true ↔ WeakKey.ids a = WeakKey.ids b := by
  rw [WeakKey.pointerEqual, listsEqual_iff, ← List.forall₂_eq_eq_eq, List.forall₂_map_left_iff,
    List.forall₂_map_right_iff]
  simp

/-- The parts of a comparison of strong keys. -/
theorem StrongKey.equal_iff {I : Interp Obj Def} {a b : StrongKey Obj Def} :
    StrongKey.equal I a b = true ↔ treedefsEqual I a.treedef b.treedef = true ∧
      I.eq a.context b.context = true ∧ a.kwnames = b.kwnames ∧
      List.Forall₂ (fun x y => I.eq x y = true) a.args b.args := by
  rw [StrongKey.equal, Bool.and_eq_true, Bool.and_eq_true, Bool.and_eq_true, listsEqual_iff,
    beq_iff_eq, and_assoc, and_assoc]

theorem StrongKey.pointerEqual_iff {I : Interp Obj Def} {a b : StrongKey Obj Def} :
    StrongKey.pointerEqual I a b = true ↔ treedefsEqual I a.treedef b.treedef = true ∧
      I.is a.context b.context = true ∧ a.kwnames = b.kwnames ∧
      List.Forall₂ (fun x y => I.is x y = true) a.args b.args := by
  rw [StrongKey.pointerEqual, Bool.and_eq_true, Bool.and_eq_true, Bool.and_eq_true, listsEqual_iff,
    beq_iff_eq, and_assoc, and_assoc]

section Laws

variable {I : Interp Obj Def} (hI : I.PyLaws) (hD : I.DefLaws)

include hI hD

theorem StrongKey.pointerEqual_refl (k : StrongKey Obj Def) :
    StrongKey.pointerEqual I k k = true := by
  refine StrongKey.pointerEqual_iff.mpr ⟨?_, hI.is_refl _, rfl, ?_⟩
  · cases k.treedef with
    | none => rfl
    | some d => exact hD.defEq_refl d
  · exact List.forall₂_same.mpr fun x _ => hI.is_refl x

omit hD in
/-- Keys made of the same objects are equal. -/
theorem StrongKey.equal_of_pointerEqual {a b : StrongKey Obj Def}
    (h : StrongKey.pointerEqual I a b = true) : StrongKey.equal I a b = true := by
  obtain ⟨hd, hc, hn, ha⟩ := StrongKey.pointerEqual_iff.mp h
  exact StrongKey.equal_iff.mpr ⟨hd, hI.eq_of_is hc, hn, ha.imp fun _ _ h => hI.eq_of_is h⟩

theorem StrongKey.equal_symm {a b : StrongKey Obj Def} (h : StrongKey.equal I a b = true) :
    StrongKey.equal I b a = true := by
  obtain ⟨hd, hc, hn, ha⟩ := StrongKey.equal_iff.mp h
  refine StrongKey.equal_iff.mpr ⟨?_, hI.eq_symm hc, hn.symm, ha.flip.imp fun _ _ h => hI.eq_symm h⟩
  revert hd
  cases a.treedef with
  | none => cases b.treedef <;> simp [treedefsEqual]
  | some d =>
      cases b.treedef with
      | none => simp [treedefsEqual]
      | some e => exact hD.defEq_symm

/-- Equal keys have equal hashes. -/
theorem StrongKey.hash_eq {a b : StrongKey Obj Def} (h : StrongKey.equal I a b = true) :
    a.hash I = b.hash I := by
  obtain ⟨hd, hc, hn, ha⟩ := StrongKey.equal_iff.mp h
  have hargs : a.args.map I.hash = b.args.map I.hash := by
    rw [← List.forall₂_eq_eq_eq, List.forall₂_map_left_iff, List.forall₂_map_right_iff]
    exact ha.imp fun _ _ h => hI.hash_eq h
  unfold StrongKey.hash
  rw [hI.hash_eq hc, hn, hargs]
  revert hd
  cases a.treedef with
  | none => cases b.treedef <;> simp [treedefsEqual]
  | some d =>
      cases b.treedef with
      | none => simp [treedefsEqual]
      | some e => exact fun h => hD.hash_eq h _ _ _

end Laws

/-- Equal weak keys have equal hashes, cleared or not, as long as ids are unique. -/
theorem WeakKey.hash_eq {I : Interp Obj Def} (hI : I.PyLaws) {cleared : ℕ → Bool}
    {a b : WeakKey Obj} (hid : ∀ r ∈ a, ∀ r' ∈ b, r.id = r'.id → r.referent = r'.referent)
    (h : WeakKey.equal I cleared a b = true) : WeakKey.hash I a = WeakKey.hash I b := by
  have hall := listsEqual_iff.mp h
  have hmap : a.map (fun r => I.hash r.referent) = b.map fun r => I.hash r.referent := by
    clear h
    induction hall with
    | nil => rfl
    | @cons r r' as bs hr _ ih =>
        rw [List.map_cons, List.map_cons, ih fun x hx y hy =>
          hid x (List.mem_cons_of_mem _ hx) y (List.mem_cons_of_mem _ hy)]
        have hrr : I.hash r.referent = I.hash r'.referent := by
          rw [WeakRef.equal, Bool.or_eq_true, Bool.and_eq_true] at hr
          rcases hr with hr | ⟨_, hr⟩
          · rw [hid r List.mem_cons_self r' List.mem_cons_self (beq_iff_eq.mp hr)]
          · exact hI.hash_eq hr
        rw [hrr]
  rw [WeakKey.hash, WeakKey.hash, hmap]

end JaxDas.WeakrefCache
