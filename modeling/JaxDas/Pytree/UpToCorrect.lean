import JaxDas.Pytree.Equality
import JaxDas.Pytree.RoundTrip
import JaxDas.Pytree.UpTo

/-!
# What `FlattenUpTo` accepts

`upTo` is the recursion of `FlattenUpTo` over the tree of nodes; the loop, with its
agenda and the position of the next leaf, computes it (`flattenUpTo_eq`). An object is
accepted when one of its prunings, the trees one gets by stopping at some of its
subtrees, has the nodes of the definition (`upTo_iff`).

`operator==` has a weaker idea of having the same nodes: it does not compare the types of
dataclasses, `FlattenUpTo` does.
-/

namespace JaxDas.Pytree

open PostOrder Related

variable {α : Type}

section Prunes

variable (py : Runtime α) (reg : PyTreeRegistry α)

mutual

/-- `x` flattens to this tree when the subtrees in the list are replaced by leaves. -/
inductive Prunes : PyObj α → LabelTree (Node α) → List (PyObj α) → Prop where
  | leaf (x : PyObj α) : Prunes x (.node { numLeaves := 1, numNodes := 1 } []) [x]
  | node {x : PyObj α} {n : Node α} {cs : List (PyObj α)} {ts : List (LabelTree (Node α))}
      {ls : List (PyObj α)} :
      expand py reg x = .ok (n, cs) → n.kind ≠ .leaf → PrunesAll cs ts ls →
      Prunes x (.node { n with
        numLeaves := ls.length, numNodes := (postorders ts).length + 1 } ts) ls

/-- The same for the children of a node, one after the other. -/
inductive PrunesAll : List (PyObj α) → List (LabelTree (Node α)) → List (PyObj α) → Prop where
  | nil : PrunesAll [] [] []
  | cons {c : PyObj α} {cs : List (PyObj α)} {t : LabelTree (Node α)}
      {ts : List (LabelTree (Node α))} {l ls : List (PyObj α)} :
      Prunes c t l → PrunesAll cs ts ls → PrunesAll (c :: cs) (t :: ts) (l ++ ls)

end

mutual

/-- The subtrees of `x` at the leaves of the tree. -/
def upTo : LabelTree (Node α) → PyObj α → Except PyErr (List (PyObj α))
  | .node n ts, x =>
      if n.kind = .leaf then .ok [x]
      else do
        let cs ← upToChildren py reg n x
        upToAll ts cs
termination_by structural t => t

/-- The same for a row of trees; the last one comes first, as on the agenda. -/
def upToAll : List (LabelTree (Node α)) → List (PyObj α) → Except PyErr (List (PyObj α))
  | t :: ts, c :: cs => do
      let ls ← upToAll ts cs
      let l ← upTo t c
      .ok (l ++ ls)
  | _, _ => .ok []
termination_by structural ts => ts

end

end Prunes

variable {py : Runtime α} {reg : PyTreeRegistry α}

/-! ## One node -/

/-- The type of a node is known to the registry in the way its kind says. -/
structure NodeKnown (reg : PyTreeRegistry α) (n : Node α) : Prop where
  builtin : ∀ t, n.kind.builtinType = some t → ∃ r, reg.lookup t = some r ∧ r.kind = n.kind
  namedTuple : n.kind = .namedTuple →
    ∃ c, n.nodeData = some (.type (.user c)) ∧ reg.lookup (.user c) = none

/-- `!=` gives the same answer both ways round. -/
def NeSymmetric (py : Runtime α) : Prop := ∀ a b, py.ne a b = .ok false → py.ne b a = .ok false

theorem expand_kind {x : PyObj α} {n : Node α} {cs : List (PyObj α)}
    (h : expand py reg x = .ok (n, cs)) (hk : n.kind ≠ .leaf) :
    ∃ c, reg.kindOfObject x = (n.kind, c) := by
  unfold expand at h
  split at h
  · rename_i c hkind
    injection h with h; injection h with hn _
    exact ⟨c, by rw [hkind, ← hn]⟩
  · rename_i c hkind
    injection h with h; injection h with hn _
    exact ⟨c, by rw [hkind, ← hn]⟩
  · rename_i c hkind
    injection h with h; injection h with hn _
    exact ⟨c, by rw [hkind, ← hn]⟩
  · rename_i c hkind
    obtain ⟨_, _, h⟩ := bind_ok.mp h
    injection h with h; injection h with hn _
    exact ⟨c, by rw [hkind, ← hn]⟩
  · rename_i r hkind
    obtain ⟨_, _, h⟩ := bind_ok.mp h
    injection h with h; injection h with hn _
    exact ⟨some r, by rw [hkind, ← hn]⟩
  · rename_i r hkind
    obtain ⟨_, _, h⟩ := bind_ok.mp h
    obtain ⟨_, _, h⟩ := bind_ok.mp h
    injection h with h; injection h with hn _
    exact ⟨some r, by rw [hkind, ← hn]⟩
  · rename_i c hkind
    injection h with h; injection h with hn _
    exact ⟨c, by rw [hkind, ← hn]⟩
  · injection h with h; injection h with hn _
    exact absurd (by rw [← hn]) hk

/-- The nodes of objects are known to the registry. -/
theorem nodeKnown_of_expand {x : PyObj α} {n : Node α} {cs : List (PyObj α)}
    (h : expand py reg x = .ok (n, cs)) (hk : n.kind ≠ .leaf) : NodeKnown reg n := by
  obtain ⟨c, hkind⟩ := expand_kind h hk
  constructor
  · intro t ht
    exact (kindOfObject_builtin hkind ht).2
  · intro hnt
    rw [hnt] at hkind
    obtain ⟨cls, xs, rfl, hnone⟩ := kindOfObject_namedTuple hkind
    simp only [expand, hkind] at h
    injection h with h; injection h with hn _
    exact ⟨cls, by rw [← hn]; rfl, hnone⟩

theorem NodeKnown.setCounts {n : Node α} (h : NodeKnown reg n) (k m : ℤ) :
    NodeKnown reg { n with numLeaves := k, numNodes := m } := ⟨h.builtin, h.namedTuple⟩

/-- What is left to compare when kinds and arities agree. -/
theorem sameNode_of {m n : Node α} (hm : NodeShape reg m) (hn : NodeShape reg n)
    (hkind : m.kind = n.kind) (harity : m.arity = n.arity)
    (hkeys : n.kind = .dict →
      List.Forall₂ (fun k l => py.ne k l = .ok false) m.sortedDictKeys n.sortedDictKeys)
    (hdata : ∀ x y, m.nodeData = some x → n.nodeData = some y → py.ne x y = .ok false)
    (hcustom : n.kind = .custom ∨ n.kind = .dataclass → m.custom = n.custom) :
    SameNode py m n := by
  have htype : m.containerType = n.containerType := by
    by_cases hc : n.kind = .custom ∨ n.kind = .dataclass
    · unfold Node.containerType
      rw [hkind, hcustom hc]
      rcases hc with hc | hc <;> simp only [hc]
    · push Not at hc
      exact containerType_eq hm hn hkind hdata (hkind ▸ hc.1) (hkind ▸ hc.2)
  refine ⟨⟨hkind, harity, ?_, hdata, fun _ => htype⟩, htype⟩
  by_cases hd : n.kind = .dict
  · exact hkeys hd
  · rw [hm.keys (hkind ▸ hd), hn.keys hd]
    exact .nil

/-- The registration of an object is the one of the node. -/
theorem registrationDiffers_iff {n : Node α} {x : PyObj α} {r : Registration α}
    (hr : n.custom = some r) (hmem : r ∈ reg.registrations) :
    registrationDiffers reg x n = false ↔ reg.lookup x.typeOf = some r := by
  unfold registrationDiffers
  rw [hr]
  cases hl : reg.lookup x.typeOf with
  | none => simp
  | some r' =>
      have hmem' := PyTreeRegistry.lookup_mem hl
      simp only [Option.map_some, ne_eq, Option.some.injEq, decide_not, Bool.not_eq_eq_eq_not,
        Bool.not_false, decide_eq_true_eq]
      constructor
      · intro ht
        exact reg.eq_of_type hmem' hmem ht
      · intro heq
        rw [heq]

/-- **A node accepts an object** only if the object comes apart into the same node. -/
theorem upToChildren_ok (hsymm : NeSymmetric py) {n : Node α} {x : PyObj α} {cs : List (PyObj α)}
    (hn : NodeShape reg n) (hknown : NodeKnown reg n) (hk : n.kind ≠ .leaf)
    (h : upToChildren py reg n x = .ok cs) :
    ∃ m, expand py reg x = .ok (m, cs) ∧ m.kind ≠ .leaf ∧ SameNode py m n := by
  -- The node that `expand` makes of `x`, of the kind of `n`.
  have same : ∀ m, expand py reg x = .ok (m, cs) → m.kind = n.kind → m.arity = n.arity →
      (n.kind = .dict →
        List.Forall₂ (fun k l => py.ne k l = .ok false) m.sortedDictKeys n.sortedDictKeys) →
      (∀ y z, m.nodeData = some y → n.nodeData = some z → py.ne y z = .ok false) →
      (n.kind = .custom ∨ n.kind = .dataclass → m.custom = n.custom) →
      ∃ m, expand py reg x = .ok (m, cs) ∧ m.kind ≠ .leaf ∧ SameNode py m n :=
    fun m hexp hkind harity hkeys hdata hcustom =>
      ⟨m, hexp, hkind ▸ hk, sameNode_of (expand_ok hexp).1 hn hkind harity hkeys hdata hcustom⟩
  unfold upToChildren at h
  cases hkind : n.kind with
  | leaf => exact absurd hkind hk
  | none =>
      simp only [hkind] at h
      rcases ite_ok h with ⟨_, h⟩ | ⟨ht, h⟩
      · cases h
      injection h with h
      subst h
      obtain ⟨r, hr, hrk⟩ := hknown.builtin .noneType (by rw [hkind]; rfl)
      have hobj := kindOfObject_of_lookup ((not_not.mp ht).symm ▸ hr)
      refine same { kind := .none } ?_ hkind.symm (hn.empty (.inr hkind)).symm ?_ ?_ ?_
      · simp only [expand, hobj, hrk, hkind]
      · simp [hkind]
      · simp
      · simp [hkind]
  | tuple =>
      simp only [hkind] at h
      rcases ite_ok h with ⟨_, h⟩ | ⟨ht, h⟩
      · cases h
      rcases ite_ok h with ⟨_, h⟩ | ⟨harity, h⟩
      · cases h
      injection h with h
      subst h
      obtain ⟨r, hr, hrk⟩ := hknown.builtin .tuple (by rw [hkind]; rfl)
      have hobj := kindOfObject_of_lookup ((not_not.mp ht).symm ▸ hr)
      refine same { kind := .tuple, arity := x.tupleItems.length } ?_ hkind.symm
        (not_not.mp harity) ?_ ?_ ?_
      · simp only [expand, hobj, hrk, hkind]
      · simp [hkind]
      · simp
      · simp [hkind]
  | list =>
      simp only [hkind] at h
      rcases ite_ok h with ⟨_, h⟩ | ⟨ht, h⟩
      · cases h
      rcases ite_ok h with ⟨_, h⟩ | ⟨harity, h⟩
      · cases h
      injection h with h
      subst h
      obtain ⟨r, hr, hrk⟩ := hknown.builtin .list (by rw [hkind]; rfl)
      have hobj := kindOfObject_of_lookup ((not_not.mp ht).symm ▸ hr)
      refine same { kind := .list, arity := x.listItems.length } ?_ hkind.symm
        (not_not.mp harity) ?_ ?_ ?_
      · simp only [expand, hobj, hrk, hkind]
      · simp [hkind]
      · simp
      · simp [hkind]
  | dict =>
      simp only [hkind] at h
      rcases ite_ok h with ⟨_, h⟩ | ⟨ht, h⟩
      · cases h
      obtain ⟨items, hitems, h⟩ := bind_ok.mp h
      obtain ⟨keysEqual, hkeys, h⟩ := bind_ok.mp h
      rcases ite_ok h with ⟨rfl, h⟩ | ⟨_, h⟩
      · injection h with h
        subst h
        obtain ⟨r, hr, hrk⟩ := hknown.builtin .dict (by rw [hkind]; rfl)
        have hobj := kindOfObject_of_lookup ((not_not.mp ht).symm ▸ hr)
        have hforall := isSortedPyDictKeysEqual_iff.mp hkeys
        have hlen := hforall.length_eq
        rw [List.length_map, getSortedPyDictItems_length hitems, hn.dict hkind] at hlen
        refine same { kind := .dict, arity := x.dictItems.length,
                      sortedDictKeys := items.map Prod.fst } ?_ hkind.symm ?_ (fun _ => hforall)
          ?_ ?_
        · simp only [expand, hobj, hrk, hkind, hitems, ok_bind]
        · simp only [hlen, Int.toNat_of_nonneg hn.arity]
        · simp
        · simp [hkind]
      · cases h
  | namedTuple =>
      simp only [hkind] at h
      rcases ite_ok h with ⟨_, h⟩ | ⟨hnt, h⟩
      · cases h
      rcases ite_ok h with ⟨_, h⟩ | ⟨harity, h⟩
      · cases h
      obtain ⟨differs, hne, h⟩ := bind_ok.mp h
      rcases ite_ok h with ⟨_, h⟩ | ⟨hdiffers, h⟩
      · cases h
      injection h with h
      subst h
      rw [Bool.eq_false_iff.mpr hdiffers] at hne
      obtain ⟨c, hdata, hnone⟩ := hknown.namedTuple hkind
      have hne' := hne
      rw [hdata, Option.getD_some, py.ne_type] at hne'
      have htype : x.typeOf = .user c := by simpa using hne'
      have hobj : reg.kindOfObject x = (.namedTuple, none) := by
        unfold PyTreeRegistry.kindOfObject
        rw [htype, hnone]
        simp only [Bool.not_eq_true, Bool.not_eq_false'] at hnt
        simp only [hnt, if_true]
      refine same { kind := .namedTuple, arity := x.tupleItems.length,
                    nodeData := some (.type x.typeOf) } ?_ hkind.symm (not_not.mp harity) ?_ ?_ ?_
      · simp only [expand, hobj]
      · simp [hkind]
      · intro y z hy hz
        injection hy with hy
        rw [hdata] at hz
        injection hz with hz
        rw [← hy, ← hz, htype, py.ne_type]
        simp
      · simp [hkind]
  | custom =>
      obtain ⟨r, aux, hr, hmem, hrk, haux⟩ := hn.custom (.inl hkind)
      simp only [hkind, hr] at h
      rcases ite_ok h with ⟨_, h⟩ | ⟨hreg, h⟩
      · cases h
      obtain ⟨⟨leaves, aux'⟩, hto, h⟩ := bind_ok.mp h
      obtain ⟨differs, hne, h⟩ := bind_ok.mp h
      rcases ite_ok h with ⟨_, h⟩ | ⟨hdiffers, h⟩
      · cases h
      rcases ite_ok h with ⟨_, h⟩ | ⟨harity, h⟩
      · cases h
      injection h with h
      subst h
      rw [Bool.eq_false_iff.mpr hdiffers, haux, Option.getD_some] at hne
      have hl := (registrationDiffers_iff hr hmem).mp (Bool.eq_false_iff.mpr hreg)
      have hobj := kindOfObject_of_lookup hl
      rw [hrk, hkind, if_pos (.inl rfl)] at hobj
      refine same { kind := .custom, custom := some r, nodeData := some aux',
                    arity := leaves.length } ?_ hkind.symm (not_not.mp harity) ?_ ?_ ?_
      · simp only [expand, hobj, hto, ok_bind]
      · simp [hkind]
      · intro y z hy hz
        injection hy with hy
        rw [haux] at hz
        injection hz with hz
        rw [← hy, ← hz]
        exact hsymm _ _ hne
      · simp [hr]
  | dataclass =>
      obtain ⟨r, aux, hr, hmem, hrk, haux⟩ := hn.custom (.inr hkind)
      simp only [hkind, hr] at h
      rcases ite_ok h with ⟨_, h⟩ | ⟨hreg, h⟩
      · cases h
      obtain ⟨aux', hmeta, h⟩ := bind_ok.mp h
      obtain ⟨differs, hne, h⟩ := bind_ok.mp h
      rcases ite_ok h with ⟨_, h⟩ | ⟨hdiffers, h⟩
      · cases h
      rcases ite_ok h with ⟨_, h⟩ | ⟨harity, h⟩
      · cases h
      rw [Bool.eq_false_iff.mpr hdiffers, haux, Option.getD_some] at hne
      have hl := (registrationDiffers_iff hr hmem).mp (Bool.eq_false_iff.mpr hreg)
      have hobj := kindOfObject_of_lookup hl
      rw [hrk, hkind, if_pos (.inr rfl)] at hobj
      refine same { kind := .dataclass, custom := some r, nodeData := some (.tuple aux'),
                    arity := r.dataFields.length } ?_ hkind.symm (not_not.mp harity) ?_ ?_ ?_
      · simp only [expand, hobj, hmeta, h, ok_bind]
      · simp [hkind]
      · intro y z hy hz
        injection hy with hy
        rw [haux] at hz
        injection hz with hz
        rw [← hy, ← hz]
        exact hsymm _ _ hne
      · simp [hr]

/-- **A node accepts an object** that comes apart into the same node. -/
theorem upToChildren_of_expand (hsymm : NeSymmetric py) {m n : Node α} {x : PyObj α}
    {cs : List (PyObj α)} (hn : NodeShape reg n) (h : expand py reg x = .ok (m, cs))
    (hk : m.kind ≠ .leaf) (hsame : SameNode py m n) : upToChildren py reg n x = .ok cs := by
  have hm := (expand_ok h).1
  have hcustom := hsame.custom_eq hm hn
  obtain ⟨c, hobj⟩ := expand_kind h hk
  rw [hsame.kind] at hobj
  have hlen : (cs.length : ℤ) = n.arity := by rw [← (expand_ok h).2.1, hsame.arity]
  unfold upToChildren
  cases hkind : n.kind with
  | leaf => exact absurd (hsame.kind.trans hkind) hk
  | none =>
      rw [hkind] at hobj
      simp only [expand, hobj] at h
      injection h with h; injection h with _ hcs
      simp only [(kindOfObject_builtin hobj rfl).1, ne_eq, not_true_eq_false, if_false, hcs]
  | tuple =>
      rw [hkind] at hobj
      simp only [expand, hobj] at h
      injection h with h; injection h with _ hcs
      simp only [(kindOfObject_builtin hobj rfl).1, ne_eq, not_true_eq_false, if_false, hcs, hlen]
  | list =>
      rw [hkind] at hobj
      simp only [expand, hobj] at h
      injection h with h; injection h with _ hcs
      simp only [(kindOfObject_builtin hobj rfl).1, ne_eq, not_true_eq_false, if_false, hcs, hlen]
  | dict =>
      rw [hkind] at hobj
      simp only [expand, hobj] at h
      obtain ⟨items, hitems, h⟩ := bind_ok.mp h
      injection h with h; injection h with hm' hcs
      have hkeys := hsame.keys
      rw [← hm'] at hkeys
      simp only [(kindOfObject_builtin hobj rfl).1, ne_eq, not_true_eq_false, if_false, hitems,
        ok_bind, isSortedPyDictKeysEqual_iff.mpr hkeys, if_true, hcs]
  | namedTuple =>
      rw [hkind] at hobj
      simp only [expand, hobj] at h
      injection h with h; injection h with hm' hcs
      obtain ⟨cls, xs, hx, _⟩ := kindOfObject_namedTuple hobj
      obtain ⟨t, ht⟩ := hn.namedTuple hkind
      have hdata := hsame.data (.type x.typeOf) (.type t) (by rw [← hm']) ht
      have hnt : x.isNamedTuple = true := by rw [hx]; rfl
      simp only [hnt, Bool.not_true, Bool.false_eq_true, if_false, ne_eq, hcs, hlen,
        not_true_eq_false, ht, Option.getD_some, hdata, ok_bind]
  | custom =>
      obtain ⟨r, aux, hr, hmem, hrk, haux⟩ := hn.custom (.inl hkind)
      rw [hkind] at hobj
      cases c with
      | none =>
          simp only [expand, hobj] at h
          injection h with h; injection h with hm' _
          exact absurd (by rw [← hm']) hk
      | some r₀ =>
          simp only [expand, hobj] at h
          obtain ⟨⟨leaves, aux₀⟩, hto, h⟩ := bind_ok.mp h
          injection h with h; injection h with hm' hcs
          have hl := (kindOfObject_custom hobj).1
          have hrr : r₀ = r := by
            rw [← hm', hr] at hcustom
            injection hcustom
          subst hrr
          have hne := hsymm _ _ (hsame.data aux₀ aux (by rw [← hm']) haux)
          have hreg := (registrationDiffers_iff hr hmem).mpr hl
          have hleaves : leaves = cs := hcs
          simp only [hr, hreg, Bool.false_eq_true, if_false, hto, ok_bind, haux, Option.getD_some,
            hne, ne_eq, hleaves, hlen, not_true_eq_false]
  | dataclass =>
      obtain ⟨r, aux, hr, hmem, hrk, haux⟩ := hn.custom (.inr hkind)
      rw [hkind] at hobj
      cases c with
      | none =>
          simp only [expand, hobj] at h
          injection h with h; injection h with hm' _
          exact absurd (by rw [← hm']) hk
      | some r₀ =>
          simp only [expand, hobj] at h
          obtain ⟨aux₀, hmeta, h⟩ := bind_ok.mp h
          obtain ⟨children, hdata, h⟩ := bind_ok.mp h
          injection h with h; injection h with hm' hcs
          have hl := (kindOfObject_custom hobj).1
          have hrr : r₀ = r := by
            rw [← hm', hr] at hcustom
            injection hcustom
          subst hrr
          have harity : (r₀.dataFields.length : ℤ) = n.arity := by rw [← hsame.arity, ← hm']
          have hne := hsymm _ _ (hsame.data (.tuple aux₀) aux (by rw [← hm']) haux)
          have hreg := (registrationDiffers_iff hr hmem).mpr hl
          simp only [hr, hreg, Bool.false_eq_true, if_false, hmeta, ok_bind, haux, Option.getD_some,
            hne, ne_eq, harity, not_true_eq_false, hdata, hcs]

/-! ## The loop computes `upTo` -/

/-- The trees that `FlattenUpTo` is about: those that flattening makes. -/
structure KnownTree (reg : PyTreeRegistry α) (t : LabelTree (Node α)) : Prop
    extends TreeOk reg t where
  known : ∀ n ∈ t.postorder, n.kind ≠ .leaf → NodeKnown reg n

theorem KnownTree.child {n : Node α} {ts : List (LabelTree (Node α))}
    (h : KnownTree reg (.node n ts)) {t : LabelTree (Node α)} (ht : t ∈ ts) : KnownTree reg t := by
  have hmem : ∀ m ∈ t.postorder, m ∈ (LabelTree.node n ts).postorder := fun m hm => by
    rw [postorder_node]
    exact List.mem_append_left _ (List.mem_flatMap.mpr ⟨t, ht, hm⟩)
  refine ⟨⟨h.ranked.child ht, ?_, fun m hm => h.shape m (hmem m hm)⟩,
    fun m hm => h.known m (hmem m hm)⟩
  have hc := h.counted
  cases hc with
  | node _ _ hc => exact hc t ht

theorem KnownTree.root {n : Node α} {ts : List (LabelTree (Node α))}
    (h : KnownTree reg (.node n ts)) :
    NodeShape reg n ∧ (n.kind ≠ .leaf → NodeKnown reg n) ∧ ts.length = n.children := by
  have hmem : n ∈ (LabelTree.node n ts).postorder := by simp
  exact ⟨h.shape n hmem, h.known n hmem, h.ranked.length⟩

/-- A leaf of the tree has no children. -/
theorem KnownTree.leaf {n : Node α} {ts : List (LabelTree (Node α))}
    (h : KnownTree reg (.node n ts)) (hk : n.kind = .leaf) : ts = [] := by
  obtain ⟨hn, _, hlen⟩ := h.root
  have h0 : n.children = 0 := by rw [Node.children, hn.empty (.inl hk)]; rfl
  exact List.eq_nil_of_length_eq_zero (hlen.trans h0)

theorem upTo_leaf {n : Node α} {ts : List (LabelTree (Node α))} {x : PyObj α}
    (hk : n.kind = .leaf) : upTo py reg (.node n ts) x = .ok [x] := by
  rw [upTo, if_pos hk]

theorem upTo_node {n : Node α} {ts : List (LabelTree (Node α))} {x : PyObj α}
    (hk : n.kind ≠ .leaf) : upTo py reg (.node n ts) x =
      (upToChildren py reg n x).bind fun cs => upToAll py reg ts cs := by
  rw [upTo, if_neg hk]
  rfl

theorem upToAll_cons {t : LabelTree (Node α)} {ts : List (LabelTree (Node α))} {c : PyObj α}
    {cs : List (PyObj α)} : upToAll py reg (t :: ts) (c :: cs) =
      (upToAll py reg ts cs).bind fun ls => (upTo py reg t c).bind fun l => .ok (l ++ ls) := by
  rw [upToAll]
  rfl

theorem bind_assoc {ε β γ δ : Type} (x : Except ε β) (f : β → Except ε γ) (g : γ → Except ε δ) :
    (x.bind f).bind g = x.bind fun b => (f b).bind g := by
  cases x <;> rfl

/-- Storing the next leaf, from the end. -/
theorem set_replicate (k : ℕ) (o : PyObj α) (done : List (Option (PyObj α))) :
    (List.replicate (k + 1) none ++ done).set k (some o) =
      List.replicate k none ++ (some o :: done) := by
  rw [List.replicate_succ', List.append_assoc, List.set_append_right _ _ (by simp)]
  simp

/--
**The loop over one subtree.** With its root on top of the agenda, the loop reads the nodes
of the subtree, takes the object apart along them, and stores the leaves it finds before the
`done` ones.
-/
theorem flattenUpToLoop_postorder (hsymm : NeSymmetric py) (mismatch : PyErr)
    {t : LabelTree (Node α)} : KnownTree reg t → ∀ (ns : List (Node α)) (x : PyObj α)
      (agenda : List (PyObj α)) (k : ℕ) (done : List (Option (PyObj α))),
      flattenUpToLoop py reg mismatch (t.postorder.reverse ++ ns) (x :: agenda)
          ((k + leafCount t.postorder : ℕ) - 1)
          (List.replicate (k + leafCount t.postorder) none ++ done) =
        (upTo py reg t x).bind fun ls => flattenUpToLoop py reg mismatch ns agenda (k - 1)
          (List.replicate k none ++ (ls.map some ++ done)) := by
  induction t with
  | node n ts ih =>
      intro ht ns x agenda k done
      -- The subtrees of a row, the last one first.
      have row : ∀ (us : List (LabelTree (Node α))), (∀ u ∈ us, u ∈ ts) →
          ∀ (cs : List (PyObj α)), us.length = cs.length → ∀ (ns : List (Node α))
            (agenda : List (PyObj α)) (k : ℕ) (done : List (Option (PyObj α))),
          flattenUpToLoop py reg mismatch ((postorders us).reverse ++ ns) (cs.reverse ++ agenda)
              ((k + leafCount (postorders us) : ℕ) - 1)
              (List.replicate (k + leafCount (postorders us)) none ++ done) =
            (upToAll py reg us cs).bind fun ls => flattenUpToLoop py reg mismatch ns agenda (k - 1)
              (List.replicate k none ++ (ls.map some ++ done)) := by
        intro us
        induction us with
        | nil =>
            intro _ cs hlen ns agenda k done
            obtain rfl : cs = [] := List.eq_nil_of_length_eq_zero hlen.symm
            rfl
        | cons u us ihu =>
            intro hus cs hlen ns agenda k done
            cases cs with
            | nil => cases hlen
            | cons c cs =>
                have hu := hus u List.mem_cons_self
                have hrest := ihu (fun w hw => hus w (List.mem_cons_of_mem _ hw)) cs
                  (Nat.succ.inj hlen) (u.postorder.reverse ++ ns) (c :: agenda)
                  (k + leafCount u.postorder) done
                rw [postorders_cons, List.reverse_append, List.append_assoc, List.reverse_cons,
                  List.append_assoc, List.singleton_append, leafCount_append, ← Nat.add_assoc,
                  hrest, upToAll_cons, bind_assoc]
                congr 1
                funext ls
                rw [ih u hu (ht.child hu), bind_assoc]
                congr 1
                funext l
                simp only [Except.bind, List.map_append, List.append_assoc]
      obtain ⟨hn, hknown, hlen⟩ := ht.root
      rw [postorder_node, List.reverse_append, List.reverse_singleton, List.singleton_append,
        List.cons_append, leafCount_append, leafCount_cons]
      by_cases hk : n.kind = .leaf
      · obtain rfl := ht.leaf hk
        have hone : k + (leafCount (postorders ([] : List (LabelTree (Node α)))) +
            ((if n.kind = .leaf then 1 else 0) + leafCount ([] : List (Node α)))) = k + 1 := by
          rw [if_pos hk]
          rfl
        rw [hone, flattenUpToLoop, if_pos hk, if_neg (by omega), upTo_leaf hk]
        have hindex : (((k + 1 : ℕ) : ℤ) - 1) = k := by omega
        rw [hindex, Int.toNat_natCast, set_replicate]
        rfl
      · have hzero : k + (leafCount (postorders ts) +
            ((if n.kind = .leaf then 1 else 0) + leafCount ([] : List (Node α)))) =
              k + leafCount (postorders ts) := by
          rw [if_neg hk]
          rfl
        rw [hzero, flattenUpToLoop, if_neg hk, upTo_node hk]
        cases hc : upToChildren py reg n x with
        | error e => rfl
        | ok cs =>
            obtain ⟨m, hexp, _, hsame⟩ := upToChildren_ok hsymm hn (hknown hk) hk hc
            have hcs : ts.length = cs.length := by
              rw [hlen, Node.children, ← hsame.arity, (expand_ok hexp).2.1, Int.toNat_natCast]
            exact row ts (fun _ h => h) cs hcs ns agenda k done

/-- **`FlattenUpTo` computes `upTo`**, and every leaf of its result is set. -/
theorem flattenUpTo_eq (hsymm : NeSymmetric py) {str : PyObj α → Except PyErr String}
    {t : LabelTree (Node α)} (ht : KnownTree reg t) (x : PyObj α) :
    PyTreeDef.flattenUpTo py str { registry := reg, traversal := t.postorder } x =
      (upTo py reg t x).bind fun ls => .ok (ls.map some) := by
  have hleaves : PyTreeDef.numLeaves { registry := reg, traversal := t.postorder } =
      leafCount t.postorder := by
    cases t with
    | node n ts =>
        have hc := ht.counted
        cases hc with
        | node hl _ _ =>
            rw [← hl, PyTreeDef.numLeaves, postorder_node, List.getLast?_concat]
  have hloop := flattenUpToLoop_postorder hsymm
    (structuresDidNotMatch py str { registry := reg, traversal := t.postorder } x) ht [] x [] 0 []
  rw [Nat.zero_add, List.append_nil, List.append_nil] at hloop
  unfold PyTreeDef.flattenUpTo
  rw [hleaves, Int.toNat_natCast, hloop]
  congr 1
  funext ls
  simp [flattenUpToLoop]

/-! ## Prunings -/

theorem PrunesAll.length {cs : List (PyObj α)} {ts : List (LabelTree (Node α))}
    {ls : List (PyObj α)} (h : PrunesAll py reg cs ts ls) : ts.length = cs.length := by
  induction cs generalizing ts ls with
  | nil => cases h; rfl
  | cons c cs ih =>
      cases h with
      | cons _ h => rw [List.length_cons, List.length_cons, ih h]

theorem PrunesAll.mem {cs : List (PyObj α)} {ts : List (LabelTree (Node α))} {ls : List (PyObj α)}
    (h : PrunesAll py reg cs ts ls) {t : LabelTree (Node α)} (ht : t ∈ ts) :
    ∃ c ∈ cs, ∃ l, Prunes py reg c t l := by
  induction cs generalizing ts ls with
  | nil => cases h; cases ht
  | cons c cs ih =>
      cases h with
      | cons hc h =>
          rcases List.mem_cons.mp ht with rfl | ht
          · exact ⟨c, List.mem_cons_self, _, hc⟩
          · obtain ⟨c', hc', l, hl⟩ := ih h ht
            exact ⟨c', List.mem_cons_of_mem _ hc', l, hl⟩

/-- A pruning has its children at every node. -/
theorem Prunes.ranked {t : LabelTree (Node α)} : ∀ {x : PyObj α} {ls : List (PyObj α)},
    Prunes py reg x t ls → Ranked Node.children t := by
  induction t with
  | node n ts ih =>
      intro x ls h
      cases h with
      | leaf => exact .node rfl (by simp)
      | node hexp _ hcs =>
          refine .node ?_ fun t ht => ?_
          · rw [hcs.length]
            simp [Node.children, (expand_ok hexp).2.1]
          · obtain ⟨_, _, _, hc⟩ := hcs.mem ht
            exact ih t ht hc

/-- Its nodes are those of objects. -/
theorem Prunes.nodes {t : LabelTree (Node α)} : ∀ {x : PyObj α} {ls : List (PyObj α)},
    Prunes py reg x t ls → ∀ n ∈ t.postorder,
      NodeShape reg n ∧ (n.kind ≠ .leaf → NodeKnown reg n) := by
  induction t with
  | node n ts ih =>
      intro x ls h m hm
      rw [postorder_node] at hm
      cases h with
      | leaf =>
          rw [List.mem_singleton.mp hm]
          exact ⟨nodeShape_leaf.setCounts 1 1, fun hk => absurd rfl hk⟩
      | node hexp hk hcs =>
          rcases List.mem_append.mp hm with hm | hm
          · obtain ⟨t, ht, hm⟩ := List.mem_flatMap.mp hm
            obtain ⟨_, _, _, hc⟩ := hcs.mem ht
            exact ih t ht hc m hm
          · rw [List.mem_singleton.mp hm]
            exact ⟨(expand_ok hexp).1.setCounts _ _,
              fun _ => (nodeKnown_of_expand hexp hk).setCounts _ _⟩

mutual

/-- Flattening is pruning at the leaves. -/
theorem Flattens.prunes {p : LeafPredicate α} {x : PyObj α} {t : LabelTree (Node α)}
    {ls : List (PyObj α)} : Flattens py reg p x t ls → Prunes py reg x t ls
  | .leaf _ => .leaf x
  | .node _ hexp hk hcs => .node hexp hk hcs.prunes

theorem FlattensAll.prunes {p : LeafPredicate α} {cs : List (PyObj α)}
    {ts : List (LabelTree (Node α))} {ls : List (PyObj α)} :
    FlattensAll py reg p cs ts ls → PrunesAll py reg cs ts ls
  | .nil => .nil
  | .cons hc hcs => .cons hc.prunes hcs.prunes

end

theorem Flattens.knownTree {p : LeafPredicate α} {x : PyObj α} {t : LabelTree (Node α)}
    {ls : List (PyObj α)} (h : Flattens py reg p x t ls) : KnownTree reg t :=
  ⟨h.treeOk, fun n hn => (h.prunes.nodes n hn).2⟩

theorem SameNode.setCounts {m n : Node α} (h : SameNode py m n) (k l : ℤ) :
    SameNode py { m with numLeaves := k, numNodes := l } n :=
  ⟨⟨h.kind, h.arity, h.keys, h.data, h.type⟩, h.containerType⟩

theorem sameNode_leaf {n : Node α} (hn : NodeShape reg n) (hk : n.kind = .leaf) :
    SameNode py { numLeaves := 1, numNodes := 1 } n :=
  sameNode_of (nodeShape_leaf.setCounts 1 1) hn hk.symm (hn.empty (.inl hk)).symm
    (by simp [hk]) (by simp) (by simp [hk])

theorem sameNode_children {m n : Node α} (h : SameNode py m n) : m.children = n.children := by
  rw [Node.children, h.arity]

/-- **What `upTo` accepts**: the objects with a pruning of the same nodes. -/
theorem upTo_iff (hsymm : NeSymmetric py) {t : LabelTree (Node α)} : KnownTree reg t →
    ∀ {x : PyObj α} {ls : List (PyObj α)}, upTo py reg t x = .ok ls ↔
      ∃ u, Prunes py reg x u ls ∧ List.Forall₂ (SameNode py) u.postorder t.postorder := by
  induction t with
  | node n ts ih =>
      intro ht x ls
      obtain ⟨hn, hknown, hlen⟩ := ht.root
      -- A row of subtrees accepts a row of objects one by one.
      have row : ∀ us : List (LabelTree (Node α)), (∀ u ∈ us, u ∈ ts) →
          ∀ {cs ls : List (PyObj α)}, us.length = cs.length →
            (upToAll py reg us cs = .ok ls ↔ ∃ vs, PrunesAll py reg cs vs ls ∧
              List.Forall₂ (fun v u : LabelTree (Node α) =>
                List.Forall₂ (SameNode py) v.postorder u.postorder) vs us) := by
        intro us
        induction us with
        | nil =>
            intro _ cs ls hlen
            obtain rfl : cs = [] := List.eq_nil_of_length_eq_zero hlen.symm
            constructor
            · intro h
              injection h with h
              exact ⟨[], h ▸ .nil, .nil⟩
            · rintro ⟨vs, hvs, _⟩
              cases hvs
              rfl
        | cons u us ihu =>
            intro hus cs ls hlen
            cases cs with
            | nil => cases hlen
            | cons c cs =>
                have hu := hus u List.mem_cons_self
                have hrest := fun {ls} => @ihu (fun w hw => hus w (List.mem_cons_of_mem _ hw)) cs
                  ls (Nat.succ.inj hlen)
                rw [upToAll_cons]
                constructor
                · intro h
                  obtain ⟨ls', hls', h⟩ := bind_ok.mp h
                  obtain ⟨l, hl, h⟩ := bind_ok.mp h
                  injection h with h
                  obtain ⟨vs, hvs, hsames⟩ := hrest.mp hls'
                  obtain ⟨v, hv, hsame⟩ := (ih u hu (ht.child hu)).mp hl
                  exact ⟨v :: vs, h ▸ .cons hv hvs, .cons hsame hsames⟩
                · rintro ⟨vs, hvs, hsames⟩
                  cases hvs with
                  | cons hv hvs =>
                      cases hsames with
                      | cons hsame hsames =>
                          rw [hrest.mpr ⟨_, hvs, hsames⟩]
                          simp only [Except.bind, (ih u hu (ht.child hu)).mpr ⟨_, hv, hsame⟩]
      by_cases hk : n.kind = .leaf
      · obtain rfl := ht.leaf hk
        rw [upTo_leaf hk]
        constructor
        · intro h
          injection h with h
          subst h
          refine ⟨_, Prunes.leaf x, ?_⟩
          rw [postorder_node, postorder_node]
          exact .cons (sameNode_leaf hn hk) .nil
        · rintro ⟨u, hu, hsame⟩
          rw [postorder_node] at hsame
          cases hu with
          | leaf => rfl
          | node _ hk' _ =>
              rw [postorder_node] at hsame
              exact absurd ((forall₂_concat_inj hsame).2.kind.trans hk) hk'
      · rw [upTo_node hk]
        constructor
        · intro h
          obtain ⟨cs, hcs, h⟩ := bind_ok.mp h
          obtain ⟨m, hexp, hkm, hsame⟩ := upToChildren_ok hsymm hn (hknown hk) hk hcs
          have hrow : ts.length = cs.length := by
            rw [hlen, Node.children, ← hsame.arity, (expand_ok hexp).2.1, Int.toNat_natCast]
          obtain ⟨vs, hvs, hsames⟩ := (row ts (fun _ h => h) hrow).mp h
          refine ⟨_, .node hexp hkm hvs, ?_⟩
          rw [postorder_node, postorder_node]
          exact List.rel_append (forall₂_postorders hsames) (.cons (hsame.setCounts _ _) .nil)
        · rintro ⟨u, hu, hsame⟩
          rw [postorder_node] at hsame
          have hranked := hu.ranked
          cases hu with
          | leaf =>
              rw [postorder_node] at hsame
              exact absurd (forall₂_concat_inj hsame).2.kind.symm hk
          | @node _ m cs vs _ hexp hkm hvs =>
              rw [postorder_node] at hsame
              obtain ⟨hsames, hsame⟩ := forall₂_concat_inj hsame
              have hm : SameNode py m n := hsame.setCounts m.numLeaves m.numNodes
              have hrow : ts.length = cs.length := by
                rw [hlen, Node.children, ← hm.arity, (expand_ok hexp).2.1, Int.toNat_natCast]
              have htrees := forall₂_of_postorders (fun _ _ h => sameNode_children h)
                (fun v hv => hranked.child hv) (fun t h => (ht.child h).ranked) hsames
              rw [upToChildren_of_expand hsymm hn hexp hkm hm]
              exact (row ts (fun _ h => h) hrow).mpr ⟨vs, hvs, htrees⟩

/-- Two nodes of one kind and arity. -/
def SameForm (a b : Node α) : Prop := a.kind = b.kind ∧ a.children = b.children

/-- **One pruning for each form.** Where the nodes stop tells which subtrees are the leaves. -/
theorem Prunes.unique {t : LabelTree (Node α)} : ∀ {u : LabelTree (Node α)} {x : PyObj α}
    {ls ls' : List (PyObj α)}, Prunes py reg x t ls → Prunes py reg x u ls' →
    List.Forall₂ SameForm t.postorder u.postorder → t = u ∧ ls = ls' := by
  induction t with
  | node n ts ih =>
      intro u x ls ls' ht hu h
      -- The children, which are the same objects for both prunings.
      have row : ∀ ts' : List (LabelTree (Node α)), (∀ t ∈ ts', t ∈ ts) →
          ∀ {us : List (LabelTree (Node α))} {cs ls ls' : List (PyObj α)},
          PrunesAll py reg cs ts' ls → PrunesAll py reg cs us ls' →
          List.Forall₂ (fun t u : LabelTree (Node α) =>
            List.Forall₂ SameForm t.postorder u.postorder) ts' us → ts' = us ∧ ls = ls' := by
        intro ts'
        induction ts' with
        | nil =>
            intro _ us cs ls ls' h h' _
            cases h
            cases h'
            exact ⟨rfl, rfl⟩
        | cons t ts' iht =>
            intro hts us cs ls ls' h h' hforms
            cases h with
            | cons hc hcs =>
                cases h' with
                | cons hc' hcs' =>
                    cases hforms with
                    | cons hform hforms =>
                        obtain ⟨rfl, rfl⟩ := ih t (hts t List.mem_cons_self) hc hc' hform
                        obtain ⟨rfl, rfl⟩ := iht (fun w hw => hts w (List.mem_cons_of_mem _ hw))
                          hcs hcs' hforms
                        exact ⟨rfl, rfl⟩
      have hranked := ht.ranked
      have hranked' := hu.ranked
      rw [postorder_node] at h
      cases ht with
      | leaf =>
          cases hu with
          | leaf => exact ⟨rfl, rfl⟩
          | node _ hk _ =>
              rw [postorder_node] at h
              exact absurd (forall₂_concat_inj h).2.1.symm hk
      | node hexp hk hcs =>
          cases hu with
          | leaf =>
              rw [postorder_node] at h
              exact absurd (forall₂_concat_inj h).2.1 hk
          | node hexp' hk' hcs' =>
              rw [hexp] at hexp'
              injection hexp' with hexp'
              injection hexp' with hn hc
              subst hn hc
              rw [postorder_node] at h
              have htrees := forall₂_of_postorders (fun _ _ hab => hab.2)
                (fun t ht => hranked.child ht) (fun u hu => hranked'.child hu)
                (forall₂_concat_inj h).1
              obtain ⟨rfl, rfl⟩ := row ts (fun _ h => h) hcs hcs' htrees
              exact ⟨rfl, rfl⟩

/-- **A pytree is rebuilt from any of its prunings.** -/
theorem Prunes.rebuilds {t : LabelTree (Node α)} : ∀ {x : PyObj α} {ls : List (PyObj α)},
    Prunes py reg x t ls → IsPytree py reg none x →
    ∃ x', SameTree x' x ∧ Builds py t.postorder ls [x'] := by
  induction t with
  | node n ts ih =>
      intro x ls h hx
      have row : ∀ us : List (LabelTree (Node α)), (∀ u ∈ us, u ∈ ts) →
          ∀ {cs ls : List (PyObj α)}, PrunesAll py reg cs us ls →
          (∀ c ∈ cs, IsPytree py reg none c) →
          ∃ xs, List.Forall₂ SameTree xs cs ∧ Builds py (postorders us) ls xs := by
        intro us
        induction us with
        | nil =>
            intro _ cs ls h _
            cases h
            exact ⟨[], .nil, .nil⟩
        | cons u us ihu =>
            intro hus cs ls h hcs
            cases h with
            | cons hc h =>
                obtain ⟨c', hsame, hb⟩ := ih u (hus u List.mem_cons_self) hc
                  (hcs _ List.mem_cons_self)
                obtain ⟨xs, hsames, hbs⟩ := ihu (fun w hw => hus w (List.mem_cons_of_mem _ hw)) h
                  fun d hd => hcs d (List.mem_cons_of_mem _ hd)
                exact ⟨c' :: xs, .cons hsame hsames, hb.append hbs⟩
      cases h with
      | leaf =>
          rw [postorder_node]
          exact ⟨x, .refl x, Builds.leaf rfl rfl x⟩
      | @node _ m cs _ _ hexp hk hall =>
          cases hx with
          | leaf hleaf =>
              -- An object that comes apart is no leaf.
              rcases hleaf with hleaf | ⟨_, hleaf⟩
              · injection hleaf with hleaf
                cases hleaf
              · rw [hexp] at hleaf
                injection hleaf with hleaf
                injection hleaf with hleaf _
                exact absurd (by rw [hleaf]) hk
          | node _ hinv hexp' _ hcs =>
              rw [hexp] at hexp'
              injection hexp' with hexp'
              injection hexp' with hm hc
              subst hm hc
              obtain ⟨xs, hsames, hbs⟩ := row ts (fun _ h => h) hall hcs
              obtain ⟨x', hx', hsame⟩ := (expand_rebuilds hinv hexp hk).2 xs hsames
              have hlen : xs.length = m.children := by
                rw [Node.children, (expand_ok hexp).2.1, hsames.length_eq]
                simp
              refine ⟨x', hsame, ?_⟩
              rw [postorder_node]
              exact hbs.node hk hlen hx'

/-! ## The definition of a flattened tree as a prefix -/

/-- The definition with these nodes. -/
def treeDef (reg : PyTreeRegistry α) (t : LabelTree (Node α)) : PyTreeDef α :=
  { registry := reg, traversal := t.postorder }

/-- `FlattenUpTo` accepts the objects of which the definition is a prefix. -/
structure AcceptsPrefixes (py : Runtime α) (reg : PyTreeRegistry α)
    (str : PyObj α → Except PyErr String) (d : PyTreeDef α) (x : PyObj α) : Prop where
  /-- It succeeds when some subtrees can be replaced by leaves to give an equal definition. -/
  succeeds_iff : (∃ r, d.flattenUpTo py str x = .ok r) ↔
    ∃ t ls, Prunes py reg x t ls ∧ (treeDef reg t).eq py d = .ok true
  /-- It returns these subtrees. -/
  leaves : ∀ t ls, Prunes py reg x t ls → (treeDef reg t).eq py d = .ok true →
    d.flattenUpTo py str x = .ok (ls.map some)
  /-- Every position of its result is set. -/
  set : ∀ r, d.flattenUpTo py str x = .ok r → ∀ s ∈ r, s.isSome
  /-- The result unflattens to the same tree, whatever sense of equality one takes. -/
  unflatten : IsPytree py reg none x → ∀ ls, d.flattenUpTo py str x = .ok (ls.map some) →
    ∀ R, TreeEquality py reg R → ∃ y x', d.unflatten py ls = .ok y ∧ R x' y ∧ SameTree x' x

/--
**When `FlattenUpTo` accepts exactly the prefixes.** It does, with the subtrees in order and
no position left out, unless pruning `x` gives a tree that differs from the definition in the
types of dataclasses and in nothing else.
-/
theorem acceptsPrefixes_iff {p : LeafPredicate α} {fuel : ℕ} {z : PyObj α} {ls₀ : List (PyObj α)}
    {d : PyTreeDef α} (hd : flatten py reg p fuel z = .ok (ls₀, d)) (hsymm : NeSymmetric py)
    (str : PyObj α → Except PyErr String) (x : PyObj α) :
    AcceptsPrefixes py reg str d x ↔
      ¬ ∃ t ls, Prunes py reg x t ls ∧ ConfusedDataclasses py (treeDef reg t) d := by
  obtain ⟨u, hu, rfl⟩ := flatten_ok hd
  have hknown := hu.knownTree
  have heq : ∀ {t ls}, Prunes py reg x t ls →
      ((treeDef reg t).eq py { registry := reg, traversal := u.postorder } = .ok true ↔
        List.Forall₂ (Alike py) t.postorder u.postorder) :=
    fun ht => eq_iff (fun n hn => (ht.nodes n hn).1) hknown.shape
  have hrun : ∀ {r}, PyTreeDef.flattenUpTo py str { registry := reg, traversal := u.postorder } x
      = .ok r ↔ ∃ t ls, Prunes py reg x t ls ∧ r = ls.map some ∧
        List.Forall₂ (SameNode py) t.postorder u.postorder := by
    intro r
    rw [flattenUpTo_eq hsymm hknown]
    constructor
    · intro h
      obtain ⟨ls, hls, h⟩ := bind_ok.mp h
      injection h with h
      obtain ⟨t, ht, hsame⟩ := (upTo_iff hsymm hknown).mp hls
      exact ⟨t, ls, ht, h.symm, hsame⟩
    · rintro ⟨t, ls, ht, rfl, hsame⟩
      rw [(upTo_iff hsymm hknown).mpr ⟨t, ht, hsame⟩]
      rfl
  constructor
  · rintro haccepts ⟨t, ls, ht, halike, hconf⟩
    -- The pruning is equal to the definition, so one with the same nodes exists: this one.
    obtain ⟨t', ls', ht', _, hsame⟩ := hrun.mp (haccepts.leaves t ls ht ((heq ht).mpr halike))
    have hform : List.Forall₂ SameForm t.postorder t'.postorder :=
      forall₂_of_common halike.flip (hsame.imp fun a b h => h.toAlike).flip
        fun n _ a _ b _ ha hb => ⟨ha.kind.trans hb.kind.symm, by
          rw [Node.children, Node.children, ha.arity, hb.arity]⟩
    obtain ⟨rfl, _⟩ := ht.unique ht' hform
    exact hconf (hsame.imp fun a b h _ => h.containerType)
  · intro hnot
    have hsame : ∀ {t ls}, Prunes py reg x t ls → List.Forall₂ (Alike py) t.postorder u.postorder →
        List.Forall₂ (SameNode py) t.postorder u.postorder := by
      intro t ls ht halike
      refine forall₂_sameNode halike ?_
      by_contra htype
      exact hnot ⟨t, ls, ht, halike, htype⟩
    refine ⟨⟨?_, ?_⟩, ?_, ?_, ?_⟩
    · rintro ⟨r, hr⟩
      obtain ⟨t, ls, ht, _, hs⟩ := hrun.mp hr
      exact ⟨t, ls, ht, (heq ht).mpr (hs.imp fun a b h => h.toAlike)⟩
    · rintro ⟨t, ls, ht, he⟩
      exact ⟨_, hrun.mpr ⟨t, ls, ht, rfl, hsame ht ((heq ht).mp he)⟩⟩
    · intro t ls ht he
      exact hrun.mpr ⟨t, ls, ht, rfl, hsame ht ((heq ht).mp he)⟩
    · intro r hr s hs
      obtain ⟨t, ls, _, rfl, _⟩ := hrun.mp hr
      obtain ⟨l, _, rfl⟩ := List.mem_map.mp hs
      rfl
    · intro hx ls hr R hR
      obtain ⟨t, ls', ht, hmap, hs⟩ := hrun.mp hr
      obtain rfl : ls = ls' := List.map_injective_iff.mpr (Option.some_injective _) hmap
      obtain ⟨x', hxx, hb⟩ := ht.rebuilds hx
      have hshape : ∀ n ∈ (treeDef reg t).traversal, NodeShape reg n :=
        fun n hn => (ht.nodes n hn).1
      have hbuild : (treeDef reg t).unflatten py ls = .ok x' := by
        have key := hb [] []
        rw [List.append_nil, List.nil_append] at key
        exact (unflatten_iff hshape).mpr key
      obtain ⟨y, hy, hxy⟩ := (unflatten_rel (d := treeDef reg t)
        (e := { registry := reg, traversal := u.postorder }) hshape hknown.shape hs hR ls).right
        hbuild
      exact ⟨y, x', hy, hxy, hxx⟩

theorem neSymmetric_plain [DecidableEq α] (cs : List ClassId) :
    NeSymmetric (Runtime.plain (α := α) cs) := by
  intro a b h
  simp only [Runtime.plain, Except.ok.injEq, Bool.not_eq_eq_eq_not, Bool.not_false] at h ⊢
  exact (PyObj.beq_iff b a).mpr ((PyObj.beq_iff a b).mp h).symm

theorem acceptsPrefixes_box : AcceptsPrefixes (.plain []) boxRegistry (fun _ => .ok "") (boxDef 0)
      (box 0) ↔ ¬ ∃ t ls, Prunes (.plain []) boxRegistry (box 0) t ls ∧
        ConfusedDataclasses (.plain []) (treeDef boxRegistry t) (boxDef 0) :=
  acceptsPrefixes_iff flatten_box_zero (neSymmetric_plain []) _ _

/-- An instance of one dataclass has the definition of the other, and is not accepted by it. -/
theorem flattenUpTo_other_box :
    flatten (.plain []) boxRegistry none 2 (box 0) = .ok ([.atom 2 7], boxDef 0) ∧
    (∃ t ls, Prunes (.plain []) boxRegistry (box 1) t ls ∧
      (treeDef boxRegistry t).eq (.plain []) (boxDef 0) = .ok true) ∧
    (boxDef 0).flattenUpTo (.plain []) (fun _ => .ok "") (box 1) = .error (.valueError
      "Custom dataclass node type mismatch: expected type: <object>, value: <object>.") := by
  obtain ⟨t, ht, hd⟩ := flatten_ok flatten_box_one
  refine ⟨rfl, ⟨t, _, ht.prunes, ?_⟩, by rfl⟩
  rw [treeDef, ← hd]
  rfl

end JaxDas.Pytree
