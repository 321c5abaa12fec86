import JaxDas.Lib.Fallible
import JaxDas.Lib.PostOrder
import JaxDas.Pytree.TreeDef

/-!
# What flattening produces

`Flattens` is the recursion of `FlattenImpl` with the accumulators taken away: an
object flattens to a tree of nodes and a list of leaves. The loop appends the one
in post-order and the other as it is (`flattenImpl_ok`), and given enough of the
recursion limit it finds them (`flattenImpl_of_flattens`). Everything else about
flattening is an induction over `Flattens`.
-/

namespace JaxDas.Pytree

open PostOrder

variable {α : Type}

/-- The number of children of a node. -/
abbrev Node.children (n : Node α) : ℕ := n.arity.toNat

section Flattens

variable (py : Runtime α) (reg : PyTreeRegistry α) (leafPredicate : LeafPredicate α)

theorem isKnownLeaf_none (x : PyObj α) : isKnownLeaf py none x = .ok false := rfl

/-- `x` is a leaf, by the predicate or by its type. -/
def IsLeaf (x : PyObj α) : Prop :=
  isKnownLeaf py leafPredicate x = .ok true ∨
    isKnownLeaf py leafPredicate x = .ok false ∧ expand py reg x = .ok ({}, [])

mutual

/-- `x` flattens to the nodes of a tree and to a list of leaves. -/
inductive Flattens : PyObj α → LabelTree (Node α) → List (PyObj α) → Prop where
  | leaf {x : PyObj α} :
      IsLeaf py reg leafPredicate x →
      Flattens x (.node { numLeaves := 1, numNodes := 1 } []) [x]
  | node {x : PyObj α} {n : Node α} {cs : List (PyObj α)} {ts : List (LabelTree (Node α))}
      {ls : List (PyObj α)} :
      isKnownLeaf py leafPredicate x = .ok false →
      expand py reg x = .ok (n, cs) → n.kind ≠ .leaf →
      FlattensAll cs ts ls →
      Flattens x (.node { n with
        numLeaves := ls.length, numNodes := (postorders ts).length + 1 } ts) ls

/-- The same for the children of a node, one after the other. -/
inductive FlattensAll : List (PyObj α) → List (LabelTree (Node α)) → List (PyObj α) → Prop where
  | nil : FlattensAll [] [] []
  | cons {c : PyObj α} {cs : List (PyObj α)} {t : LabelTree (Node α)} {ts : List (LabelTree (Node α))}
      {l ls : List (PyObj α)} :
      Flattens c t l → FlattensAll cs ts ls → FlattensAll (c :: cs) (t :: ts) (l ++ ls)

end

end Flattens

variable {py : Runtime α} {reg : PyTreeRegistry α} {leafPredicate : LeafPredicate α}

theorem FlattensAll.length {cs : List (PyObj α)} {ts : List (LabelTree (Node α))}
    {ls : List (PyObj α)} (h : FlattensAll py reg leafPredicate cs ts ls) :
    ts.length = cs.length := by
  induction cs generalizing ts ls with
  | nil => cases h; rfl
  | cons c cs ih =>
      cases h with
      | cons _ h => rw [List.length_cons, List.length_cons, ih h]

/-- Every child has its tree. -/
theorem FlattensAll.mem {cs : List (PyObj α)} {ts : List (LabelTree (Node α))} {ls : List (PyObj α)}
    (h : FlattensAll py reg leafPredicate cs ts ls) {t : LabelTree (Node α)} (ht : t ∈ ts) :
    ∃ c ∈ cs, ∃ l, Flattens py reg leafPredicate c t l := by
  induction cs generalizing ts ls with
  | nil => cases h; cases ht
  | cons c cs ih =>
      cases h with
      | cons hc h =>
          rcases List.mem_cons.mp ht with rfl | ht
          · exact ⟨c, List.mem_cons_self, _, hc⟩
          · obtain ⟨c', hc', l, hl⟩ := ih h ht
            exact ⟨c', List.mem_cons_of_mem _ hc', l, hl⟩

/-! ## The nodes of `expand` -/

/-- What every node that `expand` makes has in common. -/
structure NodeShape (reg : PyTreeRegistry α) (n : Node α) : Prop where
  /-- No negative number of children. -/
  arity : 0 ≤ n.arity
  /-- Only containers have children. -/
  empty : n.kind = .leaf ∨ n.kind = .none → n.arity = 0
  /-- A key for each child of a dictionary. -/
  dict : n.kind = .dict → n.sortedDictKeys.length = n.arity.toNat
  /-- Nothing else has keys. -/
  keys : n.kind ≠ .dict → n.sortedDictKeys = []
  /-- The data of a namedtuple is its type. -/
  namedTuple : n.kind = .namedTuple → ∃ t, n.nodeData = some (.type t)
  /-- Custom nodes and dataclasses carry their registration and some data. -/
  custom : n.kind = .custom ∨ n.kind = .dataclass →
    ∃ r x, n.custom = some r ∧ r ∈ reg.registrations ∧ r.kind = n.kind ∧ n.nodeData = some x
  /-- The data of a dataclass is a tuple with the values of its meta fields. -/
  dataclass : ∀ r, n.kind = .dataclass → n.custom = some r →
    n.arity = r.dataFields.length ∧
      ∃ auxData, n.nodeData = some (.tuple auxData) ∧ auxData.length = r.metaFields.length
  /-- Nothing else has data. -/
  noData : n.kind ≠ .namedTuple → n.kind ≠ .custom → n.kind ≠ .dataclass → n.nodeData = none
  /-- Nothing else has a registration. -/
  noCustom : n.kind ≠ .custom → n.kind ≠ .dataclass → n.custom = none

/-- The counts are no part of the shape. -/
theorem NodeShape.setCounts {n : Node α} (h : NodeShape reg n) (k m : ℤ) :
    NodeShape reg { n with numLeaves := k, numNodes := m } :=
  ⟨h.arity, h.empty, h.dict, h.keys, h.namedTuple, h.custom, h.dataclass, h.noData, h.noCustom⟩

theorem nodeShape_leaf : NodeShape reg ({} : Node α) := by constructor <;> simp

/-- Sorting keeps the number of items. -/
theorem insertItem_length {m : PyObj α × PyObj α} :
    ∀ {items r : List (PyObj α × PyObj α)}, insertItem py m items = .ok r →
      r.length = items.length + 1
  | [], r, h => by injection h with h; rw [← h]; rfl
  | n :: items, r, h => by
      unfold insertItem at h
      obtain ⟨b, _, h⟩ := bind_ok.mp h
      rcases ite_ok h with ⟨_, h⟩ | ⟨_, h⟩
      · obtain ⟨rest, hrest, h⟩ := bind_ok.mp h
        injection h with h
        rw [← h, List.length_cons, insertItem_length hrest, List.length_cons]
      · injection h with h; rw [← h]; rfl

theorem sortItems_length : ∀ {items r : List (PyObj α × PyObj α)},
    sortItems py items = .ok r → r.length = items.length
  | [], r, h => by injection h with h; rw [← h]
  | m :: items, r, h => by
      unfold sortItems at h
      obtain ⟨sorted, hs, h⟩ := bind_ok.mp h
      rw [insertItem_length h, sortItems_length hs, List.length_cons]

theorem getSortedPyDictItems_ok {items r : List (PyObj α × PyObj α)}
    (h : getSortedPyDictItems py items = .ok r) : sortItems py items = .ok r := by
  unfold getSortedPyDictItems at h
  split at h
  · rename_i hs; injection h with h; rw [hs, h]
  · exact absurd h (by simp)

theorem getSortedPyDictItems_length {items r : List (PyObj α × PyObj α)}
    (h : getSortedPyDictItems py items = .ok r) : r.length = items.length :=
  sortItems_length (getSortedPyDictItems_ok h)

theorem kindOfObject_custom {x : PyObj α} {k : PyTreeKind} {r : Registration α}
    (h : reg.kindOfObject x = (k, some r)) :
    reg.lookup x.typeOf = some r ∧ r.kind = k ∧ (k = .custom ∨ k = .dataclass) := by
  unfold PyTreeRegistry.kindOfObject at h
  split at h
  · rename_i s hs
    injection h with hk hr
    split at hr
    · rename_i hc
      injection hr with hr
      subst hr hk
      exact ⟨hs, rfl, hc⟩
    · exact absurd hr (by simp)
  · split at h <;> exact absurd h (by simp)

/-- **The shape of `expand`.** Its node is well-shaped and announces the children it returns. -/
theorem expand_ok {x : PyObj α} {n : Node α} {cs : List (PyObj α)}
    (h : expand py reg x = .ok (n, cs)) :
    NodeShape reg n ∧ n.arity = cs.length ∧ (n.kind = .leaf → n = {} ∧ cs = []) := by
  unfold expand at h
  split at h
  · injection h with h; injection h with hn hc; subst hn hc
    exact ⟨by constructor <;> simp, rfl, by simp⟩
  · injection h with h; injection h with hn hc; subst hn hc
    exact ⟨by constructor <;> simp, rfl, by simp⟩
  · injection h with h; injection h with hn hc; subst hn hc
    exact ⟨by constructor <;> simp, rfl, by simp⟩
  · obtain ⟨items, hitems, h⟩ := bind_ok.mp h
    injection h with h; injection h with hn hc; subst hn hc
    have hlen := getSortedPyDictItems_length hitems
    exact ⟨by constructor <;> simp [hlen], by simp [hlen], by simp⟩
  · rename_i r hk
    obtain ⟨p, _, h⟩ := bind_ok.mp h
    injection h with h; injection h with hn hc; subst hn hc
    have hr := PyTreeRegistry.lookup_mem (kindOfObject_custom hk).1
    have hrk := (kindOfObject_custom hk).2.1
    exact ⟨by constructor <;> simp [hr, hrk], rfl, by simp⟩
  · rename_i r hk
    obtain ⟨aux, haux, h⟩ := bind_ok.mp h
    obtain ⟨children, hc, h⟩ := bind_ok.mp h
    injection h with h; injection h with hn hcs; subst hn hcs
    have hr := PyTreeRegistry.lookup_mem (kindOfObject_custom hk).1
    have hrk := (kindOfObject_custom hk).2.1
    have hlen := (mapM_ok hc).length_eq
    have hauxlen := (mapM_ok haux).length_eq
    exact ⟨by constructor <;> simp [hr, hrk, hauxlen], by simp [hlen], by simp⟩
  · injection h with h; injection h with hn hc; subst hn hc
    exact ⟨by constructor <;> simp, rfl, by simp⟩
  · injection h with h; injection h with hn hc; subst hn hc
    exact ⟨nodeShape_leaf, rfl, fun _ => ⟨rfl, rfl⟩⟩

/-! ## The loop computes `Flattens` -/

/-- What the loop has appended when `x` is done. -/
def Flat.append (s : Flat α) (ls : List (PyObj α)) (ns : List (Node α)) : Flat α where
  leaves := s.leaves ++ ls
  traversal := s.traversal ++ ns

theorem Flat.append_append (s : Flat α) (ls ls' : List (PyObj α)) (ns ns' : List (Node α)) :
    (s.append ls ns).append ls' ns' = s.append (ls ++ ls') (ns ++ ns') := by
  simp [Flat.append]

theorem Flat.append_nil (s : Flat α) : s.append [] [] = s := by simp [Flat.append]

theorem Flat.pushLeaf_eq (s : Flat α) (x : PyObj α) :
    s.pushLeaf x {} = s.append [x] (LabelTree.postorder
      (.node { numLeaves := 1, numNodes := 1 } [])) := by
  rw [postorder_node]; rfl

theorem Flat.pushNode_append (s : Flat α) (n : Node α) (ls : List (PyObj α))
    (ts : List (LabelTree (Node α))) :
    s.pushNode (s.append ls (postorders ts)) n = s.append ls (LabelTree.postorder
      (.node { n with numLeaves := ls.length, numNodes := (postorders ts).length + 1 } ts)) := by
  have hl : ((s.append ls (postorders ts)).leaves.length : ℤ) - s.leaves.length = ls.length := by
    simp only [Flat.append, List.length_append]; omega
  have hn : ((s.append ls (postorders ts)).traversal.length : ℤ) - s.traversal.length + 1 =
      (postorders ts).length + 1 := by
    simp only [Flat.append, List.length_append]; omega
  rw [postorder_node, Flat.pushNode, hl, hn]
  simp [Flat.append]

/-- The loop over the children, given what it does on each of them. -/
theorem flattenChildren_ok {step : Flat α → PyObj α → Except PyErr (Flat α)}
    (hstep : ∀ c s s', step s c = .ok s' → ∃ t ls,
      Flattens py reg leafPredicate c t ls ∧ s' = s.append ls t.postorder) :
    ∀ {cs : List (PyObj α)} {s s' : Flat α}, cs.foldlM step s = .ok s' →
      ∃ ts ls, FlattensAll py reg leafPredicate cs ts ls ∧ s' = s.append ls (postorders ts)
  | [], s, s', h => by
      rw [List.foldlM_nil] at h
      injection h with h
      exact ⟨[], [], .nil, by rw [postorders_nil, Flat.append_nil, h]⟩
  | c :: cs, s, s', h => by
      rw [List.foldlM_cons] at h
      obtain ⟨s₁, h₁, h⟩ := bind_ok.mp h
      obtain ⟨t, l, ht, rfl⟩ := hstep c s s₁ h₁
      obtain ⟨ts, ls, hts, rfl⟩ := flattenChildren_ok hstep h
      exact ⟨t :: ts, l ++ ls, .cons ht hts, by rw [Flat.append_append, postorders_cons]⟩

/-- **Soundness of the loop.** What it appends is what the object flattens to. -/
theorem flattenImpl_ok : ∀ (fuel : ℕ) {x : PyObj α} {s s' : Flat α},
    flattenImpl py reg leafPredicate fuel x s = .ok s' →
    ∃ t ls, Flattens py reg leafPredicate x t ls ∧ s' = s.append ls t.postorder
  | 0, _, _, _, h => absurd h (by simp [flattenImpl])
  | fuel + 1, x, s, s', h => by
      unfold flattenImpl at h
      obtain ⟨known, hknown, h⟩ := bind_ok.mp h
      rcases ite_ok h with ⟨rfl, h⟩ | ⟨hf, h⟩
      · injection h with h
        exact ⟨_, _, .leaf (.inl hknown), by rw [← h, Flat.pushLeaf_eq]⟩
      · have hknown : isKnownLeaf py leafPredicate x = .ok false := by
          rw [hknown, Bool.eq_false_iff.mpr hf]
        obtain ⟨⟨n, cs⟩, hexp, h⟩ := bind_ok.mp h
        rcases ite_ok h with ⟨hk, h⟩ | ⟨hk, h⟩
        · obtain ⟨rfl, rfl⟩ := (expand_ok hexp).2.2 hk
          injection h with h
          exact ⟨_, _, .leaf (.inr ⟨hknown, hexp⟩), by rw [← h, Flat.pushLeaf_eq]⟩
        · obtain ⟨s₁, h₁, h⟩ := bind_ok.mp h
          obtain ⟨ts, ls, hts, rfl⟩ :=
            flattenChildren_ok (fun c s s' h => flattenImpl_ok fuel h) h₁
          injection h with h
          exact ⟨_, _, .node hknown hexp hk hts, by rw [← h, Flat.pushNode_append]⟩

mutual

/-- **Completeness of the loop.** With enough fuel it finds what the object flattens to. -/
theorem flattenImpl_of_flattens {x : PyObj α} {t : LabelTree (Node α)} {ls : List (PyObj α)} :
    Flattens py reg leafPredicate x t ls → ∃ k, ∀ fuel, k ≤ fuel → ∀ s,
      flattenImpl py reg leafPredicate fuel x s = .ok (s.append ls t.postorder)
  | .leaf hleaf => by
      refine ⟨1, fun fuel hk s => ?_⟩
      obtain ⟨m, rfl⟩ : ∃ m, fuel = m + 1 := ⟨fuel - 1, by omega⟩
      rw [← Flat.pushLeaf_eq]
      rcases hleaf with h | ⟨h, hexp⟩
      · rw [flattenImpl, h]; rfl
      · rw [flattenImpl, h, hexp]; rfl
  | .node hknown hexp hkind hcs => by
      obtain ⟨k, hk⟩ := flattenChildren_of_flattens hcs
      refine ⟨k + 1, fun fuel hfuel s => ?_⟩
      obtain ⟨m, rfl⟩ : ∃ m, fuel = m + 1 := ⟨fuel - 1, by omega⟩
      rw [← Flat.pushNode_append, flattenImpl, hknown, hexp]
      show (if _ then _ else _) = _
      rw [if_neg hkind, hk m (by omega) s]
      rfl

theorem flattenChildren_of_flattens {cs : List (PyObj α)} {ts : List (LabelTree (Node α))}
    {ls : List (PyObj α)} :
    FlattensAll py reg leafPredicate cs ts ls → ∃ k, ∀ fuel, k ≤ fuel → ∀ s,
      cs.foldlM (fun s c => flattenImpl py reg leafPredicate fuel c s) s =
        .ok (s.append ls (postorders ts))
  | .nil => ⟨0, fun _ _ s => by rw [postorders_nil, Flat.append_nil]; rfl⟩
  | .cons hc hcs => by
      obtain ⟨k₁, h₁⟩ := flattenImpl_of_flattens hc
      obtain ⟨k₂, h₂⟩ := flattenChildren_of_flattens hcs
      refine ⟨max k₁ k₂, fun fuel hk s => ?_⟩
      rw [List.foldlM_cons, h₁ fuel (by omega) s, postorders_cons, ← Flat.append_append]
      exact h₂ fuel (by omega) _

end

/-! ## The tree of a flattened object -/

/-- The number of leaves in a list of nodes. -/
def leafCount (ns : List (Node α)) : ℕ := ns.countP fun n => n.kind = .leaf

theorem leafCount_append (ns ms : List (Node α)) :
    leafCount (ns ++ ms) = leafCount ns + leafCount ms := List.countP_append

theorem leafCount_cons (n : Node α) (ns : List (Node α)) :
    leafCount (n :: ns) = (if n.kind = .leaf then 1 else 0) + leafCount ns := by
  unfold leafCount
  rw [List.countP_cons, Nat.add_comm]
  simp

/-- The counts stored at every node are those of its subtree. -/
inductive Counted : LabelTree (Node α) → Prop where
  | node {n : Node α} {ts : List (LabelTree (Node α))} :
      n.numLeaves = leafCount (LabelTree.node n ts).postorder →
      n.numNodes = (LabelTree.node n ts).postorder.length →
      (∀ t ∈ ts, Counted t) → Counted (.node n ts)

/--
A well-formed tree of nodes: every node has its children, its counts, and the
shape that `expand` gives it.
-/
structure TreeOk (reg : PyTreeRegistry α) (t : LabelTree (Node α)) : Prop where
  ranked : Ranked Node.children t
  counted : Counted t
  shape : ∀ n ∈ t.postorder, NodeShape reg n

theorem Flattens.leafCount {t : LabelTree (Node α)} : ∀ {x : PyObj α} {ls : List (PyObj α)},
    Flattens py reg leafPredicate x t ls → Pytree.leafCount t.postorder = ls.length := by
  induction t with
  | node n ts ih =>
      intro x ls h
      -- The leaves of the children, in order.
      have all : ∀ {us : List (LabelTree (Node α))} {cs : List (PyObj α)} {ls : List (PyObj α)},
          (∀ u ∈ us, u ∈ ts) → FlattensAll py reg leafPredicate cs us ls →
          Pytree.leafCount (postorders us) = ls.length := by
        intro us
        induction us with
        | nil => intro cs ls _ h; cases h; rfl
        | cons u us ihu =>
            intro cs ls hus h
            cases h with
            | cons hc h =>
                rw [postorders_cons, leafCount_append, ih u (hus u List.mem_cons_self) hc,
                  ihu (fun w hw => hus w (List.mem_cons_of_mem _ hw)) h, List.length_append]
      cases h with
      | leaf _ => rw [postorder_node]; rfl
      | node _ _ hk hcs =>
          rw [postorder_node, leafCount_append, all (fun _ h => h) hcs, leafCount_cons]
          simp [hk, Pytree.leafCount]

/-- **What flattening produces is well-formed.** -/
theorem Flattens.treeOk {t : LabelTree (Node α)} : ∀ {x : PyObj α} {ls : List (PyObj α)},
    Flattens py reg leafPredicate x t ls → TreeOk reg t := by
  induction t with
  | node n ts ih =>
      intro x ls h
      have hcount := h.leafCount
      cases h with
      | leaf _ =>
          refine ⟨.node rfl (by simp), .node (by rw [hcount]; rfl) (by rw [postorder_node]; rfl)
            (by simp), ?_⟩
          intro m hm
          rw [postorder_node] at hm
          rw [List.mem_singleton.mp hm]
          exact nodeShape_leaf.setCounts 1 1
      | @node _ n' cs _ _ _ hexp hk hcs =>
          obtain ⟨hshape, harity, _⟩ := expand_ok hexp
          have hchild : ∀ t ∈ ts, TreeOk reg t := fun t ht =>
            have ⟨_, _, _, hf⟩ := hcs.mem ht
            ih t ht hf
          refine ⟨.node ?_ fun t ht => (hchild t ht).ranked,
            .node (by rw [hcount]) (by rw [postorder_node, List.length_append]; simp)
              fun t ht => (hchild t ht).counted, ?_⟩
          · rw [hcs.length]; simp [Node.children, harity]
          · intro m hm
            rw [postorder_node] at hm
            rcases List.mem_append.mp hm with hm | hm
            · obtain ⟨t, ht, hm⟩ := List.mem_flatMap.mp hm
              exact (hchild t ht).shape m hm
            · rw [List.mem_singleton.mp hm]
              exact hshape.setCounts _ _

/-- What `Flatten` returns. -/
theorem flatten_ok {fuel : ℕ} {x : PyObj α} {ls : List (PyObj α)} {d : PyTreeDef α}
    (h : flatten py reg leafPredicate fuel x = .ok (ls, d)) :
    ∃ t, Flattens py reg leafPredicate x t ls ∧ d = { registry := reg, traversal := t.postorder } := by
  unfold flatten at h
  obtain ⟨s, hs, h⟩ := bind_ok.mp h
  injection h with h; injection h with hl hd
  obtain ⟨t, ls', ht, rfl⟩ := flattenImpl_ok fuel hs
  refine ⟨t, ?_, ?_⟩
  · rw [← hl]; exact ht
  · rw [← hd]; rfl

/-- Enough fuel makes `Flatten` return what the object flattens to. -/
theorem flatten_of_flattens {x : PyObj α} {t : LabelTree (Node α)} {ls : List (PyObj α)}
    (h : Flattens py reg leafPredicate x t ls) : ∃ k, ∀ fuel, k ≤ fuel →
      flatten py reg leafPredicate fuel x =
        .ok (ls, { registry := reg, traversal := t.postorder }) := by
  obtain ⟨k, hk⟩ := flattenImpl_of_flattens h
  exact ⟨k, fun fuel hfuel => by rw [flatten, hk fuel hfuel]; rfl⟩

end JaxDas.Pytree
