import Mathlib.Algebra.BigOperators.Group.List.Basic
import JaxDas.Pytree.RoundTrip

/-!
# Every constructor makes definitions that round-trip

`Produced` closes the pytrees under the constructors of `PyTreeDef`. Each of them
keeps `GoodDef`: the nodes are one tree, its counts are right, and its nodes fit.
From there `flatten_unflatten` puts the two directions of `RoundTrip` together.

`FromNodeDataAndChildren` is in `Produced` only with data that fit the children;
`noneOverLeaf` shows what becomes of it otherwise.
-/

namespace JaxDas.Pytree

open PostOrder

variable {α : Type} {py : Runtime α} {reg : PyTreeRegistry α}

/-- The node list of `d` is one tree of fitting nodes with the right counts. -/
def GoodDef (py : Runtime α) (reg : PyTreeRegistry α) (d : PyTreeDef α) : Prop :=
  ∃ t, TreeFits py reg t ∧ d = { registry := reg, traversal := t.postorder }

/-- The definitions that the constructors make from pytrees. -/
inductive Produced (py : Runtime α) (reg : PyTreeRegistry α) (memory : ℕ) :
    PyTreeDef α → Prop where
  | flatten {p : LeafPredicate α} {fuel : ℕ} {x : PyObj α} {ls : List (PyObj α)}
      {d : PyTreeDef α} : IsPytree py reg p x → flatten py reg p fuel x = .ok (ls, d) →
      Produced py reg memory d
  | compose {d e f : PyTreeDef α} : Produced py reg memory d → Produced py reg memory e →
      d.compose memory e = .ok f → Produced py reg memory f
  /-- To the registry, tuples are containers. -/
  | tuple {ds : List (PyTreeDef α)} {f : PyTreeDef α} {r : Registration α} :
      reg.lookup .tuple = some r → r.kind = .tuple → (∀ d ∈ ds, Produced py reg memory d) →
      PyTreeDef.tuple reg ds = .ok f → Produced py reg memory f
  | children {d e : PyTreeDef α} {es : List (PyTreeDef α)} : Produced py reg memory d →
      d.children = .ok es → e ∈ es → Produced py reg memory e
  /-- The node data fit the number of children. -/
  | fromNodeDataAndChildren {ds : List (PyTreeDef α)} {f : PyTreeDef α} {root : Node α}
      {nodeData : Option (PyObj α × PyObj α)} : (∀ d ∈ ds, Produced py reg memory d) →
      rootOf py reg nodeData ds.length = .ok root → NodeFits py reg root →
      fromNodeDataAndChildren py reg nodeData ds = .ok f → Produced py reg memory f

/-! ## Rows of definitions -/

theorem GoodDef.numLeaves (reg : PyTreeRegistry α) {t : LabelTree (Node α)} (h : Counted t) :
    PyTreeDef.numLeaves { registry := reg, traversal := t.postorder } = leafCount t.postorder := by
  cases h with
  | node hl _ _ => rw [PyTreeDef.numLeaves, getLast_postorder]; exact hl

/-- The trees of a row of good definitions. -/
theorem forest_of_goodDefs : ∀ {ds : List (PyTreeDef α)}, (∀ d ∈ ds, GoodDef py reg d) →
    ∃ ts, (∀ t ∈ ts, TreeFits py reg t) ∧ ts.length = ds.length ∧
      ds.flatMap PyTreeDef.traversal = postorders ts ∧
      (ds.map PyTreeDef.numLeaves).sum = leafCount (postorders ts)
  | [], _ => ⟨[], by simp, rfl, rfl, rfl⟩
  | d :: ds, h => by
      obtain ⟨t, ht, rfl⟩ := h d List.mem_cons_self
      obtain ⟨ts, hts, hlen, hflat, hsum⟩ :=
        forest_of_goodDefs fun e he => h e (List.mem_cons_of_mem _ he)
      refine ⟨t :: ts, List.forall_mem_cons.mpr ⟨ht, hts⟩, by simp [hlen], ?_, ?_⟩
      · rw [List.flatMap_cons, hflat, postorders_cons]
      · rw [List.map_cons, List.sum_cons, hsum, GoodDef.numLeaves reg ht.counted, postorders_cons,
          leafCount_append]
        push_cast
        rfl

/-- A fitting root over fitting trees. -/
theorem TreeFits.node {n : Node α} {ts : List (LabelTree (Node α))} (hn : NodeFits py reg n)
    (hts : ∀ t ∈ ts, TreeFits py reg t) (hlen : ts.length = n.children)
    (hl : n.numLeaves = leafCount (postorders ts ++ [n]))
    (hnn : n.numNodes = (postorders ts).length + 1) : TreeFits py reg (.node n ts) where
  ranked := .node hlen fun t ht => (hts t ht).ranked
  counted := .node (by rw [postorder_node]; exact hl)
    (by rw [postorder_node, List.length_append]; simpa using hnn) fun t ht => (hts t ht).counted
  fits m hm := by
    rw [postorder_node] at hm
    rcases List.mem_append.mp hm with hm | hm
    · obtain ⟨t, ht, hm⟩ := List.mem_flatMap.mp hm
      exact (hts t ht).fits m hm
    · rw [List.mem_singleton.mp hm]; exact hn

/-! ## The constructors -/

theorem flatten_goodDef {p : LeafPredicate α} {fuel : ℕ} {x : PyObj α} {ls : List (PyObj α)}
    {d : PyTreeDef α} (hx : IsPytree py reg p x) (h : flatten py reg p fuel x = .ok (ls, d)) :
    GoodDef py reg d := by
  obtain ⟨t, ls', _, ht, _, hfits, _⟩ := hx.rebuilds
  -- `x` flattens to one tree only: with enough fuel, what is found is what was found.
  obtain ⟨k, hk⟩ := flatten_of_flattens ht
  obtain ⟨u, hu, rfl⟩ := flatten_ok h
  obtain ⟨k', hk'⟩ := flatten_of_flattens hu
  have heq := (hk (max k k') (by omega)).symm.trans (hk' (max k k') (by omega))
  injection heq with heq; injection heq with _ heq
  injection heq with _ heq
  exact ⟨u, ⟨hu.treeOk.ranked, hu.treeOk.counted, by rw [← heq]; exact hfits⟩, rfl⟩

/-- Putting the tree `u` in the place of every leaf of `t`. -/
theorem graft_fits {u : LabelTree (Node α)} (hu : TreeFits py reg u) {t : LabelTree (Node α)} :
    TreeFits py reg t → ∃ v, Ranked Node.children v ∧ (∀ n ∈ v.postorder, NodeFits py reg n) ∧
      v.postorder = t.postorder.flatMap fun n => if n.kind = .leaf then u.postorder else [n] := by
  induction t with
  | node n ts ih =>
      intro ht
      have hn : NodeFits py reg n := ht.fits n (by rw [postorder_node]; simp)
      have children : ∀ us : List (LabelTree (Node α)), (∀ w ∈ us, w ∈ ts) →
          ∃ vs : List (LabelTree (Node α)), vs.length = us.length ∧ (∀ v ∈ vs, Ranked Node.children v) ∧
            (∀ n ∈ postorders vs, NodeFits py reg n) ∧ postorders vs =
              (postorders us).flatMap fun n => if n.kind = .leaf then u.postorder else [n] := by
        intro us
        induction us with
        | nil => exact fun _ => ⟨[], rfl, by simp, by simp, rfl⟩
        | cons w us ihu =>
            intro hus
            obtain ⟨v, hr, hf, hv⟩ := ih w (hus w List.mem_cons_self)
              (ht.child (hus w List.mem_cons_self))
            obtain ⟨vs, hlen, hrs, hfs, hvs⟩ := ihu fun z hz => hus z (List.mem_cons_of_mem _ hz)
            refine ⟨v :: vs, by simp [hlen], List.forall_mem_cons.mpr ⟨hr, hrs⟩, fun m hm => ?_, ?_⟩
            · rcases List.mem_append.mp hm with hm | hm
              · exact hf m hm
              · exact hfs m hm
            · rw [postorders_cons, postorders_cons, List.flatMap_append, hv, hvs]
      by_cases hk : n.kind = .leaf
      · have h0 : n.children = 0 := by rw [Node.children, hn.empty (.inl hk)]; rfl
        obtain rfl : ts = [] := List.eq_nil_of_length_eq_zero (by rw [ht.ranked.length, h0])
        exact ⟨u, hu.ranked, hu.fits, by rw [postorder_node]; simp [hk]⟩
      · obtain ⟨vs, hlen, hrs, hfs, hvs⟩ := children ts fun _ h => h
        refine ⟨.node n vs, .node (by rw [hlen, ht.ranked.length]) hrs, fun m hm => ?_, ?_⟩
        · rw [postorder_node] at hm
          rcases List.mem_append.mp hm with hm | hm
          · exact hfs m hm
          · rw [List.mem_singleton.mp hm]; exact hn
        · rw [postorder_node, postorder_node, List.flatMap_append, hvs]
          simp [hk]

theorem compose_goodDef {memory : ℕ} {d e f : PyTreeDef α} (hd : GoodDef py reg d)
    (he : GoodDef py reg e) (h : d.compose memory e = .ok f) : GoodDef py reg f := by
  obtain ⟨t, ht, rfl⟩ := hd
  obtain ⟨u, hu, rfl⟩ := he
  unfold PyTreeDef.compose at h
  rcases ite_ok h with ⟨_, h⟩ | ⟨_, h⟩
  · exact absurd h (by simp)
  obtain ⟨nodes, hnodes, h⟩ := bind_ok.mp h
  injection h with h
  obtain ⟨v, hrank, hfits, hv⟩ := graft_fits hu ht
  have hnodes' : setNumLeavesAndNumNodes memory (postorders [v]) = .ok nodes := by
    rw [postorders_cons, postorders_nil, List.append_nil, hv]; exact hnodes
  have hshape : ∀ n ∈ postorders [v], NodeShape reg n := by
    simpa using fun n hn => (hfits n hn).toNodeShape
  obtain ⟨us, hus, rfl⟩ := setNumLeavesAndNumNodes_ok (by simpa using hrank) hshape hnodes'
  obtain ⟨w, rfl⟩ := List.length_eq_one_iff.mp hus.length
  refine ⟨w, ⟨hus.ranked w (by simp), hus.counted w (by simp), fun n hn => ?_⟩, ?_⟩
  · have hplain := hus.plain
    simp only [postorders_cons, postorders_nil, List.append_nil] at hplain
    obtain ⟨m, hm, hmn⟩ := List.mem_map.mp (hplain ▸ List.mem_map_of_mem hn)
    exact (hfits m hm).of_plain hmn.symm
  · rw [← h]; simp

theorem tuple_goodDef {ds : List (PyTreeDef α)} {f : PyTreeDef α} {r : Registration α}
    (hr : reg.lookup .tuple = some r) (hk : r.kind = .tuple) (hds : ∀ d ∈ ds, GoodDef py reg d)
    (h : PyTreeDef.tuple reg ds = .ok f) : GoodDef py reg f := by
  unfold PyTreeDef.tuple at h
  rcases ite_ok h with ⟨_, h⟩ | ⟨_, h⟩
  · exact absurd h (by simp)
  injection h with h
  obtain ⟨ts, hts, hlen, hflat, hsum⟩ := forest_of_goodDefs hds
  rw [hflat, hsum] at h
  refine ⟨.node
      { kind := .tuple
        arity := ds.length
        numLeaves := leafCount (postorders ts)
        numNodes := (postorders ts).length + 1 } ts,
    .node ⟨by constructor <;> simp, ?_, by simp, by simp, by simp, by simp⟩ hts ?_ ?_ rfl, ?_⟩
  · simpa [PyTreeKind.builtinType] using ⟨r, hr, hk⟩
  · simp [Node.children, hlen]
  · simp [leafCount]
  · rw [← h, postorder_node]

theorem children_goodDef {d e : PyTreeDef α} {es : List (PyTreeDef α)} (hd : GoodDef py reg d)
    (h : d.children = .ok es) (he : e ∈ es) : GoodDef py reg e := by
  obtain ⟨⟨n, ts⟩, ht, rfl⟩ := hd
  have hlen : n.arity.toNat = ts.length := ht.ranked.length.symm
  have hcounted : ∀ t ∈ ts, Counted t := fun t hmem => (ht.child hmem).counted
  unfold PyTreeDef.children at h
  rw [getLast_postorder] at h
  obtain ⟨cs, hcs, h⟩ := bind_ok.mp h
  have hpos : (LabelTree.node n ts).postorder.length - 1 = (postorders ts).length := by
    rw [postorder_node]; simp
  dsimp only at hcs
  rw [hlen, hpos, postorder_node, childrenLoop_ok hcounted] at hcs
  injection hcs with hcs
  injection h with h
  rw [← h, ← hcs, List.append_nil] at he
  obtain ⟨nodes, hnodes, rfl⟩ := List.mem_map.mp he
  obtain ⟨t, hmem, rfl⟩ := List.mem_map.mp hnodes
  exact ⟨t, ht.child hmem, rfl⟩

/-- The root is a leaf exactly when there are no node data. -/
theorem rootOf_ok {nodeData : Option (PyObj α × PyObj α)} {k : ℕ} {root : Node α}
    (h : rootOf py reg nodeData k = .ok root) :
    root.arity = k ∧ (root.kind = .leaf ↔ nodeData = none) := by
  unfold rootOf at h
  split at h
  · injection h with h; rw [← h]; simp
  · rename_i t data
    obtain ⟨b, _, h⟩ := bind_ok.mp h
    rcases ite_ok h with ⟨_, h⟩ | ⟨_, h⟩
    · injection h with h; rw [← h]; simp
    · dsimp only at h
      split at h
      · exact absurd h (by simp)
      · rename_i r hr
        have hkind : r.kind ≠ .leaf := by
          split at hr
          · have hok := reg.kindOk r (PyTreeRegistry.lookup_mem hr)
            intro hleaf
            unfold Registration.KindOk at hok
            rw [hleaf] at hok
            exact hok
          · exact absurd hr (by simp)
        rcases ite_ok h with ⟨_, h⟩ | ⟨_, h⟩
        · injection h with h; rw [← h]; simp [hkind]
        · rcases ite_ok h with ⟨_, h⟩ | ⟨_, h⟩
          · split at h
            · injection h with h; rw [← h]; simp
            · exact absurd h (by simp)
          · injection h with h; rw [← h]; simp [hkind]

theorem fromNodeDataAndChildren_goodDef {nodeData : Option (PyObj α × PyObj α)}
    {ds : List (PyTreeDef α)} {f : PyTreeDef α} {root : Node α} (hds : ∀ d ∈ ds, GoodDef py reg d)
    (hroot : rootOf py reg nodeData ds.length = .ok root) (hfits : NodeFits py reg root)
    (h : fromNodeDataAndChildren py reg nodeData ds = .ok f) : GoodDef py reg f := by
  obtain ⟨ts, hts, hlen, hflat, hsum⟩ := forest_of_goodDefs hds
  obtain ⟨harity, hleaf⟩ := rootOf_ok hroot
  unfold fromNodeDataAndChildren at h
  rw [hroot, hflat, hsum] at h
  injection h with h
  refine ⟨.node
      { root with
        numLeaves := if nodeData.isNone then (leafCount (postorders ts) : ℤ) + 1
          else leafCount (postorders ts)
        numNodes := (postorders ts).length + 1 } ts,
    .node (hfits.of_plain rfl) hts ?_ ?_ rfl, ?_⟩
  · simp [Node.children, harity, hlen]
  · rw [leafCount_append, leafCount_cons]
    by_cases hnone : nodeData = none
    · simp [hnone, hleaf.mpr hnone, leafCount]
    · have hk : root.kind ≠ .leaf := fun hk => hnone (hleaf.mp hk)
      simp [hnone, hk, leafCount]
  · rw [← h, postorder_node]

/-- **Whatever the constructors make is good.** -/
theorem Produced.goodDef {memory : ℕ} {d : PyTreeDef α} (h : Produced py reg memory d) :
    GoodDef py reg d := by
  induction h with
  | flatten hx h => exact flatten_goodDef hx h
  | compose _ _ h ihd ihe => exact compose_goodDef ihd ihe h
  | tuple hr hk _ h ih => exact tuple_goodDef hr hk ih h
  | children _ h he ih => exact children_goodDef ih h he
  | fromNodeDataAndChildren _ hroot hfits h ih =>
      exact fromNodeDataAndChildren_goodDef ih hroot hfits h

/-! ## The two directions -/

/-- Every leaf of the definition takes one leaf, and nothing else does. -/
theorem runNodes_leaves : ∀ {ns : List (Node α)} {agenda leaves agenda' rest : List (PyObj α)},
    runNodes py agenda leaves ns = .ok (agenda', rest) →
    leaves.length = leafCount ns + rest.length
  | [], agenda, leaves, agenda', rest, h => by
      injection h with h; injection h with _ h
      rw [h]; simp [leafCount]
  | n :: ns, agenda, leaves, agenda', rest, h => by
      unfold runNodes at h
      rw [run_cons] at h
      obtain ⟨⟨st, s'⟩, hs, h⟩ := bind_ok.mp h
      obtain ⟨_, cs, o, _, _, hb, _⟩ := step_ok hs
      have ih := runNodes_leaves h
      rw [leafCount_cons]
      by_cases hk : n.kind = .leaf
      · cases leaves with
        | nil => simp [build, hk] at hb
        | cons x leaves =>
            rw [build_leaf hk] at hb
            injection hb with hb; injection hb with _ hb
            rw [if_pos hk, List.length_cons, hb, ih]; omega
      · rw [build_node hk] at hb
        obtain ⟨o', _, hb⟩ := bind_ok.mp hb
        injection hb with hb; injection hb with _ hb
        rw [if_neg hk, hb, ih]; omega

/-- What a good definition does with leaves. -/
structure RoundTrips (py : Runtime α) (reg : PyTreeRegistry α) (d : PyTreeDef α) : Prop where
  /-- The nodes are one tree, and the counts at every node are those of its subtree. -/
  counts : ∃ t, d.traversal = t.postorder ∧ Ranked Node.children t ∧ Counted t
  /-- Any other number of leaves is rejected. -/
  rejects : ∀ leaves : List (PyObj α), (leaves.length : ℤ) ≠ d.numLeaves →
    ∃ e, d.unflatten py leaves = .error e
  /-- The right number of leaf objects makes an object that flattens to them and to `d`. -/
  flatten : ∀ leaves : List (PyObj α), (leaves.length : ℤ) = d.numLeaves →
    (∀ x ∈ leaves, LeafObject reg x) → ∃ x, d.unflatten py leaves = .ok x ∧
      ∃ k, ∀ fuel, k ≤ fuel → flatten py reg none fuel x = .ok (leaves, d)

theorem GoodDef.roundTrips {d : PyTreeDef α} (h : GoodDef py reg d) : RoundTrips py reg d := by
  obtain ⟨t, ht, rfl⟩ := h
  have hnum := GoodDef.numLeaves reg ht.counted
  have hshape : ∀ n ∈ t.postorder, NodeShape reg n := fun n hn => (ht.fits n hn).toNodeShape
  refine ⟨⟨t, rfl, ht.ranked, ht.counted⟩, fun leaves hlen => ?_, fun leaves hlen hls => ?_⟩
  · cases hx : PyTreeDef.unflatten py { registry := reg, traversal := t.postorder } leaves with
    | error e => exact ⟨e, rfl⟩
    | ok x =>
        have key := runNodes_leaves ((unflatten_iff hshape).mp hx)
        rw [hnum] at hlen
        exact absurd (by exact_mod_cast key) hlen
  · rw [hnum] at hlen
    obtain ⟨x, hx, hb⟩ := ht.builds leaves hls (by exact_mod_cast hlen)
    refine ⟨x, (unflatten_iff hshape).mpr ?_, flatten_of_flattens hx⟩
    simpa using hb [] []

/-- `{"b": 1, "a": (2, None)}`. -/
def twoKeys : PyObj ℕ :=
  .dict [(.str "b", .atom 0 1), (.str "a", .tuple [.atom 0 2, .none])]

/-- What it flattens to. -/
def twoKeysDef : PyTreeDef ℕ where
  registry := builtinRegistry
  traversal :=
    [{ numLeaves := 1, numNodes := 1 },
     { kind := .none, numNodes := 1 },
     { kind := .tuple, arity := 2, numLeaves := 1, numNodes := 3 },
     { numLeaves := 1, numNodes := 1 },
     { kind := .dict, arity := 2, sortedDictKeys := [.str "a", .str "b"], numLeaves := 2,
       numNodes := 5 }]

theorem twoKeys_isPytree : IsPytree (.plain []) builtinRegistry none twoKeys := by
  have leafObj : ∀ n, IsPytree (.plain []) builtinRegistry none (.atom 0 n : PyObj ℕ) := fun n =>
    .leaf (.inr ⟨rfl, rfl⟩)
  have invertible : ∀ x : PyObj ℕ, (∀ c xs, x ≠ .namedTuple c xs) →
      (builtinRegistry.kindOfObject x).2 = none →
      ((builtinRegistry.kindOfObject x).1 = .dict →
        OrderedKeys (.plain []) (x.dictItems.map Prod.fst)) →
      Invertible (.plain []) builtinRegistry x := fun x hnt hc hd =>
    { dict := hd
      namedTuple := fun c xs _ h => absurd h (hnt c xs)
      custom := fun r _ _ h => by rw [h] at hc; exact nomatch hc
      custom' := fun r _ _ h => by rw [h] at hc; exact nomatch hc
      dataclass := fun r _ _ h => by rw [h] at hc; exact nomatch hc
      dataclass' := fun r _ _ h => by rw [h] at hc; exact nomatch hc }
  have keys : OrderedKeys (.plain [] : Runtime ℕ) [.str "b", .str "a"] := by
    have hab : Below (.plain [] : Runtime ℕ) (.str "a") (.str "b") := ⟨rfl, rfl, rfl⟩
    refine ⟨by simpa using .inr hab, ?_⟩
    intro k hk l hl m hm hkl hlm
    simp only [List.mem_cons, List.not_mem_nil, or_false] at hk hl hm
    -- No key is below itself, and "b" is not below "a".
    rcases hk with rfl | rfl <;> rcases hl with rfl | rfl <;> rcases hm with rfl | rfl <;>
      first | exact hab | exact absurd hkl.lt (by decide) | exact absurd hlm.lt (by decide)
  refine .node rfl (invertible _ (by simp [twoKeys]) rfl fun _ => keys) rfl
    (by decide) ?_
  intro c hc
  simp only [List.map_cons, List.map_nil, List.mem_cons, List.not_mem_nil, or_false] at hc
  rcases hc with rfl | rfl
  · refine .node rfl (invertible _ (by simp) rfl (fun h => absurd h (by decide))) rfl (by decide) ?_
    intro c hc
    simp only [PyObj.tupleItems, List.mem_cons, List.not_mem_nil, or_false] at hc
    rcases hc with rfl | rfl
    · exact leafObj 2
    · exact .node rfl (invertible _ (by simp) rfl (fun h => absurd h (by decide))) rfl (by decide)
        (by simp)
  · exact leafObj 1

theorem twoKeys_flatten : flatten (.plain []) builtinRegistry none 3 twoKeys =
    .ok ([.atom 0 2, .atom 0 1], twoKeysDef) := rfl

/-- What a leaf flattens to. -/
def leafDef : PyTreeDef ℕ where
  registry := builtinRegistry
  traversal := [{ numLeaves := 1, numNodes := 1 }]

/-- A `None` with a child, which `FromNodeDataAndChildren` makes when asked to. -/
def noneOverLeaf : PyTreeDef ℕ where
  registry := builtinRegistry
  traversal :=
    [{ numLeaves := 1, numNodes := 1 },
     { kind := .none, arity := 1, numLeaves := 1, numNodes := 2 }]

end JaxDas.Pytree
