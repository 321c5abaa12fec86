import Mathlib.Algebra.Order.BigOperators.Group.List
import Mathlib.Algebra.Order.Group.Nat
import JaxDas.Pytree.Proto

/-!
# When deserializing is sound

A message that passes the checks of the reader has an outcome that `scan` names.
If the finished subtrees are overdrawn, the recount asks for an absurd amount of
memory and raises, by luck; if they are used up exactly, it reads past the end of
an empty vector; and if they suffice, whatever was read is returned — a forest of
two trees, a leaf with children, a dictionary short of keys.

`deserialize_iff` puts this together. What `SerializeTo` writes is always read back.
-/

namespace JaxDas.Pytree

open PostOrder

variable {α : Type} {py : Runtime α} {reg : PyTreeRegistry α}

/-! ## Nodes that can be written can be built -/

theorem makeNode_serializable {n : Node α} {cs : List (PyObj α)} (hn : NodeShape reg n)
    (hs : n.kind.Serializable) (hk : n.kind ≠ .leaf) (hlen : cs.length = n.children) :
    ∃ x, makeNode py n cs = .ok x := by
  have harity : (cs.length : ℤ) = n.arity := by
    rw [hlen, Node.children, Int.toNat_of_nonneg hn.arity]
  obtain ⟨h₁, h₂, h₃⟩ := hs
  unfold makeNode
  rw [if_neg (not_not.mpr harity)]
  cases hkind : n.kind with
  | leaf => exact absurd hkind hk
  | none => exact ⟨_, rfl⟩
  | tuple => exact ⟨_, rfl⟩
  | list => exact ⟨_, rfl⟩
  | dict =>
      have hkeys := hn.dict hkind
      dsimp only
      rw [if_neg (by rw [hkeys, hlen]; omega)]
      exact ⟨_, rfl⟩
  | namedTuple => exact absurd hkind h₁
  | custom => exact absurd hkind h₂
  | dataclass => exact absurd hkind h₃

/-- A tree of such nodes builds an object out of any leaves, as many as it has. -/
theorem builds_serializable (py : Runtime α) {t : LabelTree (Node α)} : Ranked Node.children t →
    (∀ n ∈ t.postorder, NodeShape reg n) → (∀ n ∈ t.postorder, n.kind.Serializable) →
    ∀ (ls : List (PyObj α)), ls.length = leafCount t.postorder →
    ∃ x, Builds py t.postorder ls [x] := by
  induction t with
  | node n ts ih =>
      intro hrank hshape hser ls hlen
      have hn := hshape n (by rw [postorder_node]; simp)
      by_cases hk : n.kind = .leaf
      · have h0 : n.children = 0 := by rw [Node.children, hn.empty (.inl hk)]; rfl
        obtain rfl : ts = [] := List.eq_nil_of_length_eq_zero (by rw [hrank.length, h0])
        rw [postorder_node] at hlen ⊢
        obtain ⟨x, rfl⟩ := List.length_eq_one_iff.mp (hlen.trans (by simp [leafCount, hk]))
        exact ⟨x, Builds.leaf hk h0 x⟩
      · -- The leaves of the children, in order.
        have children : ∀ us : List (LabelTree (Node α)), (∀ u ∈ us, u ∈ ts) → ∀ ls : List (PyObj α),
            ls.length = leafCount (postorders us) →
            ∃ xs, xs.length = us.length ∧ Builds py (postorders us) ls xs := by
          intro us
          induction us with
          | nil =>
              intro _ ls hlen
              obtain rfl : ls = [] := List.eq_nil_of_length_eq_zero hlen
              exact ⟨[], rfl, .nil⟩
          | cons u us ihu =>
              intro hus ls hlen
              have hu := hus u List.mem_cons_self
              have hmem : ∀ m ∈ u.postorder, m ∈ (LabelTree.node n ts).postorder := fun m hm => by
                rw [postorder_node]
                exact List.mem_append_left _ (List.mem_flatMap.mpr ⟨u, hu, hm⟩)
              rw [postorders_cons, leafCount_append] at hlen
              obtain ⟨x, hx⟩ := ih u hu (hrank.child hu) (fun m hm => hshape m (hmem m hm))
                (fun m hm => hser m (hmem m hm)) (ls.take (leafCount u.postorder))
                (by rw [List.length_take]; omega)
              obtain ⟨xs, hxs, hbxs⟩ := ihu (fun w hw => hus w (List.mem_cons_of_mem _ hw))
                (ls.drop (leafCount u.postorder)) (by rw [List.length_drop]; omega)
              have hb := hx.append hbxs
              rw [List.take_append_drop] at hb
              exact ⟨x :: xs, by simp [hxs], hb⟩
        have hlen' : ls.length = leafCount (postorders ts) := by
          rw [hlen, postorder_node, leafCount_append]
          simp [leafCount, hk]
        obtain ⟨xs, hxs, hb⟩ := children ts (fun _ h => h) ls hlen'
        have hxlen : xs.length = n.children := by rw [hxs, hrank.length]
        obtain ⟨x, hx⟩ := makeNode_serializable hn (hser n (by rw [postorder_node]; simp)) hk hxlen
        exact ⟨x, by rw [postorder_node]; exact hb.node hk hxlen hx⟩

/-- One counted tree of such nodes is a valid definition. -/
theorem validDef_of_tree {t : LabelTree (Node α)} (hrank : Ranked Node.children t) (hc : Counted t)
    (hshape : ∀ n ∈ t.postorder, NodeShape reg n)
    (hser : ∀ n ∈ t.postorder, n.kind.Serializable) :
    ValidDef py { registry := reg, traversal := t.postorder } where
  tree := ⟨t, rfl, hrank, hc⟩
  arity n hn := (hshape n hn).arity
  empty n hn := (hshape n hn).empty
  keys n hn := (hshape n hn).dict
  unflatten leaves hlen := by
    rw [GoodDef.numLeaves reg hc] at hlen
    obtain ⟨x, hx⟩ := builds_serializable py hrank hshape hser leaves (by exact_mod_cast hlen)
    exact ⟨x, (unflatten_iff hshape).mpr (by simpa using hx [] [])⟩

/-! ## Any message -/

theorem arities_eq {ns : List PyTreeNodeDefProto} {ms : List (Node α)}
    (h : List.Forall₂ ReadNode ns ms) :
    ms.map Node.arity = ns.map fun n => n.arity.toInt := by
  induction h with
  | nil => rfl
  | cons hnm _ ih => rw [List.map_cons, List.map_cons, ih, hnm.arity]

/-- The nodes read are a forest of the arities written. -/
theorem isForest_read {ns : List PyTreeNodeDefProto} {ms : List (Node α)} {k : ℕ}
    (h : List.Forall₂ ReadNode ns ms) :
    IsForest (fun n : PyTreeNodeDefProto => n.arity.toInt.toNat) k ns ↔
      IsForest Node.children k ms := by
  constructor
  · exact fun hns => hns.of_forall₂ (h.imp fun n m hnm => by rw [Node.children, hnm.arity])
  · exact fun hms => hms.of_forall₂ (h.flip.imp fun m n hnm => by rw [Node.children, hnm.arity])

/-- A well-shaped node, from a message whose nodes are well-formed. -/
theorem ReadNode.shape {n : PyTreeNodeDefProto} {m : Node α} (h : ReadNode n m)
    (harity : 0 ≤ n.arity.toInt) (hempty : n.type = .leaf ∨ n.type = .none → n.arity.toInt = 0)
    (hkeys : n.type = .dict → n.dictKeys.length = n.arity.toInt.toNat) : NodeShape reg m where
  arity := h.arity ▸ harity
  empty hk := by rw [h.arity]; exact hempty (hk.imp h.leaf.mp h.none.mp)
  dict hk := by rw [h.keys hk, h.arity]; exact hkeys (h.dict.mp hk)
  keys := h.noKeys
  namedTuple hk := absurd hk h.serializable.1
  custom hk := hk.elim (fun hk => absurd hk h.serializable.2.1) fun hk =>
    absurd hk h.serializable.2.2
  dataclass _ hk := absurd hk h.serializable.2.2
  noData _ _ _ := h.noData
  noCustom _ _ := h.noCustom

theorem forall₂_plain {ns ms : List (Node α)} (h : ns.map Node.plain = ms.map Node.plain) :
    List.Forall₂ (fun n m : Node α => n.plain = m.plain) ns ms := by
  have key : List.Forall₂ Eq (ns.map Node.plain) (ms.map Node.plain) := by
    rw [h]; exact List.forall₂_refl _
  simpa [List.forall₂_map_left_iff, List.forall₂_map_right_iff] using key

theorem map_plain {ns ms : List (Node α)}
    (h : List.Forall₂ (fun n m : Node α => n.plain = m.plain) ns ms) :
    ns.map Node.plain = ms.map Node.plain := by
  induction h with
  | nil => rfl
  | cons h _ ih => rw [List.map_cons, List.map_cons, h, ih]

theorem forall₂_mem_right {β γ : Type} {R : β → γ → Prop} {xs : List β} {ys : List γ}
    (h : List.Forall₂ R xs ys) {y : γ} (hy : y ∈ ys) : ∃ x ∈ xs, R x y := by
  induction h with
  | nil => exact absurd hy (by simp)
  | cons hxy _ ih =>
      rcases List.mem_cons.mp hy with rfl | hy
      · exact ⟨_, List.mem_cons_self, hxy⟩
      · obtain ⟨x, hx, hR⟩ := ih hy
        exact ⟨x, List.mem_cons_of_mem _ hx, hR⟩

/-- What was read of well-formed nodes recounts to a valid definition. -/
theorem validDef_of_wellFormed {memory : ℕ} {input : PyTreeDefProto} {ms r : List (Node α)}
    (hread : List.Forall₂ ReadNode input.nodes ms) (hw : input.WellFormed)
    (h : setNumLeavesAndNumNodes memory ms = .ok r) :
    ValidDef py { registry := reg, traversal := r } := by
  have hshape : ∀ m ∈ ms, NodeShape reg m := fun m hm =>
    have ⟨n, hn, hnm⟩ := forall₂_mem_right hread hm
    hnm.shape (hw.arity n hn) (hw.empty n hn) (hw.keys n hn)
  obtain ⟨ts, hlen, hrank, rfl⟩ := (isForest_read hread).mp hw.tree
  obtain ⟨us, hus, rfl⟩ := setNumLeavesAndNumNodes_ok hrank hshape h
  obtain ⟨u, rfl⟩ := List.length_eq_one_iff.mp (hus.length.trans hlen)
  have hplain := hus.plain
  rw [postorders_cons, postorders_nil, List.append_nil] at hplain ⊢
  have hsame : ∀ m ∈ u.postorder, ∃ m' ∈ postorders ts, m'.plain = m.plain := fun m hm =>
    List.mem_map.mp (hplain ▸ List.mem_map_of_mem hm)
  refine validDef_of_tree (hus.ranked u (by simp)) (hus.counted u (by simp)) (fun m hm => ?_)
    fun m hm => ?_
  · obtain ⟨m', hm', he⟩ := hsame m hm
    exact (hshape m' hm').of_plain he.symm
  · obtain ⟨m', hm', he⟩ := hsame m hm
    obtain ⟨n, _, hnm⟩ := forall₂_mem_right hread hm'
    rw [← Node.kind_eq he]
    exact hnm.serializable

/-- A valid definition was read from well-formed nodes. -/
theorem wellFormed_of_validDef {input : PyTreeDefProto} {ms r : List (Node α)}
    (hread : List.Forall₂ ReadNode input.nodes ms) (hplain : r.map Node.plain = ms.map Node.plain)
    (h : ValidDef py { registry := reg, traversal := r }) : input.WellFormed := by
  have hsame := forall₂_plain hplain
  have hmem : ∀ n ∈ input.nodes, ∃ m' ∈ r, ∃ m, m'.plain = m.plain ∧ ReadNode n m := fun n hn => by
    obtain ⟨m, hm, hnm⟩ := forall₂_mem_right hread.flip hn
    obtain ⟨m', hm', he⟩ := forall₂_mem_right hsame hm
    exact ⟨m', hm', m, he, hnm⟩
  refine ⟨?_, fun n hn => ?_, fun n hn ht => ?_, fun n hn ht => ?_⟩
  · obtain ⟨t, ht, hrank, _⟩ := h.tree
    have hforest := isForest_postorder hrank
    rw [← ht] at hforest
    exact (isForest_read hread).mpr (hforest.of_forall₂ (hsame.imp fun _ _ he => Node.children_eq he))
  · obtain ⟨m', hm', m, he, hnm⟩ := hmem n hn
    rw [← hnm.arity, ← Node.arity_eq he]
    exact h.arity m' hm'
  · obtain ⟨m', hm', m, he, hnm⟩ := hmem n hn
    rw [← hnm.arity, ← Node.arity_eq he]
    refine h.empty m' hm' ?_
    rw [Node.kind_eq he]
    exact ht.imp hnm.leaf.mpr hnm.none.mpr
  · obtain ⟨m', hm', m, he, hnm⟩ := hmem n hn
    have hk : m.kind = .dict := hnm.dict.mpr ht
    rw [← hnm.keys hk, ← hnm.arity, ← Node.arity_eq he, ← Node.sortedDictKeys_eq he]
    exact h.keys m' hm' (Node.kind_eq he ▸ hk)

/-- Well-formed nodes never use up the finished subtrees exactly. -/
theorem scan_wellFormed {memory : ℕ} {input : PyTreeDefProto} {ms : List (Node α)}
    (hread : List.Forall₂ ReadNode input.nodes ms) (hw : input.WellFormed) :
    scan memory 0 (input.nodes.map fun n => n.arity.toInt) ≠ .undefined := by
  obtain ⟨ts, hlen, hrank, hms⟩ := (isForest_read hread).mp hw.tree
  obtain ⟨t, rfl⟩ := List.length_eq_one_iff.mp hlen
  rw [postorders_cons, postorders_nil, List.append_nil] at hms
  have hpos : ∀ m ∈ t.postorder, 0 ≤ m.arity := fun m hm => by
    obtain ⟨n, hn, hnm⟩ := forall₂_mem_right hread (hms ▸ hm)
    rw [hnm.arity]
    exact hw.arity n hn
  have key := scan_forest memory (hrank t (by simp)) hpos 0 [] (Int.le_refl 0)
  rw [List.append_nil, hms, arities_eq hread] at key
  rcases key with ⟨key, _⟩ | key <;> rw [key]
  · simp
  · simp [scan]

/-- The promise is kept for exactly the harmless messages. -/
theorem deserializesSoundly_iff (py : Runtime α) (memory : ℕ) (reg : PyTreeRegistry α)
    (input : PyTreeDefProto) :
    DeserializesSoundly py memory reg input ↔ input.Harmless memory := by
  cases hms : input.nodes.mapM (deserializeNode (α := α) input.internedStrings) with
  | error e =>
      -- The checks reject a node.
      obtain ⟨n, hn, he⟩ := mapM_error hms
      obtain ⟨hrej, hne⟩ := deserializeNode_error he
      rw [deserializesSoundly_error (by rw [deserializeFrom, hms]; rfl)]
      exact ⟨fun _ => .inl ⟨n, hn, hrej⟩, fun _ => hne⟩
  | ok ms =>
      have hread : List.Forall₂ ReadNode input.nodes ms :=
        (mapM_ok hms).imp fun n m h => (deserializeNode_ok h).1
      have haccept : ¬ ∃ n ∈ input.nodes, n.Rejected input.internedStrings := by
        rintro ⟨n, hn, hrej⟩
        obtain ⟨m, _, hm⟩ := mapM_ok_of_mem hms hn
        exact (deserializeNode_ok hm).2 hrej
      have hbound : ∀ m ∈ ms, -2 ^ 31 ≤ m.arity ∧ m.arity < 2 ^ 31 := fun m hm => by
        obtain ⟨n, _, hnm⟩ := forall₂_mem_right hread hm
        rw [hnm.arity]
        exact ⟨n.arity.le_toInt, n.arity.toInt_lt⟩
      have hscan := setCounts_scan memory ms [] 0 0 (Nat.zero_le _) hbound
      rw [arities_eq hread] at hscan
      have hfrom : deserializeFrom memory reg input = (setCounts memory [] 0 0 ms).bind fun nodes =>
          .ok { registry := reg, traversal := nodes } := by rw [deserializeFrom, hms]; rfl
      unfold PyTreeDefProto.Harmless
      split at hscan
      · -- The recount raises.
        rename_i hs
        rw [hscan] at hfrom
        rw [deserializesSoundly_error hfrom]
        exact ⟨fun _ => .inr (.inl hs), fun _ => by simp⟩
      · -- It breaks down.
        rename_i hs
        rw [hscan] at hfrom
        rw [deserializesSoundly_error hfrom]
        refine ⟨fun h => absurd rfl h, ?_⟩
        rintro (h | h | h)
        · exact absurd h haccept
        · exact absurd (hs.symm.trans h) (by simp)
        · exact absurd hs (scan_wellFormed hread h)
      · -- It succeeds, whatever the nodes are.
        rename_i hs
        obtain ⟨r, hr, hplain⟩ := hscan
        rw [hr] at hfrom
        rw [deserializesSoundly_ok hfrom]
        refine ⟨fun h => .inr (.inr (wellFormed_of_validDef hread hplain h)), ?_⟩
        rintro (h | h | h)
        · exact absurd h haccept
        · exact absurd (hs.symm.trans h) (by simp)
        · exact validDef_of_wellFormed hread h hr

/-! ## What the writer writes -/

/-- A tree of `None`, leaves, tuples, lists and dictionaries with string keys. -/
structure PlainDef (reg : PyTreeRegistry α) (memory : ℕ) (d : PyTreeDef α) : Prop where
  tree : ∃ t, d.traversal = t.postorder ∧ Ranked Node.children t ∧ Counted t
  shape : ∀ n ∈ d.traversal, NodeShape reg n
  serializable : ∀ n ∈ d.traversal, n.kind.Serializable
  strings : ∀ n ∈ d.traversal, ∀ k ∈ n.sortedDictKeys, ∃ s, k = .str s
  /-- The number of nodes is an `int`, and there is memory for as many entries. -/
  size : d.traversal.length < 2 ^ 31 ∧ d.traversal.length ≤ memory

theorem internStr_ok (key : String) (strings : List String) :
    strings <+: (internStr key strings).2 ∧
      (internStr key strings).2.length ≤ strings.length + 1 ∧
      ∀ all, (internStr key strings).2 <+: all → all.length ≤ 2 ^ 32 →
        dictKey (α := α) all (internStr key strings).1 = .ok (.str key) := by
  unfold internStr
  split
  · rename_i hmem
    refine ⟨List.prefix_rfl, Nat.le_succ _, fun all hall hlen => ?_⟩
    have hidx := List.idxOf_lt_length_of_mem hmem
    obtain ⟨more, rfl⟩ := hall
    have hget : (strings ++ more)[strings.idxOf key]? = some key := by
      rw [List.getElem?_append_left hidx, List.getElem?_eq_getElem hidx, List.getElem_idxOf hidx]
    have hlen' : strings.length + more.length ≤ 2 ^ 32 := by simpa using hlen
    simp only [dictKey, BitVec.toNat_ofNat]
    rw [Nat.mod_eq_of_lt (by omega), hget]
  · refine ⟨List.prefix_append _ _, by simp, fun all hall hlen => ?_⟩
    obtain ⟨more, rfl⟩ := hall
    have hget : (strings ++ [key] ++ more)[strings.length]? = some key := by simp
    simp only [dictKey, BitVec.toNat_ofNat]
    simp only [List.length_append, List.length_singleton] at hlen
    rw [Nat.mod_eq_of_lt (by omega), hget]

/-- The ids of string keys, read back from any list that extends the interned strings. -/
theorem internKeys_ok : ∀ {keys : List (PyObj α)} (strings : List String),
    (∀ k ∈ keys, ∃ s, k = .str s) → ∃ ids strings', internKeys keys strings = .ok (ids, strings') ∧
      strings <+: strings' ∧ strings'.length ≤ strings.length + keys.length ∧
      ∀ all, strings' <+: all → all.length ≤ 2 ^ 32 → ids.mapM (dictKey all) = .ok keys
  | [], strings, _ => ⟨[], strings, rfl, List.prefix_rfl, Nat.le_refl _, fun _ _ _ => rfl⟩
  | k :: keys, strings, h => by
      obtain ⟨s, rfl⟩ := h k List.mem_cons_self
      obtain ⟨hpre, hlen, hread⟩ := internStr_ok (α := α) s strings
      obtain ⟨ids, strings', hids, hpre', hlen', hread'⟩ :=
        internKeys_ok (internStr s strings).2 fun k hk => h k (List.mem_cons_of_mem _ hk)
      refine ⟨_, strings', by unfold internKeys; rw [hids]; rfl, hpre.trans hpre',
        by rw [List.length_cons]; omega, fun all hall hmax => ?_⟩
      rw [List.mapM_cons, hread all (hpre'.trans hall) hmax, hread' all hall hmax]
      rfl

/-- One node, written and read back, is the node without its counts. -/
theorem serializeNode_ok {n : Node α} (strings : List String) (hn : NodeShape reg n)
    (hs : n.kind.Serializable) (hkeys : ∀ k ∈ n.sortedDictKeys, ∃ s, k = .str s)
    (hmax : n.arity < 2 ^ 31) : ∃ m strings', serializeNode n strings = .ok (m, strings') ∧
      strings <+: strings' ∧ strings'.length ≤ strings.length + n.children ∧
      ∀ all, strings' <+: all → all.length ≤ 2 ^ 32 → deserializeNode all m = .ok n.plain := by
  have harity : (BitVec.ofInt 32 n.arity).toInt = n.arity := by
    have h0 := hn.arity
    rw [BitVec.toInt_ofInt]
    exact Int.bmod_eq_of_le (by omega) (by omega)
  obtain ⟨h₁, h₂, h₃⟩ := hs
  have hnone := hn.noData h₁ h₂ h₃
  have hcustom := hn.noCustom h₂ h₃
  -- Nodes of all kinds but dictionaries consist of their kind and their arity.
  have plain : n.kind ≠ .dict → n.plain = { kind := n.kind, arity := n.arity } := fun hk => by
    rw [Node.plain, hn.keys hk, hnone, hcustom]
  unfold serializeNode
  cases hk : n.kind with
  | leaf =>
      exact ⟨_, strings, rfl, List.prefix_rfl, by omega, fun _ _ _ => by
        rw [plain (by simp [hk]), hk, deserializeNode, harity]⟩
  | none =>
      exact ⟨_, strings, rfl, List.prefix_rfl, by omega, fun _ _ _ => by
        rw [plain (by simp [hk]), hk, deserializeNode, harity]⟩
  | tuple =>
      exact ⟨_, strings, rfl, List.prefix_rfl, by omega, fun _ _ _ => by
        rw [plain (by simp [hk]), hk, deserializeNode, harity]⟩
  | list =>
      exact ⟨_, strings, rfl, List.prefix_rfl, by omega, fun _ _ _ => by
        rw [plain (by simp [hk]), hk, deserializeNode, harity]⟩
  | dict =>
      obtain ⟨ids, strings', hids, hpre, hlen, hread⟩ := internKeys_ok strings hkeys
      refine ⟨_, strings', by dsimp only; rw [hids]; rfl, hpre, ?_, fun all hall hmax => ?_⟩
      · rw [Node.children, ← hn.dict hk]
        exact hlen
      · simp only [deserializeNode, hread all hall hmax, harity]
        rw [Node.plain, hnone, hcustom, hk]
        rfl
  | namedTuple => exact absurd hk h₁
  | custom => exact absurd hk h₂
  | dataclass => exact absurd hk h₃

theorem serializeNodes_ok : ∀ {ns : List (Node α)} (strings : List String),
    (∀ n ∈ ns, NodeShape reg n) → (∀ n ∈ ns, n.kind.Serializable) →
    (∀ n ∈ ns, ∀ k ∈ n.sortedDictKeys, ∃ s, k = .str s) → (∀ n ∈ ns, n.arity < 2 ^ 31) →
    ∃ ms strings', serializeNodes ns strings = .ok (ms, strings') ∧ strings <+: strings' ∧
      strings'.length ≤ strings.length + (ns.map Node.children).sum ∧
      ∀ all, strings' <+: all → all.length ≤ 2 ^ 32 →
        ms.mapM (deserializeNode all) = .ok (ns.map Node.plain)
  | [], strings, _, _, _, _ => ⟨[], strings, rfl, List.prefix_rfl, Nat.le_refl _, fun _ _ _ => rfl⟩
  | n :: ns, strings, hn, hs, hk, hm => by
      obtain ⟨m, strings', hm', hpre, hlen, hread⟩ := serializeNode_ok strings
        (hn n List.mem_cons_self) (hs n List.mem_cons_self) (hk n List.mem_cons_self)
        (hm n List.mem_cons_self)
      obtain ⟨ms, strings'', hms, hpre', hlen', hread'⟩ := serializeNodes_ok strings'
        (fun x hx => hn x (List.mem_cons_of_mem _ hx)) (fun x hx => hs x (List.mem_cons_of_mem _ hx))
        (fun x hx => hk x (List.mem_cons_of_mem _ hx)) fun x hx => hm x (List.mem_cons_of_mem _ hx)
      refine ⟨m :: ms, strings'', by unfold serializeNodes; rw [hm']; dsimp [bind, Except.bind]; rw [hms],
        hpre.trans hpre', by rw [List.map_cons, List.sum_cons]; omega, fun all hall hmax => ?_⟩
      rw [List.mapM_cons, hread all (hpre'.trans hall) hmax, hread' all hall hmax]
      rfl

/-! ## Written and read -/

theorem eq_of_forall₂ {β : Type} {R : β → β → Prop} {xs ys : List β} (h : List.Forall₂ R xs ys)
    (heq : ∀ x ∈ xs, ∀ y ∈ ys, R x y → x = y) : xs = ys := by
  induction h with
  | nil => rfl
  | @cons x y xs ys hxy _ ih =>
      rw [heq x List.mem_cons_self y List.mem_cons_self hxy,
        ih fun a ha b hb => heq a (List.mem_cons_of_mem _ ha) b (List.mem_cons_of_mem _ hb)]

/-- Counted trees are determined by their nodes without the counts. -/
theorem Counted.eq_of_plain {t : LabelTree (Node α)} : ∀ {u : LabelTree (Node α)}, Ranked Node.children t →
    Ranked Node.children u → Counted t → Counted u →
    t.postorder.map Node.plain = u.postorder.map Node.plain → t = u := by
  induction t with
  | node n ts ih =>
      rintro ⟨m, us⟩ ht hu (⟨hl, hs, hts⟩) (⟨hl', hs', hus⟩) h
      rw [leafCount_plain h, ← hl'] at hl
      rw [length_plain h, ← hs'] at hs
      rw [postorder_node, postorder_node, List.map_append, List.map_append] at h
      obtain ⟨hrest, hnm⟩ := List.append_inj' h rfl
      have hnm : n.plain = m.plain := List.singleton_inj.mp hnm
      have hplain : List.Forall₂ (fun a b : Node α => a.plain = b.plain) (postorders ts)
          (postorders us) := forall₂_plain hrest
      have hrows := forall₂_of_postorders (fun _ _ he => Node.children_eq he)
        (fun _ hmem => ht.child hmem) (fun _ hmem => hu.child hmem) hplain
      have hchildren : ts = us := eq_of_forall₂ hrows fun t hmem u hmem' htu =>
        ih t hmem (ht.child hmem) (hu.child hmem') (hts t hmem) (hus u hmem') (map_plain htu)
      rw [hchildren, ← n.counts_plain, ← m.counts_plain, hnm, hl, hs]

/-- Recounting the nodes of a counted tree finds its counts again. -/
theorem setNumLeavesAndNumNodes_plain {memory : ℕ} {t : LabelTree (Node α)}
    (hrank : Ranked Node.children t) (hcount : Counted t)
    (hshape : ∀ n ∈ t.postorder, NodeShape reg n) (hsmall : ∀ n ∈ t.postorder, n.arity < 2 ^ 31)
    (hsize : t.postorder.length ≤ min memory vectorMax) :
    setNumLeavesAndNumNodes memory (t.postorder.map Node.plain) = .ok t.postorder := by
  have hforest : IsForest Node.children 1 (t.postorder.map Node.plain) :=
    (isForest_postorder hrank).of_forall₂
      (List.forall₂_map_right_iff.mpr (List.forall₂_same.mpr fun _ _ => rfl))
  have hshape' : ∀ n ∈ t.postorder.map Node.plain, NodeShape reg n := fun n hn => by
    obtain ⟨m, hm, rfl⟩ := List.mem_map.mp hn
    exact (hshape m hm).setCounts 0 0
  -- There is memory for all the nodes, so the recount succeeds.
  obtain ⟨r, hr⟩ : ∃ r, setNumLeavesAndNumNodes memory (t.postorder.map Node.plain) = .ok r := by
    have hscan := setCounts_scan memory (t.postorder.map Node.plain) [] 0 0 (Nat.zero_le _) fun n hn => by
        obtain ⟨m, hm, rfl⟩ := List.mem_map.mp hn
        have h0 : 0 ≤ m.arity := (hshape m hm).arity
        exact ⟨by show (-2 ^ 31 : ℤ) ≤ m.arity; omega, hsmall m hm⟩
    have hfits : scan (min memory vectorMax) 0 ((t.postorder.map Node.plain).map Node.arity) =
        .fits := by
      rw [List.map_map]
      have key := scan_forest (min memory vectorMax) hrank
        (fun n hn => (hshape n hn).arity) 0 [] (Int.le_refl 0)
      rw [List.append_nil] at key
      rcases key with ⟨_, hlt⟩ | key
      · omega
      · exact key
    rw [List.length_nil, Int.natCast_zero, hfits] at hscan
    obtain ⟨r, hr, _⟩ := hscan
    exact ⟨r, hr⟩
  obtain ⟨ts, hlen, hts, hpost⟩ := hforest
  rw [hr]
  rw [← hpost] at hr hshape'
  obtain ⟨us, hus, rfl⟩ := setNumLeavesAndNumNodes_ok hts hshape' hr
  obtain ⟨u, rfl⟩ := List.length_eq_one_iff.mp (hus.length.trans hlen)
  have hplain := hus.plain
  rw [hpost, List.map_map, postorders_cons, postorders_nil, List.append_nil] at hplain
  have hu : u = t := Counted.eq_of_plain (hus.ranked u (by simp)) hrank (hus.counted u (by simp))
    hcount hplain
  rw [hu, postorders_cons, postorders_nil, List.append_nil]

/-- What was written is read back. -/
theorem PlainDef.roundTrip {memory : ℕ} {d : PyTreeDef α} (h : PlainDef reg memory d) :
    ∃ p, d.serializeTo = .ok p ∧
      deserializeFrom memory reg p = .ok { registry := reg, traversal := d.traversal } := by
  obtain ⟨t, ht, hrank, hcount⟩ := h.tree
  have hsize := h.size
  have hsum := hrank.sum_arity
  have hshape := h.shape
  rw [ht] at hsize hshape
  have hsmall : ∀ n ∈ t.postorder, n.arity < 2 ^ 31 := fun n hn => by
    have hle := List.le_sum_of_mem (List.mem_map_of_mem (f := Node.children) hn)
    have h0 := (hshape n hn).arity
    simp only [Node.children] at hle hsum
    omega
  obtain ⟨ms, strings, hms, _, hlen, hread⟩ := serializeNodes_ok [] hshape
    (ht ▸ h.serializable) (ht ▸ h.strings) hsmall
  refine ⟨⟨ms, strings⟩, by unfold PyTreeDef.serializeTo; rw [ht, hms]; rfl, ?_⟩
  have hread' := hread strings List.prefix_rfl (by rw [List.length_nil] at hlen; omega)
  have hmax : (2 : ℕ) ^ 31 ≤ vectorMax := by decide
  unfold deserializeFrom
  rw [hread']
  show (setNumLeavesAndNumNodes memory (t.postorder.map Node.plain)).bind _ = _
  rw [setNumLeavesAndNumNodes_plain hrank hcount hshape hsmall (by omega), ht]
  rfl

/-- A definition of plain nodes is equal to itself, whatever the registries. -/
theorem PlainDef.eq_self {memory : ℕ} {d : PyTreeDef α} (h : PlainDef reg memory d) :
    PyTreeDef.eq py { registry := reg, traversal := d.traversal } d = .ok true := by
  refine (eq_iff h.shape h.shape).mpr (List.forall₂_same.mpr fun n hn => ?_)
  obtain ⟨h₁, h₂, h₃⟩ := h.serializable n hn
  refine ⟨rfl, rfl, List.forall₂_same.mpr fun k hk => ?_, fun x y hx => ?_, fun _ => rfl⟩
  · obtain ⟨s, rfl⟩ := h.strings n hn k hk
    rw [py.ne_str]; simp
  · rw [(h.shape n hn).noData h₁ h₂ h₃] at hx
    exact nomatch hx

/--
**Soundness of `DeserializeFrom`.** It raises or returns a valid definition exactly
for the harmless messages; and what `SerializeTo` wrote it reads back.
-/
theorem deserializeFrom_sound_iff (py : Runtime α) (memory : ℕ) (reg : PyTreeRegistry α) :
    (∀ input : PyTreeDefProto, DeserializesSoundly py memory reg input ↔ input.Harmless memory) ∧
    ∀ d : PyTreeDef α, PlainDef reg memory d → ∃ p d', d.serializeTo = .ok p ∧
      deserializeFrom memory reg p = .ok d' ∧ d'.eq py d = .ok true :=
  ⟨deserializesSoundly_iff py memory reg, fun _ h =>
    have ⟨p, hp, hd⟩ := h.roundTrip
    ⟨p, _, hp, hd, h.eq_self⟩⟩

/-- What the dictionary `{"a": 1, "b": None}` flattens to. -/
def pairDef : PyTreeDef ℕ where
  registry := builtinRegistry
  traversal :=
    [{ numLeaves := 1, numNodes := 1 },
     { kind := .none, numNodes := 1 },
     { kind := .dict, arity := 2, sortedDictKeys := [.str "a", .str "b"], numLeaves := 1,
       numNodes := 3 }]

theorem pairDef_plain : PlainDef builtinRegistry 3 pairDef where
  tree := by
    refine ⟨.node
        { kind := .dict, arity := 2, sortedDictKeys := [.str "a", .str "b"], numLeaves := 1,
          numNodes := 3 }
        [.node { numLeaves := 1, numNodes := 1 } [], .node { kind := .none, numNodes := 1 } []],
      by simp [pairDef], .node rfl ?_, .node (by simp [leafCount]) (by simp) ?_⟩
    · simpa using ⟨.node rfl (by simp), .node rfl (by simp)⟩
    · simpa using ⟨.node (by simp [leafCount]) (by simp) (by simp),
        .node (by simp [leafCount]) (by simp) (by simp)⟩
  shape n hn := by
    simp only [pairDef, List.mem_cons, List.not_mem_nil, or_false] at hn
    rcases hn with rfl | rfl | rfl <;> constructor <;> simp
  serializable n hn := by
    simp only [pairDef, List.mem_cons, List.not_mem_nil, or_false] at hn
    rcases hn with rfl | rfl | rfl <;> simp [PyTreeKind.Serializable]
  strings n hn := by
    simp only [pairDef, List.mem_cons, List.not_mem_nil, or_false] at hn
    rcases hn with rfl | rfl | rfl <;> simp
  size := by decide

theorem deserializeFrom_sound_pairDef :
    PlainDef builtinRegistry 3 pairDef ∧ ∃ p d', pairDef.serializeTo = .ok p ∧
      deserializeFrom 3 builtinRegistry p = .ok d' ∧ d'.eq (.plain []) pairDef = .ok true :=
  ⟨pairDef_plain, (deserializeFrom_sound_iff (.plain []) 3 builtinRegistry).2 pairDef pairDef_plain⟩

/-- Two leaves pass every check, and cannot be unflattened with the one leaf they count. -/
theorem twoLeaves_not_deserializesSoundly :
    ¬ DeserializesSoundly (.plain []) 10 builtinRegistry
      { nodes := [{ type := .leaf }, { type := .leaf }] } := by
  intro h
  have hread : deserializeFrom 10 builtinRegistry
      { nodes := [{ type := .leaf }, { type := .leaf }] } =
      .ok ⟨builtinRegistry, [{ numLeaves := 1, numNodes := 1 }, { numLeaves := 1, numNodes := 1 }]⟩ :=
    rfl
  obtain ⟨x, hx⟩ := ((deserializesSoundly_ok hread).mp h).unflatten [.none] rfl
  exact nomatch hx

end JaxDas.Pytree
