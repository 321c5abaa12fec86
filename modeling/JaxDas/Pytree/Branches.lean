import JaxDas.Pytree.Flatten
import JaxDas.Pytree.KeyPaths

/-!
# The branches of a tree

Both ways of flattening with keys walk the same branches (`Traverses`), and on every
branch an edge has two keys: the one `FlattenImpl` pushes and the one
`FlattenOneLevelImpl` returns. The two results are the two projections of one list of
branches (`flattenWithPath_ok`, `leavesByLevel_of_traverses`).
-/

namespace JaxDas.Pytree

open PostOrder

variable {α : Type}

/-- A child of a node, with the key `FlattenImpl` pushes and the one a single level has for it. -/
structure Edge (α : Type) where
  key : Key α
  levelKey : Key α
  child : PyObj α

/-- The child as `FlattenImpl` visits it. -/
def Edge.item (e : Edge α) : Key α × PyObj α := (e.key, e.child)

/-- The child as `FlattenOneLevelWithKeys` returns it. -/
def Edge.levelItem (e : Edge α) : Key α × PyObj α := (e.levelKey, e.child)

/-- A way to a leaf, and the leaf; each step with both of its keys. -/
abbrev Branch (α : Type) := List (Key α × Key α) × PyObj α

/-- The leaf with the keys that `FlattenImpl` pushed. -/
def Branch.pushed (b : Branch α) : List (Key α) × PyObj α := (b.1.map Prod.fst, b.2)

/-- The leaf with the keys of the single levels. -/
def Branch.byLevel (b : Branch α) : List (Key α) × PyObj α := (b.1.map Prod.snd, b.2)

/-- The branch, seen from further up. -/
def Branch.under (pre : List (Key α × Key α)) (b : Branch α) : Branch α := (pre ++ b.1, b.2)

/-- The names of the fields of a namedtuple. -/
def namedTupleNames (py : KeyRuntime α) (x : PyObj α) : Except PyErr (List String) := do
  let fields ← namedTupleFields py.toRuntime x
  fields.mapM py.str

section Relations

variable (py : KeyRuntime α) (reg : PyTreeRegistry α)

/-- The edges below the object `x`, whose node is `n`. -/
structure Edges (x : PyObj α) (n : Node α) (es : List (Edge α)) : Prop where
  expand : expandWithKeys py reg x = .ok (n, es.map Edge.item)
  kind : n.kind = (reg.kindOfObject x).1
  level : ∃ auxData, flattenOneLevelWithKeys py reg x = .ok (some (es.map Edge.levelItem, auxData))
  same : n.kind ≠ .namedTuple → ∀ e ∈ es, e.key = e.levelKey
  /-- A single level knows only the first name. -/
  names : n.kind = .namedTuple → ∃ names, namedTupleNames py x = .ok names ∧
    names.length = x.tupleItems.length ∧
    es = (names.zip x.tupleItems).map fun m => ⟨.getAttr m.1, .getAttr (names.headD ""), m.2⟩

mutual

/-- The branches from `x` to its leaves, in order. -/
inductive Traverses : PyObj α → List (Branch α) → Prop where
  | leaf {x : PyObj α} : (reg.kindOfObject x).1 = .leaf → Traverses x [([], x)]
  | node {x : PyObj α} {n : Node α} {es : List (Edge α)} {bs : List (Branch α)} :
      Edges py reg x n es → n.kind ≠ .leaf → TraversesAll es bs → Traverses x bs

/-- The branches that start with one of these edges. -/
inductive TraversesAll : List (Edge α) → List (Branch α) → Prop where
  | nil : TraversesAll [] []
  | cons {e : Edge α} {es : List (Edge α)} {b bs : List (Branch α)} :
      Traverses e.child b → TraversesAll es bs →
      TraversesAll (e :: es) (b.map (Branch.under [(e.key, e.levelKey)]) ++ bs)

end

/-- Flattening `x` gets to `y` with these keys on the path. -/
inductive Visits : PyObj α → List (Key α) → PyObj α → Prop where
  | refl (x : PyObj α) : Visits x [] x
  | child {x y : PyObj α} {n : Node α} {items : KeyedItems α} {m : Key α × PyObj α}
      {path : List (Key α)} :
      expandWithKeys py reg x = .ok (n, items) → m ∈ items → Visits m.2 path y →
      Visits x (m.1 :: path) y

/-- A key function finds the children and the data that the function without keys finds. -/
def KeyFunctionsAgree : Prop :=
  ∀ r ∈ reg.registrations, r.toIterableWithKeysFn.isSome → ∀ x items auxData,
    r.toIterableWithKeys py.toRuntime x = .ok (items, auxData) →
    r.toIterable py.toRuntime x = .ok (items.map Prod.snd, auxData)

end Relations

variable {py : KeyRuntime α} {reg : PyTreeRegistry α}

/-! ## One node -/

theorem map_snd_sequenceKeys (xs : List (PyObj α)) : (sequenceKeys xs).map Prod.snd = xs := by
  simp [sequenceKeys, Function.comp_def]

theorem map_snd_flattenedIndexKeys (xs : List (PyObj α)) :
    (flattenedIndexKeys xs).map Prod.snd = xs := by
  simp [flattenedIndexKeys, Function.comp_def]

/-- A type with a registration of its own is one of the two custom kinds. -/
theorem kindOfObject_registered {x : PyObj α} {k : PyTreeKind} (hk : k = .custom ∨ k = .dataclass) :
    reg.kindOfObject x ≠ (k, none) := by
  intro h
  unfold PyTreeRegistry.kindOfObject at h
  split at h
  · injection h with h₁ h₂
    rw [if_pos (h₁ ▸ hk)] at h₂
    cases h₂
  · split at h <;> injection h with h₁ _ <;> subst h₁ <;> rcases hk with hk | hk <;> cases hk

/-- The fields of a namedtuple are as many as its items. -/
theorem namedTupleFields_length {x : PyObj α} {fields : List (PyObj α)}
    (h : namedTupleFields py.toRuntime x = .ok fields) :
    fields.length = x.tupleItems.length := by
  unfold namedTupleFields at h
  obtain ⟨obj, _, h⟩ := bind_ok.mp h
  split at h
  · rcases ite_ok h with ⟨hlen, h⟩ | ⟨_, h⟩
    · injection h with h
      rw [← h, hlen]
    · cases h
  · cases h

/-- The items of the node of any kind, given both of their keys. -/
def edgesOf (items : KeyedItems α) : List (Edge α) := items.map fun m => ⟨m.1, m.1, m.2⟩

theorem map_item_edgesOf (items : KeyedItems α) : (edgesOf items).map Edge.item = items := by
  simp [edgesOf, Function.comp_def, Edge.item]

theorem map_levelItem_edgesOf (items : KeyedItems α) :
    (edgesOf items).map Edge.levelItem = items := by
  simp [edgesOf, Function.comp_def, Edge.levelItem]

theorem edges_of_same {x : PyObj α} {n : Node α} {items : KeyedItems α} {auxData : PyObj α}
    (h : expandWithKeys py reg x = .ok (n, items)) (hkind : n.kind = (reg.kindOfObject x).1)
    (hnt : n.kind ≠ .namedTuple)
    (hlevel : flattenOneLevelWithKeys py reg x = .ok (some (items, auxData))) :
    Edges py reg x n (edgesOf items) where
  expand := by rw [map_item_edgesOf, h]
  kind := hkind
  level := ⟨auxData, by rw [map_levelItem_edgesOf, hlevel]⟩
  same := by
    intro _ e he
    obtain ⟨m, _, rfl⟩ := List.mem_map.mp he
    rfl
  names hn := absurd hn hnt

/-- The data fields of a dataclass, read one at a time with their names. -/
theorem mapM_keyed {f : String → Except PyErr (PyObj α)} :
    ∀ {fields : List String} {children : List (PyObj α)}, fields.mapM f = .ok children →
      (fields.mapM fun field => do
        let value ← f field
        .ok ((Key.getAttr field : Key α), value)) =
        .ok ((fields.map .getAttr).zip children)
  | [], children, h => by
      rw [List.mapM_nil] at h
      injection h with h
      subst h
      rfl
  | field :: fields, children, h => by
      rw [List.mapM_cons] at h
      obtain ⟨c, hc, h⟩ := bind_ok.mp h
      obtain ⟨cs, hcs, h⟩ := bind_ok.mp h
      injection h with h
      subst h
      rw [List.mapM_cons, hc, mapM_keyed hcs]
      rfl

/-- Each item of a namedtuple, under the name of the first field. -/
theorem mapM_firstName {name : Except PyErr String} {first : String} (h : name = .ok first)
    (items : List (PyObj α)) :
    (items.mapM fun entry => do
      let name ← name
      .ok ((Key.getAttr name : Key α), entry)) =
      .ok (items.map fun c => (.getAttr first, c)) := by
  subst h
  induction items with
  | nil => rfl
  | cons c items ih => rw [List.mapM_cons, ih]; rfl

/-- **One level of a namedtuple**: the names of `FlattenImpl`, and the first of them throughout. -/
theorem edges_of_namedTuple {x : PyObj α} {c : Option (Registration α)} {fields : List (PyObj α)}
    {names : List String} (hk : reg.kindOfObject x = (.namedTuple, c))
    (hfields : namedTupleFields py.toRuntime x = .ok fields)
    (hnames : fields.mapM py.str = .ok names) :
    Edges py reg x
      { kind := .namedTuple, arity := x.tupleItems.length, nodeData := some (.type x.typeOf) }
      ((names.zip x.tupleItems).map fun m => ⟨.getAttr m.1, .getAttr (names.headD ""), m.2⟩) := by
  have hlen : names.length = x.tupleItems.length := by
    rw [← namedTupleFields_length hfields, (mapM_ok hnames).length_eq]
  refine ⟨?_, by rw [hk], ⟨.type x.typeOf, ?_⟩, fun hn => absurd rfl hn,
    fun _ => ⟨names, ?_, hlen, rfl⟩⟩
  · simp only [expandWithKeys, hk, hfields, ok_bind, hnames, Edge.item, List.map_map,
      Function.comp_def]
    rw [List.zip_map_left]
    rfl
  · simp only [flattenOneLevelWithKeys, hk, hfields, ok_bind]
    have hmap : ((names.zip x.tupleItems).map fun m =>
        (⟨.getAttr m.1, .getAttr (names.headD ""), m.2⟩ : Edge α)).map Edge.levelItem =
        x.tupleItems.map fun c => (.getAttr (names.headD ""), c) := by
      have hsnd : (names.zip x.tupleItems).map Prod.snd = x.tupleItems :=
        List.map_snd_zip (by omega)
      conv_rhs => rw [← hsnd]
      rw [List.map_map, List.map_map]
      rfl
    rw [hmap]
    -- Without items no name is asked for; with items the first field has one.
    cases hitems : x.tupleItems with
    | nil => rfl
    | cons i items =>
        have hhead : py.str (fields.headD .none) = .ok (names.headD "") := by
          cases mapM_ok hnames with
          | nil => rw [hitems] at hlen; cases hlen
          | cons hf _ => exact hf
        rw [mapM_firstName hhead]
        rfl
  · simp only [namedTupleNames, hfields, ok_bind, hnames]

/-- **One level of a node.** What `FlattenImpl` visits, a single level returns. -/
theorem edges_of_expand {x : PyObj α} {n : Node α} {items : KeyedItems α}
    (h : expandWithKeys py reg x = .ok (n, items)) :
    ((reg.kindOfObject x).1 = .leaf ∧ n = {} ∧ items = []) ∨
      ((reg.kindOfObject x).1 ≠ .leaf ∧ ∃ es, items = es.map Edge.item ∧ Edges py reg x n es) := by
  have same : ∀ auxData : PyObj α, n.kind = (reg.kindOfObject x).1 →
      (reg.kindOfObject x).1 ≠ .leaf → n.kind ≠ .namedTuple →
      flattenOneLevelWithKeys py reg x = .ok (some (items, auxData)) →
      (reg.kindOfObject x).1 ≠ .leaf ∧ ∃ es, items = es.map Edge.item ∧ Edges py reg x n es :=
    fun auxData hkind hleaf hnt hlevel =>
      ⟨hleaf, edgesOf items, (map_item_edgesOf items).symm, edges_of_same h hkind hnt hlevel⟩
  unfold expandWithKeys at h
  split at h
  · rename_i hk
    injection h with h; injection h with hn hi; subst hn hi
    exact .inr (same .none (by rw [hk]) (by simp [hk]) (by simp)
      (by simp only [flattenOneLevelWithKeys, hk]))
  · rename_i hk
    injection h with h; injection h with hn hi; subst hn hi
    exact .inr (same .none (by rw [hk]) (by simp [hk]) (by simp)
      (by simp only [flattenOneLevelWithKeys, hk]))
  · rename_i hk
    injection h with h; injection h with hn hi; subst hn hi
    exact .inr (same .none (by rw [hk]) (by simp [hk]) (by simp)
      (by simp only [flattenOneLevelWithKeys, hk]))
  · rename_i hk
    obtain ⟨sorted, hs, h⟩ := bind_ok.mp h
    injection h with h; injection h with hn hi; subst hn hi
    exact .inr (same (.tuple (sorted.map Prod.fst)) (by rw [hk]) (by simp [hk]) (by simp)
      (by simp only [flattenOneLevelWithKeys, hk, hs, ok_bind]))
  · rename_i r hk
    obtain ⟨⟨children, auxData⟩, hc, h⟩ := bind_ok.mp h
    injection h with h; injection h with hn hi; subst hn hi
    exact .inr (same auxData (by rw [hk]) (by simp [hk]) (by simp)
      (by simp only [flattenOneLevelWithKeys, hk, hc, ok_bind]))
  · rename_i r hk
    obtain ⟨auxData, haux, h⟩ := bind_ok.mp h
    obtain ⟨children, hc, h⟩ := bind_ok.mp h
    injection h with h; injection h with hn hi; subst hn hi
    exact .inr (same (.tuple auxData) (by rw [hk]) (by simp [hk]) (by simp)
      (by simp only [flattenOneLevelWithKeys, hk, mapM_keyed hc, haux, ok_bind]))
  · rename_i c hk
    obtain ⟨fields, hfields, h⟩ := bind_ok.mp h
    obtain ⟨names, hnames, h⟩ := bind_ok.mp h
    injection h with h; injection h with hn hi
    have hes := edges_of_namedTuple hk hfields hnames
    refine .inr ⟨by simp [hk], _, ?_, hn ▸ hes⟩
    rw [← hi, List.zip_map_left, List.map_map]
    rfl
  · rename_i hnone htuple hlist hdict hcustom hdata hnt
    injection h with h; injection h with hn hi
    refine .inl ⟨?_, hn.symm, hi.symm⟩
    cases hk : reg.kindOfObject x with
    | mk k c =>
        cases k with
        | leaf => rfl
        | none => exact absurd hk (hnone c)
        | tuple => exact absurd hk (htuple c)
        | namedTuple => exact absurd hk (hnt c)
        | list => exact absurd hk (hlist c)
        | dict => exact absurd hk (hdict c)
        | custom =>
            cases c with
            | none => exact absurd hk (kindOfObject_registered (.inl rfl))
            | some r => exact absurd hk (hcustom r)
        | dataclass =>
            cases c with
            | none => exact absurd hk (kindOfObject_registered (.inr rfl))
            | some r => exact absurd hk (hdata r)

/-- Without its keys, the node that `FlattenImpl` makes is the one it makes without a path. -/
theorem expand_of_expandWithKeys (hfn : KeyFunctionsAgree py reg) {x : PyObj α} {n : Node α}
    {items : KeyedItems α} (h : expandWithKeys py reg x = .ok (n, items)) :
    expand py.toRuntime reg x = .ok (n, items.map Prod.snd) := by
  have h₀ := h
  unfold expandWithKeys at h
  split at h
  · rename_i hk
    injection h with h; injection h with hn hi; subst hn hi
    simp only [expand, hk, List.map_nil]
  · rename_i hk
    injection h with h; injection h with hn hi; subst hn hi
    simp only [expand, hk, map_snd_sequenceKeys]
  · rename_i hk
    injection h with h; injection h with hn hi; subst hn hi
    simp only [expand, hk, map_snd_sequenceKeys]
  · rename_i hk
    obtain ⟨sorted, hs, h⟩ := bind_ok.mp h
    injection h with h; injection h with hn hi; subst hn hi
    simp only [expand, hk, hs, ok_bind, List.map_map, Function.comp_def]
  · rename_i r hk
    obtain ⟨⟨children, auxData⟩, hc, h⟩ := bind_ok.mp h
    injection h with h; injection h with hn hi; subst hn hi
    have hr : r.toIterable py.toRuntime x = .ok (children.map Prod.snd, auxData) := by
      cases hf : r.toIterableWithKeysFn with
      | some f =>
          have hmem := PyTreeRegistry.lookup_mem (kindOfObject_custom hk).1
          exact hfn r hmem (by rw [hf]; rfl) x children auxData hc
      | none =>
          simp only [Registration.toIterableWithKeys, hf] at hc
          obtain ⟨⟨leaves, aux⟩, hl, hc⟩ := bind_ok.mp hc
          injection hc with hc; injection hc with h₁ h₂; subst h₁ h₂
          rw [hl, map_snd_flattenedIndexKeys]
    simp only [expand, hk, hr, ok_bind, List.length_map]
  · rename_i r hk
    obtain ⟨auxData, haux, h⟩ := bind_ok.mp h
    obtain ⟨children, hc, h⟩ := bind_ok.mp h
    injection h with h; injection h with hn hi; subst hn hi
    have hlen := (mapM_ok hc).length_eq
    simp only [expand, hk, haux, hc, ok_bind]
    rw [List.map_snd_zip (by simp [hlen])]
  · rename_i c hk
    obtain ⟨fields, hfields, h⟩ := bind_ok.mp h
    obtain ⟨names, hnames, h⟩ := bind_ok.mp h
    injection h with h; injection h with hn hi; subst hn hi
    have hlen : names.length = x.tupleItems.length := by
      rw [← namedTupleFields_length hfields, (mapM_ok hnames).length_eq]
    simp only [expand, hk]
    rw [List.map_snd_zip (by simp [hlen])]
  · injection h with h; injection h with hn hi; subst hn hi
    have hleaf : (reg.kindOfObject x).1 = .leaf := by
      rcases edges_of_expand h₀ with ⟨hleaf, _⟩ | ⟨_, _, _, hes⟩
      · exact hleaf
      · exact hes.kind.symm
    cases hk : reg.kindOfObject x with
    | mk k c =>
        rw [hk] at hleaf
        simp only at hleaf
        subst hleaf
        simp only [expand, hk, List.map_nil]

/-- A leaf has no level below it. -/
theorem level_of_leaf {x : PyObj α} (h : (reg.kindOfObject x).1 = .leaf) :
    flattenOneLevelWithKeys py reg x = .ok none := by
  cases hk : reg.kindOfObject x with
  | mk k c =>
      rw [hk] at h
      simp only at h
      subst h
      simp only [flattenOneLevelWithKeys, hk]

/-! ## The two recursions -/

/-- What the loop has appended when `x` is done. -/
def PathFlat.append (s : PathFlat α) (ls : PathLeaves α) (ns : List (Node α)) : PathFlat α where
  leaves := s.leaves ++ ls
  traversal := s.traversal ++ ns

theorem PathFlat.append_append (s : PathFlat α) (ls ls' : PathLeaves α) (ns ns' : List (Node α)) :
    (s.append ls ns).append ls' ns' = s.append (ls ++ ls') (ns ++ ns') := by
  simp [PathFlat.append]

theorem PathFlat.append_nil (s : PathFlat α) : s.append [] [] = s := by simp [PathFlat.append]

theorem PathFlat.pushLeaf_eq (s : PathFlat α) (path : List (Key α)) (x : PyObj α) :
    s.pushLeaf path x {} = s.append [(path, x)] (LabelTree.postorder
      (.node { numLeaves := 1, numNodes := 1 } [])) := by
  rw [postorder_node]; rfl

theorem PathFlat.pushNode_append (s : PathFlat α) (n : Node α) (ls : PathLeaves α)
    (ts : List (LabelTree (Node α))) :
    s.pushNode (s.append ls (postorders ts)) n = s.append ls (LabelTree.postorder
      (.node { n with numLeaves := ls.length, numNodes := (postorders ts).length + 1 } ts)) := by
  have hl : ((s.append ls (postorders ts)).leaves.length : ℤ) - s.leaves.length = ls.length := by
    simp only [PathFlat.append, List.length_append]; omega
  have hn : ((s.append ls (postorders ts)).traversal.length : ℤ) - s.traversal.length + 1 =
      (postorders ts).length + 1 := by
    simp only [PathFlat.append, List.length_append]; omega
  rw [postorder_node, PathFlat.pushNode, hl, hn]
  simp [PathFlat.append]

/-- The leaf of a branch that starts at the end of `path`. -/
def Branch.at (path : List (Key α)) (b : Branch α) : List (Key α) × PyObj α :=
  (path ++ b.1.map Prod.fst, b.2)

/-- The leaves of some branches, without their keys. -/
theorem map_snd_at (path : List (Key α)) (bs : List (Branch α)) :
    (bs.map (Branch.at path)).map Prod.snd = bs.map Prod.snd := by
  rw [List.map_map]
  rfl

/-- The loop over the items, given what it does on each of them. -/
theorem flattenItems_ok {path : List (Key α)}
    {step : PathFlat α → Key α × PyObj α → Except PyErr (PathFlat α)}
    (hstep : ∀ m s s', step s m = .ok s' → ∃ t bs, Traverses py reg m.2 bs ∧
      Flattens py.toRuntime reg none m.2 t (bs.map Prod.snd) ∧
      s' = s.append (bs.map (Branch.at (path ++ [m.1]))) t.postorder) :
    ∀ {es : List (Edge α)} {s s' : PathFlat α}, (es.map Edge.item).foldlM step s = .ok s' →
      ∃ ts bs, TraversesAll py reg es bs ∧
        FlattensAll py.toRuntime reg none (es.map Edge.child) ts (bs.map Prod.snd) ∧
        s' = s.append (bs.map (Branch.at path)) (postorders ts)
  | [], s, s', h => by
      rw [List.map_nil, List.foldlM_nil] at h
      injection h with h
      exact ⟨[], [], .nil, .nil, by rw [postorders_nil, List.map_nil, PathFlat.append_nil, h]⟩
  | e :: es, s, s', h => by
      rw [List.map_cons, List.foldlM_cons] at h
      obtain ⟨s₁, h₁, h⟩ := bind_ok.mp h
      obtain ⟨t, b, hb, ht, rfl⟩ := hstep e.item s s₁ h₁
      obtain ⟨ts, bs, hbs, hts, rfl⟩ := flattenItems_ok hstep h
      refine ⟨t :: ts, _, .cons hb hbs, ?_, ?_⟩
      · have hleaves : ((b.map (Branch.under [(e.key, e.levelKey)]) ++ bs).map Prod.snd :
            List (PyObj α)) = b.map Prod.snd ++ bs.map Prod.snd := by
          rw [List.map_append, List.map_map]
          rfl
        rw [hleaves]
        exact .cons ht hts
      · have hat : (b.map (Branch.under [(e.key, e.levelKey)])).map (Branch.at path) =
            b.map (Branch.at (path ++ [e.key])) := by
          rw [List.map_map]
          exact List.map_congr_left fun l _ => by simp [Branch.at, Branch.under]
        rw [PathFlat.append_append, postorders_cons, List.map_append, hat]
        rfl

/--
**Soundness of the loop.** It appends the leaf of every branch with the keys it pushed, and
the nodes it appends when there is no path.
-/
theorem flattenWithPathImpl_ok (hfn : KeyFunctionsAgree py reg) :
    ∀ (fuel : ℕ) {path : List (Key α)} {x : PyObj α} {s s' : PathFlat α},
      flattenWithPathImpl py reg none fuel path x s = .ok s' →
      ∃ t bs, Traverses py reg x bs ∧ Flattens py.toRuntime reg none x t (bs.map Prod.snd) ∧
        s' = s.append (bs.map (Branch.at path)) t.postorder
  | 0, _, _, _, _, h => absurd h (by simp [flattenWithPathImpl])
  | fuel + 1, path, x, s, s', h => by
      unfold flattenWithPathImpl at h
      obtain ⟨known, hknown, h⟩ := bind_ok.mp h
      obtain rfl : known = false := by
        injection hknown with hknown
        exact hknown.symm
      rw [if_neg (by simp)] at h
      obtain ⟨⟨n, items⟩, hexp, h⟩ := bind_ok.mp h
      have hexp' := expand_of_expandWithKeys hfn hexp
      rcases edges_of_expand hexp with ⟨hk, rfl, rfl⟩ | ⟨hk, es, rfl, hes⟩
      · injection h with h
        refine ⟨_, _, .leaf hk, .leaf (.inr ⟨rfl, hexp'⟩), ?_⟩
        rw [← h, PathFlat.pushLeaf_eq]
        simp [Branch.at]
      · rw [← hes.kind] at hk
        rcases ite_ok h with ⟨hleaf, _⟩ | ⟨_, h⟩
        · exact absurd hleaf hk
        obtain ⟨s₁, h₁, h⟩ := bind_ok.mp h
        obtain ⟨ts, bs, hbs, hts, rfl⟩ := flattenItems_ok
          (fun m s s' h => flattenWithPathImpl_ok hfn fuel h) h₁
        injection h with h
        have hchild : es.map Edge.child = (es.map Edge.item).map Prod.snd := by
          rw [List.map_map]
          rfl
        refine ⟨_, bs, .node hes hk hbs, .node rfl hexp' hk (hchild ▸ hts), ?_⟩
        rw [← h, PathFlat.pushNode_append, List.length_map, List.length_map]

/-- What `FlattenWithPath` returns. -/
theorem flattenWithPath_ok (hfn : KeyFunctionsAgree py reg) {fuel : ℕ} {x : PyObj α}
    {leaves : PathLeaves α} {d : PyTreeDef α}
    (h : flattenWithPath py reg none fuel x = .ok (leaves, d)) :
    ∃ t bs, Traverses py reg x bs ∧ Flattens py.toRuntime reg none x t (bs.map Prod.snd) ∧
      leaves = bs.map Branch.pushed ∧ d = { registry := reg, traversal := t.postorder } := by
  unfold flattenWithPath at h
  obtain ⟨s, hs, h⟩ := bind_ok.mp h
  injection h with h; injection h with hl hd
  obtain ⟨t, bs, hbs, ht, rfl⟩ := flattenWithPathImpl_ok hfn fuel hs
  exact ⟨t, bs, hbs, ht, by rw [← hl]; rfl, by rw [← hd]; rfl⟩

mutual

/-- **The recursion over single levels** finds the same branches, with the keys of each level. -/
theorem leavesByLevel_of_traverses {x : PyObj α} {bs : List (Branch α)} :
    Traverses py reg x bs → ∃ k, ∀ fuel, k ≤ fuel →
      leavesByLevel py reg fuel x = .ok (bs.map Branch.byLevel)
  | .leaf hleaf => by
      refine ⟨1, fun fuel hk => ?_⟩
      obtain ⟨m, rfl⟩ : ∃ m, fuel = m + 1 := ⟨fuel - 1, by omega⟩
      rw [leavesByLevel, level_of_leaf hleaf]
      rfl
  | .node hes _ hbs => by
      obtain ⟨k, hk⟩ := rows_of_traversesAll hbs
      obtain ⟨auxData, hlevel⟩ := hes.level
      refine ⟨k + 1, fun fuel hfuel => ?_⟩
      obtain ⟨m, rfl⟩ : ∃ m, fuel = m + 1 := ⟨fuel - 1, by omega⟩
      obtain ⟨rows, hrows, hflat⟩ := hk m (by omega)
      rw [leavesByLevel, hlevel]
      simp only [ok_bind, hrows, hflat]

theorem rows_of_traversesAll {es : List (Edge α)} {bs : List (Branch α)} :
    TraversesAll py reg es bs → ∃ k, ∀ fuel, k ≤ fuel → ∃ rows,
      ((es.map Edge.levelItem).mapM fun m => do
        let leaves ← leavesByLevel py reg fuel m.2
        .ok (leaves.map fun l : List (Key α) × PyObj α => (m.1 :: l.1, l.2))) = .ok rows ∧
      rows.flatten = bs.map Branch.byLevel
  | .nil => ⟨0, fun _ _ => ⟨[], rfl, rfl⟩⟩
  | .cons (e := e) (b := b) hb hbs => by
      obtain ⟨k₁, h₁⟩ := leavesByLevel_of_traverses hb
      obtain ⟨k₂, h₂⟩ := rows_of_traversesAll hbs
      refine ⟨max k₁ k₂, fun fuel hk => ?_⟩
      obtain ⟨rows, hrows, hflat⟩ := h₂ fuel (by omega)
      refine ⟨(b.map Branch.byLevel).map (fun l => (e.levelKey :: l.1, l.2)) :: rows, ?_, ?_⟩
      · rw [List.map_cons, List.mapM_cons, hrows]
        simp only [Edge.levelItem, h₁ fuel (by omega), ok_bind]
        rfl
      · rw [List.flatten_cons, hflat, List.map_append, List.map_map, List.map_map]
        rfl

end

end JaxDas.Pytree
