import Mathlib.Data.List.Duplicate
import JaxDas.Pytree.Branches

/-!
# Key paths one level at a time

The two ways of flattening with keys agree when the two keys of every edge do. They do
for every kind but one: in a namedtuple `FlattenOneLevelImpl` never moves on to the next
field, and so gives every item the name of the first.
-/

namespace JaxDas.Pytree

open PostOrder

variable {α : Type}

section Conditions

variable (py : KeyRuntime α) (reg : PyTreeRegistry α)

/-- There is a leaf in `x`. -/
def HasLeaf (x : PyObj α) : Prop :=
  ∃ path l, Visits py reg x path l ∧ (reg.kindOfObject l).1 = .leaf

/-- No namedtuple in `t` has a leaf below any item but its first. -/
def FirstItemsOnly (t : PyObj α) : Prop :=
  ∀ path x, Visits py reg t path x → (reg.kindOfObject x).1 = .namedTuple →
    ∀ c ∈ x.tupleItems.tail, ¬ HasLeaf py reg c

/-- The keys of every custom node of `t` are distinct. -/
def CustomKeysDistinct (t : PyObj α) : Prop :=
  ∀ path x r items auxData, Visits py reg t path x → reg.kindOfObject x = (.custom, some r) →
    r.toIterableWithKeys py.toRuntime x = .ok (items, auxData) →
    (items.map Prod.fst).Pairwise fun k l => Key.equals py k l = false

/-- No dataclass in `t` lists a data field twice that has a leaf below it. -/
def FieldsOnce (t : PyObj α) : Prop :=
  ∀ path x r f c, Visits py reg t path x → reg.kindOfObject x = (.dataclass, some r) →
    List.Duplicate f r.dataFields → py.getattr x f = .ok c → ¬ HasLeaf py reg c

/-- What Python sees to: a dictionary has no key twice, and a namedtuple no name. -/
structure DistinctNames (t : PyObj α) : Prop where
  dict : ∀ path x, Visits py reg t path x → (reg.kindOfObject x).1 = .dict →
    (x.dictItems.map Prod.fst).Pairwise fun k l => py.eq k l = false ∧ py.eq l k = false
  namedTuple : ∀ path x names, Visits py reg t path x → (reg.kindOfObject x).1 = .namedTuple →
    namedTupleNames py x = .ok names → names.Nodup

/-- Two paths are equal as tuples. -/
def SamePath (p q : List (Key α)) : Prop := List.Forall₂ (fun k l => Key.equals py k l = true) p q

/-- No two leaves have the same path. -/
def DistinctPaths (leaves : PathLeaves α) : Prop :=
  leaves.Pairwise fun l m => ¬ SamePath py l.1 m.1

end Conditions

variable {py : KeyRuntime α} {reg : PyTreeRegistry α}

/-! ## What is on the branches -/

/-- From a node to one of its children. -/
theorem Edges.visits {x y : PyObj α} {n : Node α} {es : List (Edge α)} {e : Edge α}
    {path : List (Key α)} (h : Edges py reg x n es) (he : e ∈ es)
    (hy : Visits py reg e.child path y) : Visits py reg x (e.key :: path) y :=
  .child h.expand (List.mem_map_of_mem he) hy

/-- Every edge has its branches among those of the node. -/
theorem TraversesAll.of_mem {e : Edge α} : ∀ {es : List (Edge α)} {bs : List (Branch α)},
    TraversesAll py reg es bs → e ∈ es → ∃ b, Traverses py reg e.child b ∧
      (b.map (Branch.under [(e.key, e.levelKey)])).Sublist bs
  | e' :: es, _, .cons hb hbs, he => by
      rcases List.mem_cons.mp he with rfl | he
      · exact ⟨_, hb, List.sublist_append_left _ _⟩
      · obtain ⟨b, hb', hsub⟩ := hbs.of_mem he
        exact ⟨b, hb', hsub.trans (List.sublist_append_right _ _)⟩

theorem under_under (p q : List (Key α × Key α)) (bs : List (Branch α)) :
    (bs.map (Branch.under q)).map (Branch.under p) = bs.map (Branch.under (p ++ q)) := by
  rw [List.map_map]
  exact List.map_congr_left fun b _ => by simp [Branch.under]

/-- **The branches of a subtree** are branches of the tree, on the way the subtree is reached. -/
theorem Traverses.visits {x y : PyObj α} {path : List (Key α)} (hy : Visits py reg x path y) :
    ∀ {bs : List (Branch α)}, Traverses py reg x bs → ∃ pre bs', pre.map Prod.fst = path ∧
      Traverses py reg y bs' ∧ (bs'.map (Branch.under pre)).Sublist bs := by
  induction hy with
  | refl x =>
      intro bs h
      refine ⟨[], bs, rfl, h, ?_⟩
      show (bs.map id).Sublist bs
      rw [List.map_id]
  | @child x y n items m path hexp hm hy ih =>
      intro bs h
      cases h with
      | leaf hleaf =>
          rcases edges_of_expand hexp with ⟨_, _, rfl⟩ | ⟨hk, _⟩
          · cases hm
          · exact absurd hleaf hk
      | node hes _ hbs =>
          have heq := hes.expand.symm.trans hexp
          injection heq with heq
          injection heq with _ heq
          obtain ⟨e, he, rfl⟩ := List.mem_map.mp (heq ▸ hm)
          obtain ⟨b, hb, hsub⟩ := hbs.of_mem he
          obtain ⟨pre, bs', rfl, hbs', hsub'⟩ := ih hb
          refine ⟨(e.key, e.levelKey) :: pre, bs', rfl, hbs', ?_⟩
          have hmap := hsub'.map (Branch.under [(e.key, e.levelKey)])
          rw [under_under] at hmap
          exact hmap.trans hsub

/-- What traverses a leaf. -/
theorem Traverses.of_leaf {x : PyObj α} {bs : List (Branch α)} (h : Traverses py reg x bs)
    (hx : (reg.kindOfObject x).1 = .leaf) : bs = [([], x)] := by
  cases h with
  | leaf => rfl
  | node hes hk _ => exact absurd (hes.kind.trans hx) hk

/-- A leaf that can be reached has its branch. -/
theorem Traverses.branch_of_visits {x l : PyObj α} {path : List (Key α)} {bs : List (Branch α)}
    (h : Traverses py reg x bs) (hl : Visits py reg x path l)
    (hleaf : (reg.kindOfObject l).1 = .leaf) : ∃ b ∈ bs, b.pushed = (path, l) := by
  obtain ⟨pre, bs', rfl, hbs', hsub⟩ := h.visits hl
  rw [hbs'.of_leaf hleaf] at hsub
  exact ⟨_, hsub.subset List.mem_cons_self, by simp [Branch.pushed, Branch.under]⟩

mutual

/-- A branch leads to a leaf. -/
theorem Traverses.visits_of_branch {x : PyObj α} {bs : List (Branch α)} {b : Branch α} :
    Traverses py reg x bs → b ∈ bs →
      Visits py reg x (b.1.map Prod.fst) b.2 ∧ (reg.kindOfObject b.2).1 = .leaf
  | .leaf hleaf, hb => by
      rw [List.mem_singleton.mp hb]
      exact ⟨.refl x, hleaf⟩
  | .node hes _ hbs, hb => by
      obtain ⟨e, he, b', rfl, hv, hleaf⟩ := hbs.visits_of_branch hb
      exact ⟨hes.visits he hv, hleaf⟩

theorem TraversesAll.visits_of_branch {es : List (Edge α)} {bs : List (Branch α)} {b : Branch α} :
    TraversesAll py reg es bs → b ∈ bs → ∃ e ∈ es, ∃ b',
      b = Branch.under [(e.key, e.levelKey)] b' ∧
      Visits py reg e.child (b'.1.map Prod.fst) b'.2 ∧ (reg.kindOfObject b'.2).1 = .leaf
  | .nil, hb => by cases hb
  | .cons (e := e) hb hbs, hl => by
      rcases List.mem_append.mp hl with hl | hl
      · obtain ⟨b', hb', rfl⟩ := List.mem_map.mp hl
        obtain ⟨hv, hleaf⟩ := hb.visits_of_branch hb'
        exact ⟨e, List.mem_cons_self, b', rfl, hv, hleaf⟩
      · obtain ⟨e', he', hrest⟩ := hbs.visits_of_branch hl
        exact ⟨e', List.mem_cons_of_mem _ he', hrest⟩

end

/-- There is a leaf in `x` when there is a branch. -/
theorem Traverses.hasLeaf {x : PyObj α} {bs : List (Branch α)} {b : Branch α}
    (h : Traverses py reg x bs) (hb : b ∈ bs) : HasLeaf py reg x :=
  ⟨_, _, h.visits_of_branch hb⟩

mutual

/-- Every step of a branch is an edge of a node on the way, with a leaf below it. -/
theorem Traverses.edge_of_branch {x : PyObj α} {bs : List (Branch α)} {b : Branch α}
    {k l : Key α} : Traverses py reg x bs → b ∈ bs → (k, l) ∈ b.1 →
      ∃ path y n es e, Visits py reg x path y ∧ Edges py reg y n es ∧ e ∈ es ∧
        e.key = k ∧ e.levelKey = l ∧ HasLeaf py reg e.child
  | .leaf _, hb, hkl => by
      rw [List.mem_singleton.mp hb] at hkl
      cases hkl
  | .node hes _ hbs, hb, hkl => by
      obtain ⟨e, he, hedge⟩ := hbs.edge_of_branch hb hkl
      rcases hedge with ⟨hk, hl, hleaf⟩ | ⟨path, y, n, es, e', hv, hrest⟩
      · exact ⟨[], _, _, _, e, .refl _, hes, he, hk, hl, hleaf⟩
      · exact ⟨e.key :: path, y, n, es, e', hes.visits he hv, hrest⟩

theorem TraversesAll.edge_of_branch {es : List (Edge α)} {bs : List (Branch α)} {b : Branch α}
    {k l : Key α} : TraversesAll py reg es bs → b ∈ bs → (k, l) ∈ b.1 →
      ∃ e ∈ es, (e.key = k ∧ e.levelKey = l ∧ HasLeaf py reg e.child) ∨
        ∃ path y n es' e', Visits py reg e.child path y ∧ Edges py reg y n es' ∧ e' ∈ es' ∧
          e'.key = k ∧ e'.levelKey = l ∧ HasLeaf py reg e'.child
  | .nil, hb, _ => by cases hb
  | .cons (e := e) hb hbs, hl, hkl => by
      rcases List.mem_append.mp hl with hl | hl
      · obtain ⟨b', hb', rfl⟩ := List.mem_map.mp hl
        rcases List.mem_cons.mp hkl with hkl | hkl
        · injection hkl with hk hl
          exact ⟨e, List.mem_cons_self, .inl ⟨hk.symm, hl.symm, hb.hasLeaf hb'⟩⟩
        · exact ⟨e, List.mem_cons_self, .inr (hb.edge_of_branch hb' hkl)⟩
      · obtain ⟨e', he', hrest⟩ := hbs.edge_of_branch hl hkl
        exact ⟨e', List.mem_cons_of_mem _ he', hrest⟩

end

/-! ## Where the two keys agree -/

/-- The two results are equal when every step has one key. -/
theorem pushed_eq_byLevel_iff {bs : List (Branch α)} :
    bs.map Branch.pushed = bs.map Branch.byLevel ↔ ∀ b ∈ bs, ∀ m ∈ b.1, m.1 = m.2 := by
  rw [List.map_inj_left]
  constructor
  · intro h b hb
    have heq := congrArg Prod.fst (h b hb)
    exact List.map_inj_left.mp heq
  · intro h b hb
    exact Prod.ext (List.map_inj_left.mpr (h b hb)) rfl

/-- The edges of a namedtuple past the first do not have the key that a single level gives. -/
theorem Edges.key_ne_levelKey {x : PyObj α} {n : Node α} {es : List (Edge α)}
    (h : Edges py reg x n es) (hk : n.kind = .namedTuple)
    (hnames : ∀ names, namedTupleNames py x = .ok names → names.Nodup) :
    es.map Edge.child = x.tupleItems ∧
      ∀ e ∈ es.tail, e.key ≠ e.levelKey := by
  obtain ⟨names, hn, hlen, rfl⟩ := h.names hk
  have hnd := hnames names hn
  constructor
  · rw [List.map_map]
    exact List.map_snd_zip (by omega)
  · cases names with
    | nil => simp
    | cons m ns =>
        cases x.tupleItems with
        | nil => simp
        | cons c cs =>
            intro e he
            obtain ⟨m', hm', rfl⟩ := List.mem_map.mp he
            intro heq
            injection heq with heq
            have hname : m'.1 = m := heq
            have hmem : m'.1 ∈ ns := (List.of_mem_zip hm').1
            exact (List.nodup_cons.mp hnd).1 (hname ▸ hmem)

/-- The first edge of a namedtuple has one key. -/
theorem Edges.key_eq_levelKey {x : PyObj α} {n : Node α} {e : Edge α} {es : List (Edge α)}
    (h : Edges py reg x n es) (he : e ∈ es)
    (hfirst : n.kind = .namedTuple → e.child ∉ x.tupleItems.tail) : e.key = e.levelKey := by
  by_cases hk : n.kind = .namedTuple
  · obtain ⟨names, _, _, rfl⟩ := h.names hk
    obtain ⟨m, hm, rfl⟩ := List.mem_map.mp he
    have hnot := hfirst hk
    cases names with
    | nil => cases hm
    | cons name ns =>
        cases hitems : x.tupleItems with
        | nil => rw [hitems] at hm; cases hm
        | cons c cs =>
            rw [hitems] at hm hnot
            rcases List.mem_cons.mp hm with rfl | hm
            · rfl
            · exact absurd (List.of_mem_zip hm).2 hnot
  · exact h.same hk e he

/-- **The keys agree** exactly where no namedtuple has a leaf past its first item. -/
theorem Traverses.keys_agree_iff {t : PyObj α} {bs : List (Branch α)}
    (h : Traverses py reg t bs) (hnames : DistinctNames py reg t) :
    (∀ b ∈ bs, ∀ m ∈ b.1, m.1 = m.2) ↔ FirstItemsOnly py reg t := by
  constructor
  · intro hagree path x hx hk c hc hleaf
    obtain ⟨pre, bs', rfl, hbs', hsub⟩ := h.visits hx
    cases hbs' with
    | leaf hl => rw [hk] at hl; cases hl
    | node hes _ hall =>
        obtain ⟨hchild, hne⟩ := hes.key_ne_levelKey (hes.kind.trans hk)
          (fun names hn => hnames.namedTuple _ x names hx hk hn)
        -- The item is the child of an edge past the first, and has a branch below it.
        rw [← hchild, ← List.map_tail] at hc
        obtain ⟨e, he, rfl⟩ := List.mem_map.mp hc
        obtain ⟨b, hb, hsub'⟩ := hall.of_mem (List.mem_of_mem_tail he)
        obtain ⟨q, l, hl, hlk⟩ := hleaf
        obtain ⟨b', hb', _⟩ := hb.branch_of_visits hl hlk
        have hmem := hsub'.subset (List.mem_map_of_mem hb')
        have hmem' := hsub.subset (List.mem_map_of_mem hmem)
        exact hne e he (hagree _ hmem' (e.key, e.levelKey) (by simp [Branch.under]))
  · intro hfirst b hb m hm
    obtain ⟨path, y, n, es, e, hv, hes, he, hk, hl, hleaf⟩ := h.edge_of_branch hb hm
    rw [← hk, ← hl]
    exact hes.key_eq_levelKey he fun hnt hc =>
      hfirst path y hv (hes.kind ▸ hnt) e.child hc hleaf

/-! ## Distinct paths -/

/-- Items with leaves below them have different keys. -/
def DistinctItems (py : KeyRuntime α) (reg : PyTreeRegistry α) (items : KeyedItems α) : Prop :=
  items.Pairwise fun m m' => HasLeaf py reg m.2 → HasLeaf py reg m'.2 →
    Key.equals py m.1 m'.1 = false

/-- Items whose keys are all different. -/
theorem distinctItems_of_keys {items : KeyedItems α}
    (h : (items.map Prod.fst).Pairwise fun k l => Key.equals py k l = false) :
    DistinctItems py reg items := by
  rw [List.pairwise_map] at h
  exact h.imp fun hkl _ _ => hkl

theorem distinctItems_sequenceKeys (xs : List (PyObj α)) :
    DistinctItems py reg (sequenceKeys xs) := by
  refine distinctItems_of_keys ?_
  have hmap : (sequenceKeys xs).map Prod.fst = (xs.zipIdx.map Prod.snd).map Key.sequence := by
    simp only [sequenceKeys, List.map_map]
    rfl
  have hlt : (List.range' 0 xs.length).Pairwise (· < ·) := List.pairwise_lt_range'
  rw [hmap, List.zipIdx_map_snd, List.pairwise_map]
  refine hlt.imp fun h => ?_
  simp only [Key.equals, decide_eq_false_iff_not]
  omega

theorem insertItem_perm {m : PyObj α × PyObj α} :
    ∀ {items r : List (PyObj α × PyObj α)}, insertItem py.toRuntime m items = .ok r →
      r.Perm (m :: items)
  | [], r, h => by injection h with h; rw [← h]
  | n :: items, r, h => by
      unfold insertItem at h
      obtain ⟨b, _, h⟩ := bind_ok.mp h
      rcases ite_ok h with ⟨_, h⟩ | ⟨_, h⟩
      · obtain ⟨rest, hrest, h⟩ := bind_ok.mp h
        injection h with h
        rw [← h]
        exact ((insertItem_perm hrest).cons n).trans (List.Perm.swap _ _ _)
      · injection h with h
        rw [← h]

/-- Sorting rearranges the items. -/
theorem sortItems_perm : ∀ {items r : List (PyObj α × PyObj α)},
    sortItems py.toRuntime items = .ok r → r.Perm items
  | [], r, h => by injection h with h; rw [← h]
  | m :: items, r, h => by
      unfold sortItems at h
      obtain ⟨sorted, hs, h⟩ := bind_ok.mp h
      exact (insertItem_perm h).trans ((sortItems_perm hs).cons m)

/-- The fields of a dataclass, none listed twice that has a leaf. -/
theorem distinctItems_fields {f : String → Except PyErr (PyObj α)} :
    ∀ {fields : List String} {children : List (PyObj α)}, fields.mapM f = .ok children →
      (∀ field c, List.Duplicate field fields → f field = .ok c → ¬ HasLeaf py reg c) →
      DistinctItems py reg ((fields.map .getAttr).zip children)
  | [], _, _, _ => .nil
  | field :: fields, children, h, hdup => by
      rw [List.mapM_cons] at h
      obtain ⟨c, hc, h⟩ := bind_ok.mp h
      obtain ⟨cs, hcs, h⟩ := bind_ok.mp h
      injection h with h
      subst h
      refine List.pairwise_cons.mpr ⟨?_, distinctItems_fields hcs fun g c hg =>
        hdup g c (hg.cons_duplicate)⟩
      intro m hm hleaf _
      obtain ⟨g, hg, hgk⟩ := List.mem_map.mp (List.of_mem_zip hm).1
      simp only [← hgk, Key.equals, decide_eq_false_iff_not]
      intro heq
      exact hdup field c (.cons_mem (heq ▸ hg)) hc hleaf

/-- **The items of one node** have different keys where there are leaves below them. -/
theorem distinctItems_of_expand {t x : PyObj α} {path : List (Key α)} {n : Node α}
    {items : KeyedItems α} (hnames : DistinctNames py reg t) (hcustom : CustomKeysDistinct py reg t)
    (hfields : FieldsOnce py reg t) (hx : Visits py reg t path x)
    (h : expandWithKeys py reg x = .ok (n, items)) : DistinctItems py reg items := by
  unfold expandWithKeys at h
  split at h
  · injection h with h; injection h with hn hi; subst hn hi
    exact .nil
  · injection h with h; injection h with hn hi; subst hn hi
    exact distinctItems_sequenceKeys _
  · injection h with h; injection h with hn hi; subst hn hi
    exact distinctItems_sequenceKeys _
  · rename_i hk
    obtain ⟨sorted, hs, h⟩ := bind_ok.mp h
    injection h with h; injection h with hn hi; subst hn hi
    have hperm := (sortItems_perm (getSortedPyDictItems_ok hs)).map Prod.fst
    have hkeys := hperm.symm.pairwise (hnames.dict path x hx (by rw [hk])) fun h => ⟨h.2, h.1⟩
    rw [List.pairwise_map] at hkeys
    refine distinctItems_of_keys ?_
    rw [List.map_map, List.pairwise_map]
    exact hkeys.imp fun h => h.1
  · rename_i r hk
    obtain ⟨⟨children, auxData⟩, hc, h⟩ := bind_ok.mp h
    injection h with h; injection h with hn hi; subst hn hi
    exact distinctItems_of_keys (hcustom path x r children auxData hx hk hc)
  · rename_i r hk
    obtain ⟨auxData, haux, h⟩ := bind_ok.mp h
    obtain ⟨children, hc, h⟩ := bind_ok.mp h
    injection h with h; injection h with hn hi; subst hn hi
    exact distinctItems_fields hc fun f c => hfields path x r f c hx hk
  · rename_i hk
    obtain ⟨fields, hf, h⟩ := bind_ok.mp h
    obtain ⟨names, hn, h⟩ := bind_ok.mp h
    injection h with h; injection h with hn' hi; subst hn' hi
    have hnd := hnames.namedTuple path x names hx (by rw [hk])
      (by simp only [namedTupleNames, hf, ok_bind, hn])
    have hlen : names.length = x.tupleItems.length := by
      rw [← namedTupleFields_length hf, (mapM_ok hn).length_eq]
    refine distinctItems_of_keys ?_
    rw [List.map_fst_zip (by simp [hlen]), List.pairwise_map]
    exact hnd.imp fun hne => by simp [Key.equals, hne]
  · injection h with h; injection h with hn hi; subst hn hi
    exact .nil

/-- Longer paths differ where the rest of them does. -/
theorem distinctPaths_under {e : Edge α} {bs : List (Branch α)}
    (h : DistinctPaths py (bs.map Branch.pushed)) :
    DistinctPaths py ((bs.map (Branch.under [(e.key, e.levelKey)])).map Branch.pushed) := by
  unfold DistinctPaths at h ⊢
  rw [List.pairwise_map] at h
  rw [List.map_map, List.pairwise_map]
  refine h.imp fun hne hsame => hne ?_
  cases hsame with
  | cons _ hsame => exact hsame

mutual

/-- **Distinct keys at every node make distinct paths.** -/
theorem Traverses.distinctPaths {x : PyObj α} {bs : List (Branch α)} :
    Traverses py reg x bs →
      (∀ path y n items, Visits py reg x path y → expandWithKeys py reg y = .ok (n, items) →
        DistinctItems py reg items) → DistinctPaths py (bs.map Branch.pushed)
  | .leaf _, _ => List.pairwise_singleton _ _
  | .node hes _ hbs, h =>
      hbs.distinctPaths (List.pairwise_map.mp (h [] _ _ _ (.refl _) hes.expand))
        fun _ he _ _ _ _ hv => h _ _ _ _ (hes.visits he hv)

theorem TraversesAll.distinctPaths {es : List (Edge α)} {bs : List (Branch α)} :
    TraversesAll py reg es bs →
      es.Pairwise (fun e e' => HasLeaf py reg e.child → HasLeaf py reg e'.child →
        Key.equals py e.key e'.key = false) →
      (∀ e ∈ es, ∀ path y n items, Visits py reg e.child path y →
        expandWithKeys py reg y = .ok (n, items) → DistinctItems py reg items) →
      DistinctPaths py (bs.map Branch.pushed)
  | .nil, _, _ => .nil
  | .cons (e := e) hb hbs, hes, h => by
      obtain ⟨he, hes⟩ := List.pairwise_cons.mp hes
      unfold DistinctPaths
      rw [List.map_append, List.pairwise_append]
      refine ⟨distinctPaths_under (hb.distinctPaths (h e List.mem_cons_self)),
        hbs.distinctPaths hes fun e' he' => h e' (List.mem_cons_of_mem _ he'), ?_⟩
      -- One path goes through `e`, the other through a later edge.
      intro l hl m hm hsame
      obtain ⟨b, hb', rfl⟩ := List.mem_map.mp hl
      obtain ⟨b₀, hb₀, rfl⟩ := List.mem_map.mp hb'
      obtain ⟨b', hb', rfl⟩ := List.mem_map.mp hm
      obtain ⟨e', he', b₁, rfl, hv⟩ := hbs.visits_of_branch hb'
      cases hsame with
      | cons hkey _ =>
          have hne := he e' he' (hb.hasLeaf hb₀) ⟨_, _, hv⟩
          rw [hne] at hkey
          cases hkey

end

theorem samePath_refl (p : List (Key α)) : SamePath py p p := by
  induction p with
  | nil => exact .nil
  | cons k p ih => exact .cons (Key.equals_refl py k) ih

theorem samePath_append (pre : List (Key α)) {p q : List (Key α)} (h : SamePath py p q) :
    SamePath py (pre ++ p) (pre ++ q) := by
  induction pre with
  | nil => exact h
  | cons k pre ih => exact .cons (Key.equals_refl py k) ih

/-- The leaves of a subtree have distinct paths when those of the tree have. -/
theorem distinctPaths_of_under {pre : List (Key α × Key α)} {bs bs' : List (Branch α)}
    (h : DistinctPaths py (bs.map Branch.pushed))
    (hsub : (bs'.map (Branch.under pre)).Sublist bs) :
    DistinctPaths py (bs'.map Branch.pushed) := by
  have hpre := (List.pairwise_map.mp h).sublist hsub
  rw [List.pairwise_map] at hpre
  refine List.pairwise_map.mpr (hpre.imp fun hne hsame => hne ?_)
  simp only [Branch.pushed, Branch.under, List.map_append]
  exact samePath_append _ hsame

/-- The item of a field that was read. -/
theorem mem_fields {f : String → Except PyErr (PyObj α)} {field : String} {c : PyObj α}
    (hc : f field = .ok c) : ∀ {fields : List String} {children : List (PyObj α)},
      fields.mapM f = .ok children → field ∈ fields →
      ((Key.getAttr field : Key α), c) ∈ (fields.map .getAttr).zip children
  | g :: fields, children, h, hmem => by
      rw [List.mapM_cons] at h
      obtain ⟨c', hc', h⟩ := bind_ok.mp h
      obtain ⟨cs, hcs, h⟩ := bind_ok.mp h
      injection h with h
      subst h
      rcases List.mem_cons.mp hmem with rfl | hmem
      · rw [hc] at hc'
        injection hc' with hc'
        subst hc'
        exact List.mem_cons_self
      · exact List.mem_cons_of_mem _ (mem_fields hc hcs hmem)

/-- A field listed twice leads to one leaf twice. -/
theorem TraversesAll.not_hasLeaf {f : String → Except PyErr (PyObj α)} {field : String}
    {c : PyObj α} (hc : f field = .ok c) :
    ∀ {fields : List String} {children : List (PyObj α)} {es : List (Edge α)}
      {bs : List (Branch α)}, fields.mapM f = .ok children →
      es.map Edge.item = (fields.map .getAttr).zip children → TraversesAll py reg es bs →
      DistinctPaths py (bs.map Branch.pushed) → List.Duplicate field fields →
      ¬ HasLeaf py reg c
  | g :: fields, children, es, bs, h, hes, hall, hdist, hdup => by
      rw [List.mapM_cons] at h
      obtain ⟨c', hc', h⟩ := bind_ok.mp h
      obtain ⟨cs, hcs, h⟩ := bind_ok.mp h
      injection h with h
      subst h
      cases hall with
      | nil => cases hes
      | @cons e es b bs hb hbs =>
          injection hes with he hes
          injection he with hkey hchild
          unfold DistinctPaths at hdist
          rw [List.map_append, List.pairwise_append] at hdist
          obtain ⟨_, hrest, hcross⟩ := hdist
          cases hdup with
          | cons_duplicate hdup => exact TraversesAll.not_hasLeaf hc hcs hes hbs hrest hdup
          | cons_mem hmem =>
              rintro ⟨path, l, hl, hleaf⟩
              have hcc : c' = c := by
                rw [hc] at hc'
                injection hc' with hc'
                exact hc'.symm
              subst hcc
              have hitems : es.map Edge.item = (fields.map .getAttr).zip cs := hes
              obtain ⟨e', he', heq⟩ := List.mem_map.mp (hitems ▸ mem_fields hc hcs hmem)
              injection heq with hkey' hchild'
              obtain ⟨b₀, hb₀, hp₀⟩ := hb.branch_of_visits (hchild ▸ hl) hleaf
              obtain ⟨b', hb', hsub⟩ := hbs.of_mem he'
              obtain ⟨b₁, hb₁, hp₁⟩ := hb'.branch_of_visits (hchild' ▸ hl) hleaf
              refine hcross _ (List.mem_map_of_mem (List.mem_map_of_mem hb₀)) _
                (List.mem_map_of_mem (hsub.subset (List.mem_map_of_mem hb₁))) ?_
              have hpath := (congrArg Prod.fst hp₀).trans (congrArg Prod.fst hp₁).symm
              simp only [Branch.pushed] at hpath
              simp only [Branch.pushed, Branch.under, List.map_append, hpath, List.map_cons,
                List.map_nil, hkey, hkey']
              exact samePath_refl _

/-- **Distinct paths** leave no field of a dataclass listed twice above a leaf. -/
theorem Traverses.fieldsOnce {t : PyObj α} {bs : List (Branch α)} (h : Traverses py reg t bs)
    (hdist : DistinctPaths py (bs.map Branch.pushed)) : FieldsOnce py reg t := by
  intro path x r f c hx hk hdup hc
  obtain ⟨pre, bs', _, hbs', hsub⟩ := h.visits hx
  have hdist' := distinctPaths_of_under hdist hsub
  cases hbs' with
  | leaf hleaf => rw [hk] at hleaf; cases hleaf
  | node hes _ hall =>
      have hexp := hes.expand
      simp only [expandWithKeys, hk] at hexp
      obtain ⟨auxData, _, hexp⟩ := bind_ok.mp hexp
      obtain ⟨children, hchildren, hexp⟩ := bind_ok.mp hexp
      injection hexp with hexp
      injection hexp with _ hitems
      exact hall.not_hasLeaf hc hchildren hitems.symm hdist' hdup

/-! ## The two implementations -/

/-- What the key paths of a tree are to satisfy, however they are found. -/
structure KeyPathsAgree (py : KeyRuntime α) (reg : PyTreeRegistry α) (t : PyObj α)
    (leaves : PathLeaves α) : Prop where
  /-- Single levels, applied recursively, come to the same list. -/
  byLevel : ∃ k, ∀ fuel, k ≤ fuel → leavesByLevel py reg fuel t = .ok leaves
  /-- The leaves are those of `Flatten`. -/
  flatten : ∃ k d, ∀ fuel, k ≤ fuel →
    flatten py.toRuntime reg none fuel t = .ok (leaves.map Prod.snd, d)
  /-- Distinct leaves have distinct paths, if custom nodes have distinct keys. -/
  distinct : CustomKeysDistinct py reg t → DistinctPaths py leaves

/--
**When the key paths agree.** Whatever `FlattenWithPath` returns has the leaves of `Flatten`.
It is what single levels come to exactly when no namedtuple has a leaf past its first item,
and it tells the leaves apart exactly when no dataclass lists a field twice.
-/
theorem keyPathsAgree_iff {fuel : ℕ} {t : PyObj α} {leaves : PathLeaves α} {d : PyTreeDef α}
    (h : flattenWithPath py reg none fuel t = .ok (leaves, d)) (hfn : KeyFunctionsAgree py reg)
    (hnames : DistinctNames py reg t) :
    KeyPathsAgree py reg t leaves ↔
      FirstItemsOnly py reg t ∧ (CustomKeysDistinct py reg t → FieldsOnce py reg t) := by
  obtain ⟨tree, bs, hbs, hflat, rfl, rfl⟩ := flattenWithPath_ok hfn h
  obtain ⟨k, hk⟩ := leavesByLevel_of_traverses hbs
  have hlevels : (∃ k, ∀ fuel, k ≤ fuel →
      leavesByLevel py reg fuel t = .ok (bs.map Branch.pushed)) ↔ FirstItemsOnly py reg t := by
    rw [← hbs.keys_agree_iff hnames, ← pushed_eq_byLevel_iff]
    constructor
    · rintro ⟨k', hk'⟩
      have heq := (hk' (max k k') (by omega)).symm.trans (hk (max k k') (by omega))
      injection heq
    · intro heq
      exact ⟨k, fun fuel hfuel => by rw [hk fuel hfuel, heq]⟩
  constructor
  · intro hagree
    exact ⟨hlevels.mp hagree.byLevel, fun hcustom => hbs.fieldsOnce (hagree.distinct hcustom)⟩
  · rintro ⟨hfirst, hfields⟩
    refine ⟨hlevels.mpr hfirst, ?_, fun hcustom => hbs.distinctPaths ?_⟩
    · obtain ⟨k', hk'⟩ := flatten_of_flattens hflat
      refine ⟨k', { registry := reg, traversal := tree.postorder }, fun fuel hfuel => ?_⟩
      rw [hk' fuel hfuel, List.map_map]
      rfl
    · intro path y n items hy hexp
      exact distinctItems_of_expand hnames hcustom (hfields hcustom) hy hexp

/-- An interpreter with namedtuple classes of two fields, `x` and `y`. -/
def pointRuntime : KeyRuntime ℕ where
  toRuntime :=
    { Runtime.plain [0] with
      getattr := fun x name =>
        if x.isNamedTuple ∧ name = "_fields" then .ok (.tuple [.str "x", .str "y"])
        else (Runtime.plain [0]).getattr x name }
  str
    | .str s => .ok s
    | _ => .ok "<object>"
  eq a b := a.beq b
  eqKey _ _ := false
  eq_refl a := (PyObj.beq_iff a a).mpr rfl

/-- A point with two coordinates. -/
def point (x y : PyObj ℕ) : PyObj ℕ := .namedTuple 0 [x, y]

theorem expandWithKeys_point (x y : PyObj ℕ) :
    expandWithKeys pointRuntime builtinRegistry (point x y) =
      .ok ({ kind := .namedTuple, arity := 2, nodeData := some (.type (.user 0)) },
        [(.getAttr "x", x), (.getAttr "y", y)]) := rfl

/-- What can be reached from a point with a number and an empty tuple. -/
theorem visits_point {path : List (Key ℕ)} {y : PyObj ℕ}
    (h : Visits pointRuntime builtinRegistry (point (.atom 1 5) (.tuple [])) path y) :
    y = point (.atom 1 5) (.tuple []) ∨ y = .atom 1 5 ∨ y = .tuple [] := by
  cases h with
  | refl => exact .inl rfl
  | child hexp hm h =>
      rw [expandWithKeys_point] at hexp
      injection hexp with hexp
      injection hexp with _ hexp
      subst hexp
      -- Neither of the two has anything below it.
      rcases List.mem_cons.mp hm with rfl | hm
      · cases h with
        | refl => exact .inr (.inl rfl)
        | child hexp hm _ =>
            injection hexp with hexp
            injection hexp with _ hexp
            subst hexp
            cases hm
      · rw [List.mem_singleton.mp hm] at h
        cases h with
        | refl => exact .inr (.inr rfl)
        | child hexp hm _ =>
            injection hexp with hexp
            injection hexp with _ hexp
            subst hexp
            cases hm

theorem keyPathsAgree_iff_point : ∃ d,
    flattenWithPath pointRuntime builtinRegistry none 2 (point (.atom 1 5) (.tuple [])) =
      .ok ([([.getAttr "x"], .atom 1 5)], d) ∧
    (KeyPathsAgree pointRuntime builtinRegistry (point (.atom 1 5) (.tuple []))
        [([.getAttr "x"], .atom 1 5)] ↔
      FirstItemsOnly pointRuntime builtinRegistry (point (.atom 1 5) (.tuple [])) ∧
        (CustomKeysDistinct pointRuntime builtinRegistry (point (.atom 1 5) (.tuple [])) →
          FieldsOnce pointRuntime builtinRegistry (point (.atom 1 5) (.tuple [])))) := by
  refine ⟨_, rfl, @keyPathsAgree_iff ℕ _ _ 2 _ _ _ rfl ?_ ⟨?_, ?_⟩⟩
  · intro r hr hsome
    simp [builtinRegistry, PyTreeRegistry.new, PyTreeRegistry.builtins] at hr
    rcases hr with rfl | rfl | rfl | rfl <;> cases hsome
  · intro path x hx hk
    rcases visits_point hx with rfl | rfl | rfl <;> cases hk
  · intro path x names hx hk hn
    rcases visits_point hx with rfl | rfl | rfl
    · have heq : namedTupleNames pointRuntime (point (.atom 1 5) (.tuple [])) =
          .ok ["x", "y"] := rfl
      rw [heq] at hn
      injection hn with hn
      rw [← hn]
      decide
    · cases hk
    · cases hk

/--
A single level gives both coordinates of a point the name of the first: its result differs
from that of `FlattenWithPath`, and does not even tell the coordinates apart.
-/
theorem keyPaths_of_point : ∃ d,
    flattenWithPath pointRuntime builtinRegistry none 2 (point (.atom 1 5) (.atom 1 6)) =
      .ok ([([.getAttr "x"], .atom 1 5), ([.getAttr "y"], .atom 1 6)], d) ∧
    leavesByLevel pointRuntime builtinRegistry 2 (point (.atom 1 5) (.atom 1 6)) =
      .ok [([.getAttr "x"], .atom 1 5), ([.getAttr "x"], .atom 1 6)] ∧
    ¬ KeyPathsAgree pointRuntime builtinRegistry (point (.atom 1 5) (.atom 1 6))
      [([.getAttr "x"], .atom 1 5), ([.getAttr "y"], .atom 1 6)] := by
  refine ⟨_, rfl, rfl, fun h => ?_⟩
  obtain ⟨k, hk⟩ := h.byLevel
  have heval : leavesByLevel pointRuntime builtinRegistry (k + 2)
      (point (.atom 1 5) (.atom 1 6)) =
        .ok [([.getAttr "x"], .atom 1 5), ([.getAttr "x"], .atom 1 6)] := rfl
  have heq := (hk (k + 2) (by omega)).symm.trans heval
  simp at heq

end JaxDas.Pytree
