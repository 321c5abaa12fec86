import JaxDas.Pytree.Unflatten

/-!
# What equality of definitions is worth

`operator==` goes through two node lists in step. It compares the registration of
a node only when the node is a custom one, and `kDataclass` is a kind of its own;
so two dataclasses with equally many data fields and equal meta values pass for
each other, while the hash of a definition, which takes in the registration of
every node, tells them apart.

`Alike` is what the comparison finds out about two nodes, `SameNode` what it ought
to find out. They differ in the type of a dataclass and in nothing else, and that
is exactly when equality goes wrong: `equalMeansSame_iff`.
-/

namespace JaxDas.Pytree

open PostOrder

variable {α : Type}

/-- The type of the container that a node rebuilds. -/
def Node.containerType (n : Node α) : Option TypeId :=
  match n.kind with
  | .leaf => none
  | .none => some .noneType
  | .tuple => some .tuple
  | .list => some .list
  | .dict => some .dict
  | .namedTuple =>
      match n.nodeData with
      | some (.type t) => some t
      | _ => none
  | .custom | .dataclass => n.custom.map (·.type)

/-- Two nodes agree, except that two dataclass nodes may be of different types. -/
structure Alike (py : Runtime α) (a b : Node α) : Prop where
  kind : a.kind = b.kind
  arity : a.arity = b.arity
  /-- Dictionary keys, compared one by one. -/
  keys : List.Forall₂ (fun k l => py.ne k l = .ok false) a.sortedDictKeys b.sortedDictKeys
  /-- The auxiliary data, when there is some. -/
  data : ∀ x y, a.nodeData = some x → b.nodeData = some y → py.ne x y = .ok false
  /-- The container types, short of dataclasses. -/
  type : a.kind ≠ .dataclass → a.containerType = b.containerType

/-- Two nodes describe the same container. -/
structure SameNode (py : Runtime α) (a b : Node α) : Prop extends Alike py a b where
  containerType : a.containerType = b.containerType

/--
Two definitions agree node by node as far as `Alike` goes, but somewhere a
dataclass of one type stands for a dataclass of another.
-/
def ConfusedDataclasses (py : Runtime α) (d e : PyTreeDef α) : Prop :=
  List.Forall₂ (Alike py) d.traversal e.traversal ∧
    ¬ List.Forall₂ (fun a b => a.kind = .dataclass → a.containerType = b.containerType)
      d.traversal e.traversal

/-! ## The comparison of two nodes -/

section Nodes

variable {py : Runtime α} {reg : PyTreeRegistry α} {a b : Node α}

theorem isSortedPyDictKeysEqual_iff : ∀ {ks ls : List (PyObj α)},
    isSortedPyDictKeysEqual py ks ls = .ok true ↔
      List.Forall₂ (fun k l => py.ne k l = .ok false) ks ls
  | [], [] => by simp [isSortedPyDictKeysEqual]
  | [], _ :: _ => by simp [isSortedPyDictKeysEqual]
  | _ :: _, [] => by simp [isSortedPyDictKeysEqual]
  | k :: ks, l :: ls => by
      rw [isSortedPyDictKeysEqual, List.forall₂_cons]
      cases py.ne k l with
      | error e => simp [bind, Except.bind]
      | ok r =>
          cases r with
          | true => simp [bind, Except.bind]
          | false =>
              show isSortedPyDictKeysEqual py ks ls = .ok true ↔ _
              rw [isSortedPyDictKeysEqual_iff]
              simp

theorem nodeDataDiffers_iff :
    nodeDataDiffers py a b = .ok false ↔
      ∀ x y, a.nodeData = some x → b.nodeData = some y → py.ne x y = .ok false := by
  unfold nodeDataDiffers
  cases a.nodeData with
  | none => simp
  | some x =>
      cases b.nodeData with
      | none => simp
      | some y => cases h : py.ne x y <;> simp [h]

/-- Data is present on both sides or on neither, once the kinds are equal. -/
theorem NodeShape.isSome_nodeData (ha : NodeShape reg a) (hb : NodeShape reg b)
    (hk : a.kind = b.kind) : a.nodeData.isSome = b.nodeData.isSome := by
  by_cases h : a.kind = .namedTuple
  · obtain ⟨s, hs⟩ := ha.namedTuple h
    obtain ⟨t, ht⟩ := hb.namedTuple (hk ▸ h)
    rw [hs, ht]; rfl
  by_cases h' : a.kind = .custom ∨ a.kind = .dataclass
  · obtain ⟨_, x, _, _, _, hx⟩ := ha.custom h'
    obtain ⟨_, y, _, _, _, hy⟩ := hb.custom (hk ▸ h')
    rw [hx, hy]; rfl
  · push Not at h'
    rw [ha.noData h h'.1 h'.2, hb.noData (hk ▸ h) (hk ▸ h'.1) (hk ▸ h'.2)]

/-- Registrations differ exactly when their types do: one registry has one for each type. -/
theorem customDiffers_eq_false (ha : NodeShape reg a) (hb : NodeShape reg b)
    (hk : a.kind = b.kind) :
    customDiffers a b = false ↔ (a.kind = .custom → a.containerType = b.containerType) := by
  unfold customDiffers
  by_cases hc : a.kind = .custom
  · obtain ⟨r, _, hr, hrm, _, _⟩ := ha.custom (.inl hc)
    obtain ⟨s, _, hs, hsm, _, _⟩ := hb.custom (.inl (hk ▸ hc))
    have hta : a.containerType = some r.type := by simp [Node.containerType, hc, hr]
    have htb : b.containerType = some s.type := by simp [Node.containerType, ← hk, hc, hs]
    rw [hta, htb, hr, hs]
    constructor
    · intro h _
      simp only [hc, decide_true, Bool.true_and, Bool.or_eq_false_iff, ne_eq, decide_eq_false_iff_not,
        not_not] at h
      rw [h.2]
    · intro h
      have hrs : r = s := reg.eq_of_type hrm hsm (by simpa using h hc)
      simp [hrs]
  · simp [hc]

/-- The type of a node that is neither custom nor a dataclass is compared by other means. -/
theorem containerType_eq (ha : NodeShape reg a) (hb : NodeShape reg b) (hk : a.kind = b.kind)
    (hdata : ∀ x y, a.nodeData = some x → b.nodeData = some y → py.ne x y = .ok false)
    (hc : a.kind ≠ .custom) (hd : a.kind ≠ .dataclass) : a.containerType = b.containerType := by
  by_cases hn : a.kind = .namedTuple
  · obtain ⟨s, hs⟩ := ha.namedTuple hn
    obtain ⟨t, ht⟩ := hb.namedTuple (hk ▸ hn)
    have hne := hdata _ _ hs ht
    rw [py.ne_type] at hne
    have hst : s = t := by simpa using hne
    simp [Node.containerType, ← hk, hn, hs, ht, hst]
  · unfold Node.containerType
    rw [← hk]
    cases h : a.kind <;> simp_all

/-- **One round of `operator==`.** It answers `true` exactly for nodes that are alike. -/
theorem nodeEq_iff (ha : NodeShape reg a) (hb : NodeShape reg b) :
    nodeEq py a b = .ok true ↔ Alike py a b := by
  unfold nodeEq
  constructor
  · intro h
    rcases ite_ok h with ⟨_, h⟩ | ⟨hfields, h⟩
    · exact absurd h (by simp)
    push Not at hfields
    rcases ite_ok h with ⟨_, h⟩ | ⟨hcust, h⟩
    · exact absurd h (by simp)
    obtain ⟨r, hr, h⟩ := bind_ok.mp h
    rcases ite_ok h with ⟨_, h⟩ | ⟨hrf, h⟩
    · exact absurd h (by simp)
    have hdata := nodeDataDiffers_iff.mp (by rw [hr, Bool.eq_false_iff.mpr hrf])
    have hcust' := (customDiffers_eq_false ha hb hfields.1).mp (Bool.eq_false_iff.mpr hcust)
    refine ⟨hfields.1, hfields.2.1, isSortedPyDictKeysEqual_iff.mp h, hdata, fun hd => ?_⟩
    by_cases hc : a.kind = .custom
    · exact hcust' hc
    · exact containerType_eq ha hb hfields.1 hdata hc hd
  · intro h
    have hcust := (customDiffers_eq_false ha hb h.kind).mpr fun hc => h.type (by rw [hc]; simp)
    rw [if_neg (by simp [h.kind, h.arity, ha.isSome_nodeData hb h.kind, h.keys.length_eq]),
      hcust, nodeDataDiffers_iff.mpr h.data]
    exact isSortedPyDictKeysEqual_iff.mpr h.keys

end Nodes

/-! ## The comparison of two definitions -/

variable {py : Runtime α} {reg : PyTreeRegistry α}

theorem nodesEq_iff : ∀ {ns ms : List (Node α)}, (∀ n ∈ ns, NodeShape reg n) →
    (∀ m ∈ ms, NodeShape reg m) → ns.length = ms.length →
    (nodesEq py ns ms = .ok true ↔ List.Forall₂ (Alike py) ns ms)
  | [], [], _, _, _ => by simp [nodesEq]
  | [], _ :: _, _, _, h => absurd h (by simp)
  | _ :: _, [], _, _, h => absurd h (by simp)
  | n :: ns, m :: ms, hn, hm, hlen => by
      have ih : nodesEq py ns ms = .ok true ↔ List.Forall₂ (Alike py) ns ms :=
        nodesEq_iff (fun x hx => hn x (List.mem_cons_of_mem _ hx))
          (fun x hx => hm x (List.mem_cons_of_mem _ hx)) (Nat.succ.inj hlen)
      have key : nodeEq py n m = .ok true ↔ Alike py n m :=
        nodeEq_iff (hn n List.mem_cons_self) (hm m List.mem_cons_self)
      rw [List.forall₂_cons, ← key, ← ih, nodesEq]
      cases nodeEq py n m with
      | error e => simp [bind, Except.bind]
      | ok r => cases r <;> simp [bind, Except.bind]

/-- **`operator==`** holds exactly of definitions that are alike node by node. -/
theorem eq_iff {d e : PyTreeDef α} (hd : ∀ n ∈ d.traversal, NodeShape reg n)
    (he : ∀ n ∈ e.traversal, NodeShape reg n) :
    d.eq py e = .ok true ↔ List.Forall₂ (Alike py) d.traversal e.traversal := by
  unfold PyTreeDef.eq
  by_cases hlen : d.traversal.length = e.traversal.length
  · rw [if_neg (not_not.mpr hlen), nodesEq_iff hd he hlen]
  · rw [if_pos hlen]
    exact ⟨fun h => absurd h (by simp), fun h => absurd h.length_eq hlen⟩

/-! ## What equal definitions rebuild -/

/-- Both computations return related values, or both raise. -/
inductive SameResult {ε β γ : Type} (R : β → γ → Prop) : Except ε β → Except ε γ → Prop where
  | ok {x : β} {y : γ} : R x y → SameResult R (.ok x) (.ok y)
  | error {e e' : ε} : SameResult R (.error e) (.error e')

theorem SameResult.of_iff {ε β γ : Type} {R : β → γ → Prop} {p : Except ε β} {q : Except ε γ}
    (h : ∀ x, p = .ok x → ∃ y, q = .ok y ∧ R x y) (h' : ∀ y, q = .ok y → ∃ x, p = .ok x ∧ R x y) :
    SameResult R p q := by
  cases p with
  | ok x => obtain ⟨y, rfl, hxy⟩ := h x rfl; exact .ok hxy
  | error e =>
      cases q with
      | error e' => exact .error
      | ok y => obtain ⟨_, hx, _⟩ := h' y rfl; exact nomatch hx

theorem SameResult.right {ε β γ : Type} {R : β → γ → Prop} {p : Except ε β} {q : Except ε γ}
    (h : SameResult R p q) {x : β} (hp : p = .ok x) : ∃ y, q = .ok y ∧ R x y := by
  cases h with
  | ok hxy => injection hp with hp; exact ⟨_, rfl, hp ▸ hxy⟩
  | error => exact nomatch hp

theorem SameResult.left {ε β γ : Type} {R : β → γ → Prop} {p : Except ε β} {q : Except ε γ}
    (h : SameResult R p q) {y : γ} (hq : q = .ok y) : ∃ x, p = .ok x ∧ R x y := by
  cases h with
  | ok hxy => injection hq with hq; exact ⟨_, rfl, hq ▸ hxy⟩
  | error => exact nomatch hq

theorem SameResult.bind {ε β γ β' γ' : Type} {R : β → γ → Prop} {S : β' → γ' → Prop}
    {p : Except ε β} {q : Except ε γ} {f : β → Except ε β'} {g : γ → Except ε γ'}
    (h : SameResult R p q) (hfg : ∀ x y, R x y → SameResult S (f x) (g y)) :
    SameResult S (p.bind f) (q.bind g) := by
  cases h with
  | ok hxy => exact hfg _ _ hxy
  | error => exact .error

/--
A notion of equal trees: the containers respect it, and so does the code of the
program that rebuilds namedtuples, custom nodes and dataclasses, from auxiliary
data that Python calls equal.
-/
structure TreeEquality (py : Runtime α) (reg : PyTreeRegistry α)
    (R : PyObj α → PyObj α → Prop) : Prop where
  refl : ∀ x, R x x
  tuple : ∀ {xs ys}, List.Forall₂ R xs ys → R (.tuple xs) (.tuple ys)
  list : ∀ {xs ys}, List.Forall₂ R xs ys → R (.list xs) (.list ys)
  dict : ∀ {ks ls xs ys}, List.Forall₂ (fun k l => py.ne k l = .ok false) ks ls →
    List.Forall₂ R xs ys → R (mkDict py (ks.zip xs)) (mkDict py (ls.zip ys))
  namedTuple : ∀ t {xs ys}, List.Forall₂ R xs ys →
    SameResult R (py.call (.type t) xs) (py.call (.type t) ys)
  custom : ∀ r ∈ reg.registrations, r.kind = .custom → ∀ {x y xs ys},
    py.ne x y = .ok false → List.Forall₂ R xs ys →
    SameResult R (r.fromIterable.call x xs) (r.fromIterable.call y ys)
  dataclass : ∀ r ∈ reg.registrations, r.kind = .dataclass → ∀ {as bs xs ys},
    py.ne (.tuple as) (.tuple bs) = .ok false → List.Forall₂ R xs ys →
    SameResult R
      (py.callKw (.type r.type) (kwargs (r.metaFields.zip as ++ r.dataFields.zip xs)))
      (py.callKw (.type r.type) (kwargs (r.metaFields.zip bs ++ r.dataFields.zip ys)))

/-- Two definitions describe the same structure. -/
structure DescribesSame (py : Runtime α) (reg : PyTreeRegistry α) (d e : PyTreeDef α) : Prop where
  /-- The same container at every node. -/
  nodes : List.Forall₂ (SameNode py) d.traversal e.traversal
  /-- The same leaves are put together to equal trees, whatever sense of equality one takes. -/
  unflatten : ∀ R, TreeEquality py reg R → ∀ leaves,
    SameResult R (d.unflatten py leaves) (e.unflatten py leaves)
  hash : ∀ combine, d.hash combine = e.hash combine

section Rebuild

variable {a b : Node α} {R : PyObj α → PyObj α → Prop}

/-- Nodes that describe the same container and are custom nodes have one registration. -/
theorem SameNode.custom_eq (h : SameNode py a b) (ha : NodeShape reg a) (hb : NodeShape reg b) :
    a.custom = b.custom := by
  by_cases hc : a.kind = .custom ∨ a.kind = .dataclass
  · obtain ⟨r, _, hr, hrm, _, _⟩ := ha.custom hc
    obtain ⟨s, _, hs, hsm, _, _⟩ := hb.custom (h.kind ▸ hc)
    have ht := h.containerType
    unfold Node.containerType at ht
    rw [← h.kind, hr, hs] at ht
    have hrs : r.type = s.type := by rcases hc with hc | hc <;> simpa [hc] using ht
    rw [hr, hs, reg.eq_of_type hrm hsm hrs]
  · push Not at hc
    rw [ha.noCustom hc.1 hc.2, hb.noCustom (h.kind ▸ hc.1) (h.kind ▸ hc.2)]

theorem SameNode.hashFields_eq (h : SameNode py a b) (ha : NodeShape reg a)
    (hb : NodeShape reg b) : a.hashFields = b.hashFields := by
  unfold Node.hashFields
  rw [h.kind, h.arity, h.custom_eq ha hb]

/-- `MakeNode` on equal nodes and equal children. -/
theorem makeNode_rel (hR : TreeEquality py reg R) (h : SameNode py a b) (ha : NodeShape reg a)
    (hb : NodeShape reg b) {xs ys : List (PyObj α)} (hxy : List.Forall₂ R xs ys) :
    SameResult R (makeNode py a xs) (makeNode py b ys) := by
  unfold makeNode
  rw [← h.arity, hxy.length_eq, ← h.kind, ← h.custom_eq ha hb, ← h.keys.length_eq]
  by_cases hlen : (ys.length : ℤ) ≠ a.arity
  · rw [if_pos hlen, if_pos hlen]; exact .error
  rw [if_neg hlen, if_neg hlen]
  cases hk : a.kind with
  | leaf => exact .error
  | none => exact .ok (hR.refl _)
  | tuple => exact .ok (hR.tuple hxy)
  | list => exact .ok (hR.list hxy)
  | namedTuple =>
      obtain ⟨s, hs⟩ := ha.namedTuple hk
      obtain ⟨t, ht⟩ := hb.namedTuple (h.kind ▸ hk)
      have hne := h.data _ _ hs ht
      rw [py.ne_type] at hne
      have hst : s = t := by simpa using hne
      rw [hs, ht, hst]
      exact hR.namedTuple t hxy
  | dict =>
      dsimp only
      split
      · exact .error
      · exact .ok (hR.dict h.keys hxy)
  | custom =>
      obtain ⟨r, x, hr, hrm, hrk, hx⟩ := ha.custom (.inl hk)
      obtain ⟨_, y, _, _, _, hy⟩ := hb.custom (.inl (h.kind ▸ hk))
      rw [hr, hx, hy]
      exact hR.custom r hrm (hrk.trans hk) (h.data x y hx hy) hxy
  | dataclass =>
      obtain ⟨r, _, hr, hrm, hrk, _⟩ := ha.custom (.inr hk)
      have hrb : b.custom = some r := (h.custom_eq ha hb).symm.trans hr
      obtain ⟨_, as, has, hasl⟩ := ha.dataclass r hk hr
      obtain ⟨_, bs, hbs, hbsl⟩ := hb.dataclass r (h.kind ▸ hk) hrb
      rw [hr, has, hbs]
      simp only [Option.getD_some, py.iter_tuple, hasl, hbsl]
      split
      · exact .error
      · exact hR.dataclass r hrm (hrk.trans hk) (h.data _ _ has hbs) hxy

/-- One entry of the agenda, on equal nodes and equal children. -/
theorem build_rel (hR : TreeEquality py reg R) (h : SameNode py a b) (ha : NodeShape reg a)
    (hb : NodeShape reg b) {xs ys : List (PyObj α)} (hxy : List.Forall₂ R xs ys)
    (leaves : List (PyObj α)) :
    SameResult (fun p q => R p.1 q.1 ∧ p.2 = q.2) (build py a xs leaves) (build py b ys leaves) := by
  by_cases hk : a.kind = .leaf
  · have hkb : b.kind = .leaf := h.kind ▸ hk
    cases leaves with
    | nil => simp only [build, hk, hkb, if_true]; exact .error
    | cons x rest => rw [build_leaf hk, build_leaf hkb]; exact .ok ⟨hR.refl x, rfl⟩
  · rw [build_node hk, build_node (h.kind ▸ hk)]
    exact (makeNode_rel hR h ha hb hxy).bind fun _ _ ho => .ok ⟨ho, rfl⟩

end Rebuild

theorem forall₂_and {β γ : Type} {R : β → γ → Prop} {p : β → Prop} {q : γ → Prop}
    {xs : List β} {ys : List γ} (h : List.Forall₂ R xs ys) (hp : ∀ x ∈ xs, p x)
    (hq : ∀ y ∈ ys, q y) : List.Forall₂ (fun x y => R x y ∧ p x ∧ q y) xs ys := by
  induction h with
  | nil => exact .nil
  | cons hxy _ ih =>
      exact .cons ⟨hxy, hp _ List.mem_cons_self, hq _ List.mem_cons_self⟩
        (ih (fun x hx => hp x (List.mem_cons_of_mem _ hx))
          fun y hy => hq y (List.mem_cons_of_mem _ hy))

/-- **Definitions of the same containers rebuild equal trees.** -/
theorem unflatten_rel {d e : PyTreeDef α} (hd : ∀ n ∈ d.traversal, NodeShape reg n)
    (he : ∀ n ∈ e.traversal, NodeShape reg n)
    (h : List.Forall₂ (SameNode py) d.traversal e.traversal) {R : PyObj α → PyObj α → Prop}
    (hR : TreeEquality py reg R) (leaves : List (PyObj α)) :
    SameResult R (d.unflatten py leaves) (e.unflatten py leaves) := by
  have hrel := forall₂_and h hd he
  have hchildren : ∀ a b : Node α, (SameNode py a b ∧ NodeShape reg a ∧ NodeShape reg b) →
      a.children = b.children := fun a b hab => by rw [Node.children, hab.1.arity]
  -- The two machines run in step, whichever of them is known to succeed.
  refine .of_iff (fun x hx => ?_) fun y hy => ?_
  · rw [unflatten_iff hd] at hx
    obtain ⟨st, hst, hrst⟩ := run_rel (g := build py) (fun a b hab => hchildren a b hab)
      (fun a b xs ys s o s' hab hxy _ ho => by
        obtain ⟨⟨o', _⟩, hq, hoq, rfl⟩ := (build_rel hR hab.1 hab.2.1 hab.2.2 hxy s).right ho
        exact ⟨o', hq, hoq⟩) hrel .nil hx
    obtain ⟨y, _, hxy, hnil, rfl⟩ := List.forall₂_cons_left_iff.mp hrst
    obtain rfl := List.forall₂_nil_left_iff.mp hnil
    exact ⟨y, (unflatten_iff he).mpr hst, hxy⟩
  · rw [unflatten_iff he] at hy
    obtain ⟨st, hst, hrst⟩ := run_rel (S := flip R) (g := build py)
      (fun b a hab => (hchildren a b hab).symm)
      (fun b a ys xs s o s' hab hyx _ ho => by
        obtain ⟨⟨o', _⟩, hq, hoq, rfl⟩ := (build_rel hR hab.1 hab.2.1 hab.2.2 hyx.flip s).left ho
        exact ⟨o', hq, hoq⟩) (List.Forall₂.flip (R := flip _) hrel) .nil hy
    obtain ⟨x, _, hxy, hnil, rfl⟩ := List.forall₂_cons_left_iff.mp hrst
    obtain rfl := List.forall₂_nil_left_iff.mp hnil
    exact ⟨x, (unflatten_iff hd).mpr hst, hxy⟩

theorem hash_eq {ns ms : List (Node α)} (hn : ∀ n ∈ ns, NodeShape reg n)
    (hm : ∀ m ∈ ms, NodeShape reg m) (h : List.Forall₂ (SameNode py) ns ms) :
    ns.map Node.hashFields = ms.map Node.hashFields := by
  induction h with
  | nil => rfl
  | cons hab _ ih =>
      rw [List.map_cons, List.map_cons,
        hab.hashFields_eq (hn _ List.mem_cons_self) (hm _ List.mem_cons_self),
        ih (fun n hn' => hn n (List.mem_cons_of_mem _ hn'))
          fun m hm' => hm m (List.mem_cons_of_mem _ hm')]

/-- Alike and of the same container type wherever it is a dataclass: the same node. -/
theorem forall₂_sameNode {ns ms : List (Node α)} (h : List.Forall₂ (Alike py) ns ms)
    (ht : List.Forall₂ (fun a b => a.kind = .dataclass → a.containerType = b.containerType) ns ms) :
    List.Forall₂ (SameNode py) ns ms := by
  induction h with
  | nil => exact .nil
  | @cons a b _ _ hab _ ih =>
      cases ht with
      | cons hdc ht =>
          refine .cons ⟨hab, ?_⟩ (ih ht)
          by_cases hk : a.kind = .dataclass
          · exact hdc hk
          · exact hab.type hk

/--
**When equal definitions describe the same structure.** For definitions that
flattening produces over one registry, `operator==` keeps its promise (the same
containers, equal trees from the same leaves, equal hashes) unless the two
definitions differ in the types of dataclasses and in nothing else.
-/
theorem eq_describesSame_iff {p q : LeafPredicate α} {fuel fuel' : ℕ} {x y : PyObj α}
    {ls ls' : List (PyObj α)} {d e : PyTreeDef α} (hd : flatten py reg p fuel x = .ok (ls, d))
    (he : flatten py reg q fuel' y = .ok (ls', e)) :
    (d.eq py e = .ok true → DescribesSame py reg d e) ↔ ¬ ConfusedDataclasses py d e := by
  obtain ⟨t, ht, rfl⟩ := flatten_ok hd
  obtain ⟨u, hu, rfl⟩ := flatten_ok he
  have hts := ht.treeOk.shape
  have hus := hu.treeOk.shape
  rw [eq_iff hts hus]
  constructor
  · rintro h ⟨halike, hconf⟩
    exact hconf ((h halike).nodes.imp fun a b hab _ => hab.containerType)
  · intro h halike
    have htype : List.Forall₂ (fun a b : Node α =>
        a.kind = .dataclass → a.containerType = b.containerType) t.postorder u.postorder := by
      by_contra hne
      exact h ⟨halike, hne⟩
    have hsame := forall₂_sameNode halike htype
    exact ⟨hsame, fun R hR leaves => unflatten_rel hts hus hsame hR leaves,
      fun combine => congrArg combine (hash_eq hts hus hsame)⟩

/-! ## Two dataclasses with one field -/

/-- A dataclass with the data field `x` and no meta fields. -/
def boxed (c : ClassId) : Registration ℕ :=
  { kind := .dataclass, type := .user c, dataFields := ["x"] }

/-- A registry of two such dataclasses. -/
def boxRegistry : PyTreeRegistry ℕ where
  id := 0
  registrations := [boxed 0, boxed 1]
  nodup := by simp [boxed]
  kindOk := by simp [boxed, Registration.KindOk]

/-- An instance. -/
def box (c : ClassId) : PyObj ℕ := .object c [("x", .atom 2 7)]

/-- The definition that a flattened instance has. -/
def boxDef (c : ClassId) : PyTreeDef ℕ where
  registry := boxRegistry
  traversal :=
    [{ numLeaves := 1, numNodes := 1 },
     { kind := .dataclass, arity := 1, custom := some (boxed c), nodeData := some (.tuple []),
       numLeaves := 1, numNodes := 2 }]

theorem flatten_box_zero :
    flatten (.plain []) boxRegistry none 2 (box 0) = .ok ([.atom 2 7], boxDef 0) := rfl

theorem flatten_box_one :
    flatten (.plain []) boxRegistry none 2 (box 1) = .ok ([.atom 2 7], boxDef 1) := rfl

theorem eq_describesSame_boxes :
    ((boxDef 0).eq (.plain []) (boxDef 1) = .ok true →
      DescribesSame (.plain []) boxRegistry (boxDef 0) (boxDef 1)) ↔
    ¬ ConfusedDataclasses (.plain []) (boxDef 0) (boxDef 1) :=
  eq_describesSame_iff flatten_box_zero flatten_box_one

/-- Instances of two dataclasses flatten to equal definitions of different structure and hash. -/
theorem eq_boxes_not_describesSame :
    flatten (.plain []) boxRegistry none 2 (box 0) = .ok ([.atom 2 7], boxDef 0) ∧
    flatten (.plain []) boxRegistry none 2 (box 1) = .ok ([.atom 2 7], boxDef 1) ∧
    (boxDef 0).eq (.plain []) (boxDef 1) = .ok true ∧
    ¬ DescribesSame (.plain []) boxRegistry (boxDef 0) (boxDef 1) ∧
    ∃ combine, (boxDef 0).hash combine ≠ (boxDef 1).hash combine := by
  refine ⟨rfl, rfl, by rfl, fun h => ?_, ?_⟩
  · -- The roots are containers of different types.
    cases h.nodes with
    | cons _ h =>
        cases h with
        | cons hroot _ => exact absurd hroot.containerType (by decide)
  · exact ⟨fun ns => if (⟨.dataclass, 1, some (.user 0), none⟩ : NodeHash) ∈ ns then 1 else 0,
      by decide⟩

end JaxDas.Pytree
