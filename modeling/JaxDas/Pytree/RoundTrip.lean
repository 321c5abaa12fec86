import JaxDas.Pytree.Counts
import JaxDas.Pytree.Unflatten

/-!
# Flattening and unflattening are inverse

Two directions, with one fact about a single node under each. An object whose
class can be taken apart and put together again is rebuilt from its children
(`expand_rebuilds`), so a pytree is rebuilt from its leaves. A node whose data fits
its arity is found again in whatever it makes of its children (`makeNode_expand`),
so a definition is found again in whatever it makes of its leaves — whichever
constructor the definition came from, as long as each of its nodes fits.

`FromNodeDataAndChildren` is the one constructor that takes node data and arity
from its caller and compares neither with the other.
-/

namespace JaxDas.Pytree

open PostOrder

variable {α : Type}

/-- The same tree, with dictionaries taken as mappings. -/
inductive SameTree : PyObj α → PyObj α → Prop where
  | refl (x : PyObj α) : SameTree x x
  | tuple {xs ys} : List.Forall₂ SameTree xs ys → SameTree (.tuple xs) (.tuple ys)
  | list {xs ys} : List.Forall₂ SameTree xs ys → SameTree (.list xs) (.list ys)
  | namedTuple (c : ClassId) {xs ys} : List.Forall₂ SameTree xs ys →
      SameTree (.namedTuple c xs) (.namedTuple c ys)
  /-- The same values under the same keys, in any order. -/
  | dict {ks xs ys : List (PyObj α)} {items} : List.Forall₂ SameTree xs ys → (ks.zip ys).Perm items →
      SameTree (.dict (ks.zip xs)) (.dict items)
  | object (c : ClassId) {names : List String} {xs ys} : List.Forall₂ SameTree xs ys →
      SameTree (.object c (names.zip xs)) (.object c (names.zip ys))

/-! ## Keys in order -/

/-- `k` sorts before `l`. -/
structure Below (py : Runtime α) (k l : PyObj α) : Prop where
  lt : py.lt k l = .ok true
  not_gt : py.lt l k = .ok false
  distinct : py.sameKey k l = false

/-- The keys of a dictionary, none twice, totally ordered by `<`. -/
structure OrderedKeys (py : Runtime α) (ks : List (PyObj α)) : Prop where
  total : ks.Pairwise fun k l => Below py k l ∨ Below py l k
  trans : ∀ k ∈ ks, ∀ l ∈ ks, ∀ m ∈ ks, Below py k l → Below py l m → Below py k m

/-- Keys as `GetSortedPyDictKeys` returns them. -/
def SortedKeys (py : Runtime α) (ks : List (PyObj α)) : Prop := ks.Pairwise (Below py)

section Keys

variable {py : Runtime α}

theorem OrderedKeys.tail {k : PyObj α} {ks : List (PyObj α)} (h : OrderedKeys py (k :: ks)) :
    OrderedKeys py ks where
  total := (List.pairwise_cons.mp h.total).2
  trans a ha b hb c hc := h.trans a (List.mem_cons_of_mem _ ha) b (List.mem_cons_of_mem _ hb)
    c (List.mem_cons_of_mem _ hc)

theorem OrderedKeys.perm {ks ls : List (PyObj α)} (h : OrderedKeys py ks) (hp : ks.Perm ls) :
    OrderedKeys py ls where
  total := hp.pairwise h.total fun hkl => hkl.symm
  trans a ha b hb c hc :=
    h.trans a (hp.mem_iff.mpr ha) b (hp.mem_iff.mpr hb) c (hp.mem_iff.mpr hc)

theorem insertItem_sorted {m : PyObj α × PyObj α} : ∀ {items : List (PyObj α × PyObj α)},
    OrderedKeys py ((m :: items).map Prod.fst) → SortedKeys py (items.map Prod.fst) →
    ∃ r, insertItem py m items = .ok r ∧ SortedKeys py (r.map Prod.fst) ∧ r.Perm (m :: items)
  | [], _, _ => ⟨[m], rfl, List.pairwise_singleton _ _, .refl _⟩
  | n :: items, ho, hs => by
      have hmn := (List.pairwise_cons.mp ho.total).1 n.1 (by simp)
      have hn := List.pairwise_cons.mp hs
      rcases hmn with hmn | hnm
      · -- `m` comes first: it is below `n`, and so below everything after it.
        refine ⟨m :: n :: items, ?_, ?_, .refl _⟩
        · unfold insertItem; rw [hmn.not_gt]; rfl
        · refine List.pairwise_cons.mpr ⟨fun k hk => ?_, hs⟩
          rcases List.mem_cons.mp hk with rfl | hk'
          · exact hmn
          · exact ho.trans m.1 (by simp) n.1 (by simp) k (List.mem_cons_of_mem _ hk) hmn
              (hn.1 k hk')
      · have hrest : OrderedKeys py ((m :: items).map Prod.fst) :=
          (ho.perm (List.Perm.swap n.1 m.1 (items.map Prod.fst))).tail
        obtain ⟨r, hr, hsr, hp⟩ := insertItem_sorted hrest hn.2
        refine ⟨n :: r, ?_, ?_, (hp.cons n).trans (List.Perm.swap _ _ _)⟩
        · unfold insertItem; rw [hnm.lt, hr]; rfl
        · refine List.pairwise_cons.mpr ⟨fun k hk => ?_, hsr⟩
          rcases List.mem_cons.mp ((hp.map Prod.fst).mem_iff.mp hk) with rfl | hk'
          · exact hnm
          · exact hn.1 k hk'

/-- **Sorting totally ordered keys** succeeds and rearranges the items. -/
theorem sortItems_ordered : ∀ {items : List (PyObj α × PyObj α)},
    OrderedKeys py (items.map Prod.fst) →
    ∃ r, sortItems py items = .ok r ∧ SortedKeys py (r.map Prod.fst) ∧ r.Perm items
  | [], _ => ⟨[], rfl, .nil, .refl _⟩
  | m :: items, h => by
      obtain ⟨r, hr, hs, hp⟩ := sortItems_ordered h.tail
      obtain ⟨r', hr', hs', hp'⟩ :=
        insertItem_sorted (m := m) (h.perm ((hp.symm.cons m).map Prod.fst)) hs
      exact ⟨r', by unfold sortItems; rw [hr]; exact hr', hs', hp'.trans (hp.cons m)⟩

/-- Sorted items stay as they are. -/
theorem sortItems_sorted : ∀ {items : List (PyObj α × PyObj α)},
    SortedKeys py (items.map Prod.fst) → sortItems py items = .ok items
  | [], _ => rfl
  | [m], _ => rfl
  | m :: n :: items, h => by
      have hm := List.pairwise_cons.mp h
      have hmn : Below py m.1 n.1 := hm.1 n.1 (by simp)
      unfold sortItems
      rw [sortItems_sorted hm.2]
      show insertItem py m (n :: items) = _
      unfold insertItem
      rw [hmn.not_gt]
      rfl

theorem dictSet_new {k v : PyObj α} : ∀ {items : List (PyObj α × PyObj α)},
    (∀ m ∈ items, py.sameKey m.1 k = false) → dictSet py k v items = items ++ [(k, v)]
  | [], _ => rfl
  | m :: items, h => by
      rw [dictSet, h m List.mem_cons_self, dictSet_new fun n hn => h n (List.mem_cons_of_mem _ hn)]
      rfl

theorem foldl_dictSet {items : List (PyObj α × PyObj α)} :
    ∀ done : List (PyObj α × PyObj α), SortedKeys py ((done ++ items).map Prod.fst) →
    items.foldl (fun d m => dictSet py m.1 m.2 d) done = done ++ items := by
  induction items with
  | nil => intro done _; simp
  | cons m items ih =>
      intro done h
      have hnew : ∀ n ∈ done, py.sameKey n.1 m.1 = false := fun n hn => by
        rw [List.map_append] at h
        exact ((List.pairwise_append.mp h).2.2 n.1 (List.mem_map_of_mem hn) m.1 (by simp)).distinct
      rw [List.foldl_cons, dictSet_new hnew, ih _ (by simpa using h)]
      simp

/-- Assigning sorted keys one after the other makes the dictionary of those items. -/
theorem mkDict_sorted {items : List (PyObj α × PyObj α)}
    (h : SortedKeys py (items.map Prod.fst)) : mkDict py items = .dict items := by
  rw [mkDict, foldl_dictSet [] (by simpa using h)]
  rfl

end Keys

/-! ## One node -/

/-- The built-in type whose objects are nodes of this kind. -/
def PyTreeKind.builtinType : PyTreeKind → Option TypeId
  | .none => some .noneType
  | .tuple => some .tuple
  | .list => some .list
  | .dict => some .dict
  | _ => Option.none

/-- What calling a dataclass with the values of its meta and data fields comes to. -/
def construct (py : Runtime α) (r : Registration α) (auxData cs : List (PyObj α)) :
    Except PyErr (PyObj α) :=
  py.callKw (.type r.type) (kwargs (r.metaFields.zip auxData ++ r.dataFields.zip cs))

/--
The code of the program that takes `x` apart and the code that puts it together
are inverse to each other, and the keys of a dictionary can be ordered.
-/
structure Invertible (py : Runtime α) (reg : PyTreeRegistry α) (x : PyObj α) : Prop where
  dict : (reg.kindOfObject x).1 = .dict → OrderedKeys py (x.dictItems.map Prod.fst)
  /-- A namedtuple type takes as many arguments as its instances have items. -/
  namedTuple : ∀ c xs ys, x = .namedTuple c xs → ys.length = xs.length →
    py.call (.type (.user c)) ys = .ok (.namedTuple c ys)
  /-- `from_iterable` rebuilds `x` from its children. -/
  custom : ∀ r cs aux, reg.kindOfObject x = (.custom, some r) → r.toIterable py x = .ok (cs, aux) →
    ∀ cs', List.Forall₂ SameTree cs' cs → ∃ x', r.fromIterable.call aux cs' = .ok x' ∧ SameTree x' x
  /-- `to_iterable` finds what `from_iterable` was given. -/
  custom' : ∀ r cs aux, reg.kindOfObject x = (.custom, some r) →
    r.toIterable py x = .ok (cs, aux) → ∀ cs', cs'.length = cs.length →
    ∃ x', r.fromIterable.call aux cs' = .ok x' ∧ x'.typeOf = r.type ∧
      r.toIterable py x' = .ok (cs', aux)
  /-- A dataclass is rebuilt from its fields. -/
  dataclass : ∀ r cs aux, reg.kindOfObject x = (.dataclass, some r) →
    r.metaFields.mapM (py.getattr x) = .ok aux → r.dataFields.mapM (py.getattr x) = .ok cs →
    ∀ cs', List.Forall₂ SameTree cs' cs → ∃ x', construct py r aux cs' = .ok x' ∧ SameTree x' x
  /-- Its fields hold what it was constructed with. -/
  dataclass' : ∀ r cs aux, reg.kindOfObject x = (.dataclass, some r) →
    r.metaFields.mapM (py.getattr x) = .ok aux → r.dataFields.mapM (py.getattr x) = .ok cs →
    ∀ cs', cs'.length = cs.length → ∃ x', construct py r aux cs' = .ok x' ∧
      x'.typeOf = r.type ∧ r.metaFields.mapM (py.getattr x') = .ok aux ∧
      r.dataFields.mapM (py.getattr x') = .ok cs'

/--
The data and the arity of a node fit together: any children, as many as it has,
make an object that comes apart into this node and these children again.
-/
structure NodeFits (py : Runtime α) (reg : PyTreeRegistry α) (n : Node α) : Prop
    extends NodeShape reg n where
  /-- Containers of built-in types are not leaves to this registry. -/
  builtin : ∀ t, n.kind.builtinType = some t → ∃ r, reg.lookup t = some r ∧ r.kind = n.kind
  sorted : n.kind = .dict → SortedKeys py n.sortedDictKeys
  call : n.kind = .namedTuple → ∃ c, n.nodeData = some (.type (.user c)) ∧
    reg.lookup (.user c) = none ∧
    ∀ ys : List (PyObj α), ys.length = n.children →
      py.call (.type (.user c)) ys = .ok (.namedTuple c ys)
  fromIterable : ∀ r aux, n.kind = .custom → n.custom = some r → n.nodeData = some aux →
    ∀ cs : List (PyObj α), cs.length = n.children → ∃ x, r.fromIterable.call aux cs = .ok x ∧
      x.typeOf = r.type ∧ r.toIterable py x = .ok (cs, aux)
  construct : ∀ r aux, n.kind = .dataclass → n.custom = some r → n.nodeData = some (.tuple aux) →
    ∀ cs : List (PyObj α), cs.length = n.children → ∃ x, construct py r aux cs = .ok x ∧
      x.typeOf = r.type ∧ r.metaFields.mapM (py.getattr x) = .ok aux ∧
      r.dataFields.mapM (py.getattr x) = .ok cs

section Nodes

variable {py : Runtime α} {reg : PyTreeRegistry α}

theorem kindOfObject_builtin {x : PyObj α} {k : PyTreeKind} {c : Option (Registration α)}
    {t : TypeId} (h : reg.kindOfObject x = (k, c)) (hk : k.builtinType = some t) :
    x.typeOf = t ∧ ∃ r, reg.lookup t = some r ∧ r.kind = k := by
  unfold PyTreeRegistry.kindOfObject at h
  split at h
  · rename_i r hr
    injection h with h _
    subst h
    have hok := reg.kindOk r (PyTreeRegistry.lookup_mem hr)
    have ht := PyTreeRegistry.lookup_type hr
    have hrt : r.type = t := by
      unfold Registration.KindOk at hok
      cases hrk : r.kind <;> rw [hrk] at hk hok <;> simp_all [PyTreeKind.builtinType]
    rw [← ht, hrt]
    exact ⟨rfl, r, by rw [← hrt, ht]; exact hr, rfl⟩
  · split at h <;> injection h with h _ <;> subst h <;> simp [PyTreeKind.builtinType] at hk

theorem kindOfObject_namedTuple {x : PyObj α} {c : Option (Registration α)}
    (h : reg.kindOfObject x = (.namedTuple, c)) :
    ∃ cls xs, x = .namedTuple cls xs ∧ reg.lookup (.user cls) = none := by
  unfold PyTreeRegistry.kindOfObject at h
  split at h
  · rename_i r hr
    injection h with h _
    have hok := reg.kindOk r (PyTreeRegistry.lookup_mem hr)
    unfold Registration.KindOk at hok
    rw [h] at hok
    exact hok.elim
  · rename_i hnone
    cases x <;> simp [PyObj.isNamedTuple] at h
    exact ⟨_, _, rfl, hnone⟩

theorem kindOfObject_of_lookup {x : PyObj α} {r : Registration α}
    (h : reg.lookup x.typeOf = some r) :
    reg.kindOfObject x = (r.kind, if r.kind = .custom ∨ r.kind = .dataclass then some r else none) := by
  unfold PyTreeRegistry.kindOfObject
  rw [h]

theorem eq_none_of_typeOf {x : PyObj α} (h : x.typeOf = .noneType) : x = .none := by
  cases x <;> simp_all [PyObj.typeOf]

theorem eq_tuple_of_typeOf {x : PyObj α} (h : x.typeOf = .tuple) : ∃ xs, x = .tuple xs := by
  cases x <;> simp_all [PyObj.typeOf]

theorem eq_list_of_typeOf {x : PyObj α} (h : x.typeOf = .list) : ∃ xs, x = .list xs := by
  cases x <;> simp_all [PyObj.typeOf]

theorem eq_dict_of_typeOf {x : PyObj α} (h : x.typeOf = .dict) : ∃ xs, x = .dict xs := by
  cases x <;> simp_all [PyObj.typeOf]

theorem forall₂_sameTree_length {xs ys : List (PyObj α)} (h : List.Forall₂ SameTree xs ys) :
    (xs.length : ℤ) = ys.length := by rw [h.length_eq]

/--
**Taking an object apart.** The node of an invertible object fits, and makes the
object again out of children that are the same trees as its own.
-/
theorem expand_rebuilds {x : PyObj α} {n : Node α} {cs : List (PyObj α)}
    (hx : Invertible py reg x) (h : expand py reg x = .ok (n, cs)) (hk : n.kind ≠ .leaf) :
    NodeFits py reg n ∧
      ∀ cs', List.Forall₂ SameTree cs' cs → ∃ x', makeNode py n cs' = .ok x' ∧ SameTree x' x := by
  have hshape := (expand_ok h).1
  unfold expand at h
  split at h
  · rename_i c hkind
    injection h with h; injection h with hn hc; subst hn hc
    obtain ⟨ht, r, hr, hrk⟩ := kindOfObject_builtin hkind rfl
    refine ⟨⟨hshape, ?_, by simp, by simp, by simp, by simp⟩, fun cs' hcs => ?_⟩
    · simpa [PyTreeKind.builtinType] using ⟨r, hr, hrk⟩
    · obtain rfl := List.forall₂_nil_right_iff.mp hcs
      exact ⟨.none, rfl, eq_none_of_typeOf ht ▸ .refl _⟩
  · rename_i c hkind
    injection h with h; injection h with hn hc; subst hn hc
    obtain ⟨ht, r, hr, hrk⟩ := kindOfObject_builtin hkind rfl
    obtain ⟨xs, rfl⟩ := eq_tuple_of_typeOf ht
    refine ⟨⟨hshape, ?_, by simp, by simp, by simp, by simp⟩, fun cs' hcs => ?_⟩
    · simpa [PyTreeKind.builtinType] using ⟨r, hr, hrk⟩
    · refine ⟨.tuple cs', ?_, .tuple hcs⟩
      rw [makeNode, if_neg (not_not.mpr (forall₂_sameTree_length hcs))]
  · rename_i c hkind
    injection h with h; injection h with hn hc; subst hn hc
    obtain ⟨ht, r, hr, hrk⟩ := kindOfObject_builtin hkind rfl
    obtain ⟨xs, rfl⟩ := eq_list_of_typeOf ht
    refine ⟨⟨hshape, ?_, by simp, by simp, by simp, by simp⟩, fun cs' hcs => ?_⟩
    · simpa [PyTreeKind.builtinType] using ⟨r, hr, hrk⟩
    · refine ⟨.list cs', ?_, .list hcs⟩
      rw [makeNode, if_neg (not_not.mpr (forall₂_sameTree_length hcs))]
  · -- The items of the dictionary, sorted by key.
    rename_i c hkind
    obtain ⟨items, hitems, h⟩ := bind_ok.mp h
    injection h with h; injection h with hn hc; subst hn hc
    obtain ⟨ht, r, hr, hrk⟩ := kindOfObject_builtin hkind rfl
    obtain ⟨xs, rfl⟩ := eq_dict_of_typeOf ht
    obtain ⟨sorted, hs, hsorted, hperm⟩ := sortItems_ordered (hx.dict (by rw [hkind]))
    have hitems' := getSortedPyDictItems_ok hitems
    rw [hs] at hitems'
    injection hitems' with hitems'
    subst hitems'
    refine ⟨⟨hshape, ?_, fun _ => hsorted, by simp, by simp, by simp⟩, fun cs' hcs => ?_⟩
    · simpa [PyTreeKind.builtinType] using ⟨r, hr, hrk⟩
    · have hlen : cs'.length = sorted.length := by rw [hcs.length_eq, List.length_map]
      refine ⟨.dict ((sorted.map Prod.fst).zip cs'), ?_, .dict hcs ?_⟩
      · have hlen' : (cs'.length : ℤ) = (PyObj.dict xs).dictItems.length := by
          rw [hlen, hperm.length_eq]
        rw [makeNode, if_neg (not_not.mpr hlen')]
        dsimp only
        rw [if_neg (by rw [List.length_map, hlen]; omega), mkDict_sorted]
        rw [List.map_fst_zip (by simp [hlen])]
        exact hsorted
      · rw [← List.zip_of_prod rfl rfl]; exact hperm
  · rename_i r hkind
    obtain ⟨⟨children, aux⟩, hto, h⟩ := bind_ok.mp h
    injection h with h; injection h with hn hc; subst hn hc
    refine ⟨⟨hshape, by simp [PyTreeKind.builtinType], by simp, by simp, ?_, by simp⟩,
      fun cs' hcs => ?_⟩
    · intro r' aux' _ hr' haux' cs hcs
      injection hr' with hr'; injection haux' with haux'
      subst hr' haux'
      exact hx.custom' r children aux hkind hto cs (by simpa [Node.children] using hcs)
    · obtain ⟨x', hx', hsame⟩ := hx.custom r children aux hkind hto cs' hcs
      refine ⟨x', ?_, hsame⟩
      rw [makeNode, if_neg (not_not.mpr (forall₂_sameTree_length hcs))]
      exact hx'
  · rename_i r hkind
    obtain ⟨aux, haux, h⟩ := bind_ok.mp h
    obtain ⟨children, hdata, h⟩ := bind_ok.mp h
    injection h with h; injection h with hn hc; subst hn hc
    have hlen := (mapM_ok hdata).length_eq
    have hauxlen := (mapM_ok haux).length_eq
    refine ⟨⟨hshape, by simp [PyTreeKind.builtinType], by simp, by simp, by simp, ?_⟩,
      fun cs' hcs => ?_⟩
    · intro r' aux' _ hr' haux' cs hcs
      injection hr' with hr'; injection haux' with haux'; injection haux' with haux'
      subst hr' haux'
      exact hx.dataclass' r children aux hkind haux hdata cs (by
        simpa [Node.children, hlen] using hcs)
    · obtain ⟨x', hx', hsame⟩ := hx.dataclass r children aux hkind haux hdata cs' hcs
      refine ⟨x', ?_, hsame⟩
      have hcs' := hcs.length_eq
      rw [makeNode, if_neg (by simp [hcs', hlen])]
      simp only [Option.getD_some, py.iter_tuple]
      rw [if_neg (by omega)]
      exact hx'
  · rename_i c hkind
    injection h with h; injection h with hn hc; subst hn hc
    obtain ⟨cls, xs, rfl, hnone⟩ := kindOfObject_namedTuple hkind
    refine ⟨⟨hshape, by simp [PyTreeKind.builtinType], by simp, fun _ =>
      ⟨cls, rfl, hnone, fun ys hys => hx.namedTuple cls xs ys rfl (by
        simpa [Node.children, PyObj.tupleItems] using hys)⟩, by simp, by simp⟩, fun cs' hcs => ?_⟩
    refine ⟨.namedTuple cls cs', ?_, .namedTuple cls hcs⟩
    rw [makeNode, if_neg (not_not.mpr (forall₂_sameTree_length hcs))]
    exact hx.namedTuple cls xs cs' rfl hcs.length_eq
  · injection h with h; injection h with hn hc; subst hn hc
    exact absurd rfl hk

/-- A node without its counts, field by field. -/
theorem Node.plain_eq {n : Node α} {k : PyTreeKind} {a : ℤ} {d : Option (PyObj α)}
    {ks : List (PyObj α)} {c : Option (Registration α)} (hk : n.kind = k) (ha : n.arity = a)
    (hd : n.nodeData = d) (hs : n.sortedDictKeys = ks) (hc : n.custom = c) :
    n.plain = { kind := k, arity := a, nodeData := d, sortedDictKeys := ks, custom := c } := by
  subst hk ha hd hs hc
  rfl

/-- The same for a node without data, keys and registration. -/
theorem NodeShape.plain_eq {n : Node α} (hn : NodeShape reg n) {k : PyTreeKind} {a : ℤ}
    (hk : n.kind = k) (ha : n.arity = a) (h₁ : k ≠ .dict) (h₂ : k ≠ .namedTuple)
    (h₃ : k ≠ .custom) (h₄ : k ≠ .dataclass) : n.plain = { kind := k, arity := a } := by
  subst hk
  exact Node.plain_eq rfl ha (hn.noData h₂ h₃ h₄) (hn.keys h₁) (hn.noCustom h₃ h₄)

/-- `expand` leaves the counts at zero. -/
theorem expand_plain {x : PyObj α} {n : Node α} {cs : List (PyObj α)}
    (h : expand py reg x = .ok (n, cs)) : n.plain = n := by
  unfold expand at h
  split at h
  · injection h with h; injection h with hn _; rw [← hn]; rfl
  · injection h with h; injection h with hn _; rw [← hn]; rfl
  · injection h with h; injection h with hn _; rw [← hn]; rfl
  · obtain ⟨_, _, h⟩ := bind_ok.mp h
    injection h with h; injection h with hn _; rw [← hn]; rfl
  · obtain ⟨_, _, h⟩ := bind_ok.mp h
    injection h with h; injection h with hn _; rw [← hn]; rfl
  · obtain ⟨_, _, h⟩ := bind_ok.mp h
    obtain ⟨_, _, h⟩ := bind_ok.mp h
    injection h with h; injection h with hn _; rw [← hn]; rfl
  · injection h with h; injection h with hn _; rw [← hn]; rfl
  · injection h with h; injection h with hn _; rw [← hn]; rfl

/--
**Putting an object together.** A fitting node makes an object of any children, as
many as it has, and that object comes apart into the node and these children.
-/
theorem makeNode_expand {n : Node α} (hn : NodeFits py reg n) (hk : n.kind ≠ .leaf)
    {cs : List (PyObj α)} (hcs : cs.length = n.children) :
    ∃ x, makeNode py n cs = .ok x ∧ expand py reg x = .ok (n.plain, cs) := by
  have harity : (cs.length : ℤ) = n.arity := by
    rw [hcs, Node.children, Int.toNat_of_nonneg hn.arity]
  unfold makeNode
  rw [if_neg (not_not.mpr harity)]
  cases hkind : n.kind with
  | leaf => exact absurd hkind hk
  | none =>
      obtain ⟨r, hr, hrk⟩ := hn.builtin .noneType (by rw [hkind]; rfl)
      have hobj := kindOfObject_of_lookup (x := PyObj.none) hr
      have h0 := hn.empty (.inr hkind)
      obtain rfl : cs = [] := List.eq_nil_of_length_eq_zero (by omega)
      refine ⟨.none, rfl, ?_⟩
      rw [expand, hobj, hrk, hkind, hn.plain_eq hkind h0 (by simp) (by simp) (by simp) (by simp)]
  | tuple =>
      obtain ⟨r, hr, hrk⟩ := hn.builtin .tuple (by rw [hkind]; rfl)
      have hobj := kindOfObject_of_lookup (x := PyObj.tuple cs) hr
      refine ⟨.tuple cs, rfl, ?_⟩
      rw [expand, hobj, hrk, hkind,
        hn.plain_eq hkind harity.symm (by simp) (by simp) (by simp) (by simp)]
      rfl
  | list =>
      obtain ⟨r, hr, hrk⟩ := hn.builtin .list (by rw [hkind]; rfl)
      have hobj := kindOfObject_of_lookup (x := PyObj.list cs) hr
      refine ⟨.list cs, rfl, ?_⟩
      rw [expand, hobj, hrk, hkind,
        hn.plain_eq hkind harity.symm (by simp) (by simp) (by simp) (by simp)]
      rfl
  | dict =>
      obtain ⟨r, hr, hrk⟩ := hn.builtin .dict (by rw [hkind]; rfl)
      have hlen : n.sortedDictKeys.length = cs.length := by rw [hn.dict hkind, hcs]
      have hfst : (n.sortedDictKeys.zip cs).map Prod.fst = n.sortedDictKeys :=
        List.map_fst_zip (by omega)
      have hsnd : (n.sortedDictKeys.zip cs).map Prod.snd = cs := List.map_snd_zip (by omega)
      have hsorted : SortedKeys py ((n.sortedDictKeys.zip cs).map Prod.fst) := by
        rw [hfst]; exact hn.sorted hkind
      have hobj := kindOfObject_of_lookup (x := PyObj.dict (n.sortedDictKeys.zip cs)) hr
      have harity' : n.arity = (n.sortedDictKeys.zip cs).length := by
        rw [List.length_zip, hlen, Nat.min_self, harity]
      refine ⟨.dict (n.sortedDictKeys.zip cs), ?_, ?_⟩
      · dsimp only
        rw [if_neg (by omega), mkDict_sorted hsorted]
      · rw [expand, hobj, hrk, hkind, Node.plain_eq hkind harity'
          (hn.noData (by simp [hkind]) (by simp [hkind]) (by simp [hkind])) hfst.symm
          (hn.noCustom (by simp [hkind]) (by simp [hkind]))]
        simp only [PyObj.dictItems, getSortedPyDictItems, sortItems_sorted hsorted]
        exact congrArg (fun l => Except.ok (_, l)) hsnd
  | namedTuple =>
      obtain ⟨c, hdata, hnone, hcall⟩ := hn.call hkind
      refine ⟨.namedTuple c cs, by rw [hdata]; exact hcall cs hcs, ?_⟩
      have hobj : reg.kindOfObject (.namedTuple c cs) = (.namedTuple, none) := by
        unfold PyTreeRegistry.kindOfObject
        rw [show (PyObj.namedTuple c cs).typeOf = .user c from rfl, hnone]
        rfl
      rw [expand, hobj, Node.plain_eq hkind harity.symm hdata (hn.keys (by simp [hkind]))
        (hn.noCustom (by simp [hkind]) (by simp [hkind]))]
      rfl
  | custom =>
      obtain ⟨r, aux, hr, hrm, hrk, haux⟩ := hn.custom (.inl hkind)
      obtain ⟨x, hx, ht, hto⟩ := hn.fromIterable r aux hkind hr haux cs hcs
      refine ⟨x, by rw [hr, haux]; exact hx, ?_⟩
      have hobj := kindOfObject_of_lookup (x := x) (by rw [ht]; exact reg.lookup_of_mem hrm)
      rw [expand, hobj, hrk, hkind, if_pos (.inl rfl),
        Node.plain_eq hkind harity.symm haux (hn.keys (by simp [hkind])) hr]
      dsimp only
      rw [hto]
      rfl
  | dataclass =>
      obtain ⟨r, _, hr, hrm, hrk, _⟩ := hn.custom (.inr hkind)
      obtain ⟨hdata, aux, haux, hauxlen⟩ := hn.dataclass r hkind hr
      obtain ⟨x, hx, ht, hmeta, hfields⟩ := hn.construct r aux hkind hr haux cs hcs
      refine ⟨x, ?_, ?_⟩
      · rw [hr, haux]
        simp only [Option.getD_some, py.iter_tuple]
        rw [if_neg (by omega)]
        exact hx
      · have hobj := kindOfObject_of_lookup (x := x) (by rw [ht]; exact reg.lookup_of_mem hrm)
        rw [expand, hobj, hrk, hkind, if_pos (.inr rfl),
          Node.plain_eq hkind hdata haux (hn.keys (by simp [hkind])) hr]
        dsimp only
        rw [hmeta, hfields]
        rfl

theorem NodeFits.of_plain {n m : Node α} (h : NodeFits py reg m) (he : n.plain = m.plain) :
    NodeFits py reg n := by
  rw [← n.counts_plain, he]
  exact ⟨h.toNodeShape.setCounts _ _, h.builtin, h.sorted, h.call, h.fromIterable, h.construct⟩

theorem nodeFits_leaf (k m : ℤ) :
    NodeFits py reg ({ numLeaves := k, numNodes := m } : Node α) :=
  ⟨nodeShape_leaf.setCounts k m, by simp [PyTreeKind.builtinType], by simp, by simp, by simp,
    by simp⟩

end Nodes

variable {py : Runtime α} {reg : PyTreeRegistry α} {leafPredicate : LeafPredicate α}

/-! ## From an object and back -/

/-- The pytrees: objects of finite depth whose containers can be put together again. -/
inductive IsPytree (py : Runtime α) (reg : PyTreeRegistry α) (leafPredicate : LeafPredicate α) :
    PyObj α → Prop where
  | leaf {x : PyObj α} : IsLeaf py reg leafPredicate x → IsPytree py reg leafPredicate x
  | node {x : PyObj α} {n : Node α} {cs : List (PyObj α)} :
      isKnownLeaf py leafPredicate x = .ok false → Invertible py reg x →
      expand py reg x = .ok (n, cs) → n.kind ≠ .leaf →
      (∀ c ∈ cs, IsPytree py reg leafPredicate c) → IsPytree py reg leafPredicate x

/-- The nodes of `t` take the leaves `ls` and leave the object `x`. -/
def Builds (py : Runtime α) (ns : List (Node α)) (ls xs : List (PyObj α)) : Prop :=
  ∀ agenda rest, runNodes py agenda (ls ++ rest) ns = .ok (agenda ++ xs, rest)

theorem Builds.nil : Builds py [] [] [] := fun agenda rest => by simp

theorem Builds.append {ns ms : List (Node α)} {ls ls' xs ys : List (PyObj α)}
    (h : Builds py ns ls xs) (h' : Builds py ms ls' ys) :
    Builds py (ns ++ ms) (ls ++ ls') (xs ++ ys) := fun agenda rest => by
  have e₁ := h agenda (ls' ++ rest)
  have e₂ := h' (agenda ++ xs) rest
  unfold runNodes at e₁ e₂ ⊢
  rw [List.append_assoc, run_append, e₁]
  show run _ _ _ (agenda ++ xs) (ls' ++ rest) ms = _
  rw [e₂, List.append_assoc]

/-- A leaf takes one leaf. -/
theorem Builds.leaf {n : Node α} (hk : n.kind = .leaf) (h0 : n.children = 0) (x : PyObj α) :
    Builds py [n] [x] [x] := fun agenda rest => by
  have hnil : ([] : List (PyObj α)).length = n.children := h0.symm
  rw [runNodes, run_cons, ← List.append_nil agenda, step_args hnil, List.singleton_append,
    build_leaf hk, List.append_nil]
  rfl

/-- Any other node takes the objects its children have left. -/
theorem Builds.node {n : Node α} {ns : List (Node α)} {ls cs : List (PyObj α)} {x : PyObj α}
    (h : Builds py ns ls cs) (hk : n.kind ≠ .leaf) (hlen : cs.length = n.children)
    (hx : makeNode py n cs = .ok x) : Builds py (ns ++ [n]) ls [x] := fun agenda rest => by
  have e := h agenda rest
  unfold runNodes at e ⊢
  rw [run_append, e]
  show run _ _ _ (agenda ++ cs) rest [n] = _
  rw [run_cons, step_args hlen, build_node hk, hx]
  rfl

/--
**A pytree is rebuilt from its leaves.** It flattens, its nodes fit, and they build
the same tree out of the leaves.
-/
theorem IsPytree.rebuilds {x : PyObj α} (h : IsPytree py reg leafPredicate x) :
    ∃ t ls x', Flattens py reg leafPredicate x t ls ∧ SameTree x' x ∧
      (∀ n ∈ t.postorder, NodeFits py reg n) ∧ Builds py t.postorder ls [x'] := by
  induction h with
  | @leaf x hleaf =>
      refine ⟨_, _, x, .leaf hleaf, .refl x, fun n hn => ?_, ?_⟩
      · rw [postorder_node] at hn
        rw [List.mem_singleton.mp hn]
        exact nodeFits_leaf 1 1
      · rw [postorder_node]
        exact Builds.leaf rfl rfl x
  | @node x n cs hknown hinv hexp hk _ ih =>
      -- The children, one after the other.
      have children : ∃ ts ls xs, FlattensAll py reg leafPredicate cs ts ls ∧
          List.Forall₂ SameTree xs cs ∧ (∀ n ∈ postorders ts, NodeFits py reg n) ∧
          Builds py (postorders ts) ls xs := by
        clear hexp
        induction cs with
        | nil => exact ⟨[], [], [], .nil, .nil, by simp, .nil⟩
        | cons c cs ihcs =>
            obtain ⟨t, l, c', hc, hsame, hfit, hb⟩ := ih c List.mem_cons_self
            obtain ⟨ts, ls, xs, hcs, hsames, hfits, hbs⟩ := ihcs
              (fun d hd => ‹∀ c ∈ _, IsPytree py reg leafPredicate c› d (List.mem_cons_of_mem _ hd))
              fun d hd => ih d (List.mem_cons_of_mem _ hd)
            refine ⟨t :: ts, l ++ ls, c' :: xs, .cons hc hcs, .cons hsame hsames,
              fun n hn => ?_, hb.append hbs⟩
            rcases List.mem_append.mp hn with hn | hn
            · exact hfit n hn
            · exact hfits n hn
      obtain ⟨ts, ls, xs, hcs, hsames, hfits, hbs⟩ := children
      obtain ⟨hfit, hrebuild⟩ := expand_rebuilds hinv hexp hk
      obtain ⟨x', hx', hsame⟩ := hrebuild xs hsames
      have hlen : xs.length = n.children := by
        rw [Node.children, (expand_ok hexp).2.1, hsames.length_eq]; simp
      refine ⟨_, ls, x', .node hknown hexp hk hcs, hsame, fun m hm => ?_, ?_⟩
      · rw [postorder_node] at hm
        rcases List.mem_append.mp hm with hm | hm
        · exact hfits m hm
        · rw [List.mem_singleton.mp hm]
          exact hfit.of_plain rfl
      · rw [postorder_node]
        exact hbs.node hk hlen hx'

/-! ## From a definition and back -/

/-- An object that is no container to the registry. -/
def LeafObject (reg : PyTreeRegistry α) (x : PyObj α) : Prop := reg.kindOfObject x = (.leaf, none)

theorem LeafObject.isLeaf {x : PyObj α} (h : LeafObject reg x) : IsLeaf py reg none x := by
  refine .inr ⟨rfl, ?_⟩
  unfold expand
  rw [h]

/-- A definition whose node list is one tree, with the right counts and fitting nodes. -/
structure TreeFits (py : Runtime α) (reg : PyTreeRegistry α) (t : LabelTree (Node α)) : Prop where
  ranked : Ranked Node.children t
  counted : Counted t
  fits : ∀ n ∈ t.postorder, NodeFits py reg n

theorem TreeFits.child {n : Node α} {ts : List (LabelTree (Node α))}
    (h : TreeFits py reg (.node n ts)) {t : LabelTree (Node α)} (ht : t ∈ ts) : TreeFits py reg t where
  ranked := h.ranked.child ht
  counted := by
    have key := h.counted
    cases key with
    | node _ _ hc => exact hc t ht
  fits m hm := h.fits m (by
    rw [postorder_node]
    exact List.mem_append_left _ (List.mem_flatMap.mpr ⟨t, ht, hm⟩))

/--
**A definition is found again.** Out of any leaves, as many as it has, its nodes
build an object that flattens to them and to these leaves.
-/
theorem TreeFits.builds {t : LabelTree (Node α)} : TreeFits py reg t → ∀ ls : List (PyObj α),
    (∀ x ∈ ls, LeafObject reg x) → ls.length = leafCount t.postorder →
    ∃ x, Flattens py reg none x t ls ∧ Builds py t.postorder ls [x] := by
  induction t with
  | node n ts ih =>
      intro ht ls hls hlen
      have hn : NodeFits py reg n := ht.fits n (by rw [postorder_node]; simp)
      obtain ⟨hnl, hnn⟩ : n.numLeaves = leafCount (LabelTree.node n ts).postorder ∧
          n.numNodes = (LabelTree.node n ts).postorder.length := by
        have key := ht.counted
        cases key with
        | node h₁ h₂ _ => exact ⟨h₁, h₂⟩
      by_cases hk : n.kind = .leaf
      · -- A leaf of the definition is a leaf of the object.
        have h0 : n.children = 0 := by rw [Node.children, hn.empty (.inl hk)]; rfl
        obtain rfl : ts = [] := List.eq_nil_of_length_eq_zero (by rw [ht.ranked.length, h0])
        rw [postorder_node] at hnl hnn hlen ⊢
        have hone : leafCount (postorders [] ++ [n]) = 1 := by simp [leafCount, hk]
        obtain ⟨x, rfl⟩ := List.length_eq_one_iff.mp (hlen.trans hone)
        have heq : n = { numLeaves := 1, numNodes := 1 } := by
          have hplain := hn.plain_eq hk (hn.empty (.inl hk)) (by simp) (by simp) (by simp) (by simp)
          rw [← n.counts_plain, hplain, hnl, hnn, hone]
          rfl
        refine ⟨x, ?_, Builds.leaf hk h0 x⟩
        rw [heq]
        exact .leaf (hls x (by simp)).isLeaf
      · -- The leaves of the children, in order.
        have children : ∀ us : List (LabelTree (Node α)), (∀ u ∈ us, u ∈ ts) → ∀ ls : List (PyObj α),
            (∀ x ∈ ls, LeafObject reg x) → ls.length = leafCount (postorders us) →
            ∃ xs, FlattensAll py reg none xs us ls ∧ Builds py (postorders us) ls xs := by
          intro us
          induction us with
          | nil =>
              intro _ ls _ hlen
              obtain rfl : ls = [] := List.eq_nil_of_length_eq_zero hlen
              exact ⟨[], .nil, .nil⟩
          | cons u us ihu =>
              intro hus ls hls hlen
              rw [postorders_cons, leafCount_append] at hlen
              obtain ⟨x, hx, hbx⟩ := ih u (hus u List.mem_cons_self)
                (ht.child (hus u List.mem_cons_self)) (ls.take (leafCount u.postorder))
                (fun y hy => hls y (List.mem_of_mem_take hy)) (by rw [List.length_take]; omega)
              obtain ⟨xs, hxs, hbxs⟩ := ihu (fun w hw => hus w (List.mem_cons_of_mem _ hw))
                (ls.drop (leafCount u.postorder)) (fun y hy => hls y (List.mem_of_mem_drop hy))
                (by rw [List.length_drop]; omega)
              have hall := FlattensAll.cons hx hxs
              have hb := hbx.append hbxs
              rw [List.take_append_drop] at hall hb
              exact ⟨x :: xs, hall, hb⟩
        have hlen' : ls.length = leafCount (postorders ts) := by
          rw [hlen, postorder_node, leafCount_append]
          simp [leafCount, hk]
        obtain ⟨xs, hxs, hbxs⟩ := children ts (fun _ h => h) ls hls hlen'
        have hxlen : xs.length = n.children := by rw [← hxs.length, ht.ranked.length]
        obtain ⟨x, hx, hexp⟩ := makeNode_expand hn hk hxlen
        refine ⟨x, ?_, by rw [postorder_node]; exact hbxs.node hk hxlen hx⟩
        have key := Flattens.node (isKnownLeaf_none py x) hexp hk hxs
        have heq : { n.plain with numLeaves := (ls.length : ℤ)
                                  numNodes := (postorders ts).length + 1 } = n := by
          have h₁ : (ls.length : ℤ) = n.numLeaves := by rw [hnl, hlen]
          have h₂ : ((postorders ts).length : ℤ) + 1 = n.numNodes := by
            rw [hnn, postorder_node, List.length_append]; simp
          rw [h₁, h₂, n.counts_plain]
        rwa [heq] at key

end JaxDas.Pytree
