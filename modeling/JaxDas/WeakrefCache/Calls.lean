import Mathlib.Data.List.Sort
import JaxDas.Pytree.Equality
import JaxDas.Pytree.Produced
import JaxDas.WeakrefCache.Agreement
import JaxDas.WeakrefCache.Served

/-!
# The calls behind a key

`WeakrefLRUCache` holds its first arguments weakly, whatever they are.
`MultiWeakrefLRUCache` flattens all of its arguments, and sorts the leaves into weak
and strong ones by what they are. Its key has the weak leaves, the strong leaves and
the combined tree definition, but nothing that says which leaf went where; so calls
can have equal keys whose leaves follow different patterns.

Everything else about a call can be read off its key: the combined definition is a
forest with one tree for each argument (`forall₂_of_postorders`).
-/

namespace JaxDas.WeakrefCache

open Pytree PostOrder Related

/-- A call, and the context it is made in. Python lets no keyword occur twice. -/
structure PyCall (Obj : Type) where
  context : Obj
  args : List Obj
  kwargs : List (String × Obj)
  nodup : (kwargs.map Prod.fst).Nodup

/-- What the program's objects can be used for. -/
structure Usable (Obj : Type) where
  weakrefable : Obj → Bool
  hashable : Obj → Bool

/-- The keyword arguments in the order of their interned names. -/
def sortedKwargs {Obj : Type} (nameLe : String → String → Bool) (c : PyCall Obj) :
    List (String × Obj) :=
  c.kwargs.insertionSort fun a b => nameLe a.1 b.1 = true

/-- Making a key takes a weakref to every weak object, and hashes everything. -/
def makeKey {Obj Def : Type} (usable : Usable Obj) (weak : List Obj) (key : StrongKey Obj Def) :
    Option (List Obj × StrongKey Obj Def) :=
  if weak.all (fun o => usable.weakrefable o && usable.hashable o) && usable.hashable key.context &&
      key.args.all usable.hashable then some (weak, key)
  else none

/-! ## `WeakrefLRUCache` -/

section Weakref

variable {Obj Def : Type} (usable : Usable Obj) (nameLe : String → String → Bool)

/-- The keys that `WeakrefLRUCache::VectorCall` makes. -/
def weakrefKey (numWeakKeys : ℕ) (c : PyCall Obj) : Option (List Obj × StrongKey Obj Def) :=
  if c.args.length < numWeakKeys then none
  else
    let sorted := sortedKwargs nameLe c
    makeKey usable (c.args.take numWeakKeys)
      { context := c.context
        kwnames := sorted.map Prod.fst
        args := c.args.drop numWeakKeys ++ sorted.map Prod.snd
        treedef := none }

/-- A `WeakrefLRUCache`. -/
def weakrefCache (maxsize : ℤ) (numWeakKeys : ℕ) : Config Obj Def (PyCall Obj) where
  maxsize := maxsize
  makeKey := weakrefKey usable nameLe numWeakKeys

end Weakref

/-! ## `MultiWeakrefLRUCache` -/

section Multi

variable {α : Type} (py : Runtime α) (reg : PyTreeRegistry α) (weakTypes : List TypeId)
  (callable : PyObj α → Bool)

/-- Is the leaf held weakly? -/
def isWeakLeaf (x : PyObj α) : Bool := weakTypes.contains x.typeOf || callable x

/-- What `MultiWeakrefLRUCache::VectorCall` has put together so far. -/
structure Combined (α : Type) where
  traversal : List (Node α) := []
  weakLeaves : List (PyObj α) := []
  strongArgs : List (PyObj α) := []

/-- `process_leaf`. -/
def processLeaf (s : Combined α) (leaf : PyObj α) : Combined α :=
  if isWeakLeaf weakTypes callable leaf then { s with weakLeaves := s.weakLeaves ++ [leaf] }
  else { s with strongArgs := s.strongArgs ++ [leaf] }

/-- One argument: `combined_def.Flatten` appends its nodes, then its leaves are processed. -/
def flattenArg (fuel : ℕ) (s : Combined α) (x : PyObj α) : Except PyErr (Combined α) := do
  let flat ← flattenImpl py reg none fuel x { traversal := s.traversal }
  .ok (flat.leaves.foldl (processLeaf weakTypes callable) { s with traversal := flat.traversal })

variable (usable : Usable (PyObj α)) (nameLe : String → String → Bool)

/-- The keys that `MultiWeakrefLRUCache::VectorCall` makes. -/
def multiKey (fuel : ℕ) (c : PyCall (PyObj α)) :
    Option (List (PyObj α) × StrongKey (PyObj α) (PyTreeDef α)) :=
  let sorted := sortedKwargs nameLe c
  match (c.args ++ sorted.map Prod.snd).foldlM (flattenArg py reg weakTypes callable fuel) {} with
  | .error _ => none
  | .ok s =>
      makeKey usable s.weakLeaves
        { context := c.context
          kwnames := sorted.map Prod.fst
          args := s.strongArgs
          treedef := some { registry := reg, traversal := s.traversal } }

/-- A `MultiWeakrefLRUCache`. -/
def multiWeakrefCache (maxsize : ℤ) (fuel : ℕ) :
    Config (PyObj α) (PyTreeDef α) (PyCall (PyObj α)) where
  maxsize := maxsize
  makeKey := multiKey py reg weakTypes callable usable nameLe fuel

end Multi

/-! ## Equal calls -/

/-- Equal contexts, equally many positional arguments, the same names, and related arguments. -/
structure SameCall {Obj : Type} (eq : Obj → Obj → Bool) (same : Obj → Obj → Prop)
    (c c' : PyCall Obj) : Prop where
  context : eq c.context c'.context = true
  args : List.Forall₂ same c.args c'.args
  kwnames : ∀ n, n ∈ c.kwargs.map Prod.fst ↔ n ∈ c'.kwargs.map Prod.fst
  kwargs : ∀ n x y, (n, x) ∈ c.kwargs → (n, y) ∈ c'.kwargs → same x y

/-- Equal pytrees: the same containers around equal leaves. -/
def SameTree {α : Type} (eq : PyObj α → PyObj α → Bool) (py : Runtime α) (reg : PyTreeRegistry α)
    (x y : PyObj α) : Prop :=
  ∃ t u ls ls', Flattens py reg none x t ls ∧ Flattens py reg none y u ls' ∧
    List.Forall₂ (SameNode py) t.postorder u.postorder ∧
    List.Forall₂ (fun a b => eq a b = true) ls ls'

section SameCall

variable {Obj : Type} {eq : Obj → Obj → Bool} {same : Obj → Obj → Prop} {c c' : PyCall Obj}
  {nameLe : String → String → Bool}

theorem sortedKwargs_perm (nameLe : String → String → Bool) (c : PyCall Obj) : (sortedKwargs nameLe c).Perm c.kwargs :=
  List.perm_insertionSort _ _

/-- Arguments in the order of the key, read back by position and by name. -/
theorem SameCall.of_sorted (hcontext : eq c.context c'.context = true)
    (hargs : List.Forall₂ same c.args c'.args)
    (hnames : (sortedKwargs nameLe c).map Prod.fst = (sortedKwargs nameLe c').map Prod.fst)
    (hvalues : List.Forall₂ same ((sortedKwargs nameLe c).map Prod.snd)
      ((sortedKwargs nameLe c').map Prod.snd)) : SameCall eq same c c' where
  context := hcontext
  args := hargs
  kwnames n := by
    rw [← ((sortedKwargs_perm nameLe c).map Prod.fst).mem_iff,
      ← ((sortedKwargs_perm nameLe c').map Prod.fst).mem_iff, hnames]
  kwargs n x y hx hy := by
    have hnd : ((sortedKwargs nameLe c').map Prod.fst).Nodup :=
      ((sortedKwargs_perm nameLe c').map Prod.fst).nodup_iff.mpr c'.nodup
    have hx := (sortedKwargs_perm nameLe c).mem_iff.mpr hx
    have hy := (sortedKwargs_perm nameLe c').mem_iff.mpr hy
    revert hnames hvalues hnd hx hy
    -- Equal names are at equal positions.
    generalize sortedKwargs nameLe c = ps
    generalize sortedKwargs nameLe c' = qs
    induction ps generalizing qs with
    | nil => intro _ _ _ hx; exact absurd hx (by simp)
    | cons p ps ih =>
        intro hnames hvalues hnd hx hy
        cases qs with
        | nil => exact absurd hnames (by simp)
        | cons q qs =>
            rw [List.map_cons, List.map_cons] at hnames hvalues
            rw [List.map_cons, List.nodup_cons] at hnd
            injection hnames with hn hnames
            cases hvalues with
            | cons hv hvalues =>
                rcases List.mem_cons.mp hx with rfl | hx <;> rcases List.mem_cons.mp hy with rfl | hy
                · exact hv
                · exact absurd (List.mem_map_of_mem hy) (by rw [← hn] at hnd; exact hnd.1)
                · refine absurd ?_ hnd.1
                  rw [← hnames]
                  exact List.mem_map.mpr ⟨_, hx, rfl⟩
                · exact ih qs hnames hvalues hnd.2 hx hy

end SameCall

theorem makeKey_ok {Obj Def : Type} {usable : Usable Obj} {weak os : List Obj}
    {key k : StrongKey Obj Def} (h : makeKey usable weak key = some (os, k)) : os = weak ∧ k = key := by
  unfold makeKey at h
  split at h
  · injection h with h; injection h with h₁ h₂
    exact ⟨h₁.symm, h₂.symm⟩
  · exact absurd h (by simp)

/-! ## What a key of a `WeakrefLRUCache` says -/

section Weakref

variable {Obj Def : Type} {I : Interp Obj Def} {usable : Usable Obj}
  {nameLe : String → String → Bool} {numWeakKeys : ℕ} {c c' : PyCall Obj}

/-- Calls with equal keys are equal. -/
theorem sameCall_of_weakrefKeys {os os' : List Obj} {k k' : StrongKey Obj Def}
    (hc : weakrefKey usable nameLe numWeakKeys c = some (os, k))
    (hc' : weakrefKey usable nameLe numWeakKeys c' = some (os', k'))
    (hweak : List.Forall₂ (fun a b => I.eq a b = true) os os')
    (hkey : StrongKey.equal I k k' = true) :
    SameCall I.eq (fun a b => I.eq a b = true) c c' := by
  unfold weakrefKey at hc hc'
  split at hc
  · exact absurd hc (by simp)
  split at hc'
  · exact absurd hc' (by simp)
  obtain ⟨rfl, rfl⟩ := makeKey_ok hc
  obtain ⟨rfl, rfl⟩ := makeKey_ok hc'
  obtain ⟨_, hcontext, hnames, hargs⟩ := StrongKey.equal_iff.mp hkey
  dsimp only at hcontext hnames hargs
  have hlen : ((sortedKwargs nameLe c).map Prod.snd).length =
      ((sortedKwargs nameLe c').map Prod.snd).length := by
    have h := congrArg List.length hnames
    simpa using h
  have htotal := hargs.length_eq
  rw [List.length_append, List.length_append, hlen] at htotal
  obtain ⟨hpos, hvalues⟩ := forall₂_append_inj hargs (Nat.add_right_cancel htotal)
  refine .of_sorted hcontext ?_ hnames hvalues
  rw [← List.take_append_drop numWeakKeys c.args, ← List.take_append_drop numWeakKeys c'.args]
  exact List.rel_append hweak hpos

end Weakref

/-! ## What a key of a `MultiWeakrefLRUCache` says -/

section Multi

variable {α : Type} {py : Runtime α} {reg : PyTreeRegistry α} {weakTypes : List TypeId}
  {callable : PyObj α → Bool}

theorem processLeaves : ∀ (ls : List (PyObj α)) (s : Combined α),
    ls.foldl (processLeaf weakTypes callable) s =
      { s with
          weakLeaves := s.weakLeaves ++ ls.filter (isWeakLeaf weakTypes callable)
          strongArgs := s.strongArgs ++ ls.filter fun x => !isWeakLeaf weakTypes callable x }
  | [], s => by simp
  | l :: ls, s => by
      rw [List.foldl_cons, processLeaves ls]
      unfold processLeaf
      cases h : isWeakLeaf weakTypes callable l <;> simp [h]

/-- The nodes of the arguments are listed one tree after the other, and their leaves cut in two. -/
theorem flattenArgs_ok {fuel : ℕ} : ∀ {xs : List (PyObj α)} {s s' : Combined α},
    xs.foldlM (flattenArg py reg weakTypes callable fuel) s = .ok s' →
    ∃ ts ls, FlattensAll py reg none xs ts ls ∧
      s' = { traversal := s.traversal ++ postorders ts
             weakLeaves := s.weakLeaves ++ ls.filter (isWeakLeaf weakTypes callable)
             strongArgs := s.strongArgs ++ ls.filter fun x => !isWeakLeaf weakTypes callable x }
  | [], s, s', h => by
      rw [List.foldlM_nil] at h
      injection h with h
      exact ⟨[], [], .nil, by simp [← h]⟩
  | x :: xs, s, s', h => by
      rw [List.foldlM_cons] at h
      obtain ⟨s₁, h₁, h⟩ := bind_ok.mp h
      unfold flattenArg at h₁
      obtain ⟨flat, hflat, h₁⟩ := bind_ok.mp h₁
      obtain ⟨t, l, ht, rfl⟩ := flattenImpl_ok fuel hflat
      injection h₁ with h₁
      rw [processLeaves] at h₁
      subst h₁
      obtain ⟨ts, ls, hts, rfl⟩ := flattenArgs_ok h
      exact ⟨t :: ts, l ++ ls, .cons ht hts, by simp [Flat.append, postorders_cons]⟩

/-- Every tree of several objects is well-formed. -/
theorem flattensAll_treeOk {xs : List (PyObj α)} {ts : List (LabelTree (Node α))}
    {ls : List (PyObj α)} (h : FlattensAll py reg none xs ts ls) : ∀ t ∈ ts, TreeOk reg t := by
  intro t ht
  obtain ⟨_, _, _, hf⟩ := h.mem ht
  exact hf.treeOk

theorem leafCount_of_forall₂ {ns ms : List (Node α)}
    (h : List.Forall₂ (fun a b : Node α => a.kind = b.kind) ns ms) : leafCount ns = leafCount ms := by
  induction h with
  | nil => rfl
  | cons hk _ ih => rw [leafCount_cons, leafCount_cons, hk, ih]

/-- Trees that are the same node by node, with equal leaves, are equal one by one. -/
theorem sameTrees {eq : PyObj α → PyObj α → Bool} {ts us : List (LabelTree (Node α))}
    (h : List.Forall₂ (fun t u => List.Forall₂ (SameNode py) t.postorder u.postorder) ts us) :
    ∀ {xs ys ls ls' : List (PyObj α)}, FlattensAll py reg none xs ts ls →
      FlattensAll py reg none ys us ls' → List.Forall₂ (fun a b => eq a b = true) ls ls' →
      List.Forall₂ (SameTree eq py reg) xs ys := by
  induction h with
  | nil =>
      intro xs ys ls ls' hx hy _
      cases hx
      cases hy
      exact .nil
  | @cons t u ts us htu _ ih =>
      intro xs ys ls ls' hx hy hl
      cases hx with
      | @cons x xs _ _ l ls hx hxs =>
          cases hy with
          | @cons y ys _ _ l' ls' hy hys =>
              have hlen : l.length = l'.length := by
                rw [← hx.leafCount, ← hy.leafCount]
                exact leafCount_of_forall₂ (htu.imp fun _ _ hab => hab.kind)
              obtain ⟨hll, hls⟩ := forall₂_append_inj hl hlen
              exact .cons ⟨t, u, l, l', hx, hy, htu, hll⟩ (ih hxs hys hls)

variable {I : Interp (PyObj α) (PyTreeDef α)} {usable : Usable (PyObj α)}
  {nameLe : String → String → Bool} {fuel : ℕ} {c c' : PyCall (PyObj α)}

/-- The arguments in the order in which they are flattened. -/
def PyCall.inOrder (nameLe : String → String → Bool) (c : PyCall (PyObj α)) : List (PyObj α) :=
  c.args ++ (sortedKwargs nameLe c).map Prod.snd

/--
Two calls with equal keys, whose leaves are held weakly in different places or which have
dataclasses of different types in the same place.
-/
structure Confused (py : Runtime α) (reg : PyTreeRegistry α) (weakTypes : List TypeId)
    (callable : PyObj α → Bool) (usable : Usable (PyObj α)) (nameLe : String → String → Bool)
    (fuel : ℕ) (I : Interp (PyObj α) (PyTreeDef α)) (c c' : PyCall (PyObj α)) : Prop where
  keys : ∃ os k os' k', multiKey py reg weakTypes callable usable nameLe fuel c = some (os, k) ∧
    multiKey py reg weakTypes callable usable nameLe fuel c' = some (os', k') ∧
    List.Forall₂ (fun a b => I.eq a b = true) os os' ∧ StrongKey.equal I k k' = true
  differ : ∃ ts us ls ls', FlattensAll py reg none (c.inOrder nameLe) ts ls ∧
    FlattensAll py reg none (c'.inOrder nameLe) us ls' ∧
    (ls.map (isWeakLeaf weakTypes callable) ≠ ls'.map (isWeakLeaf weakTypes callable) ∨
      ¬ List.Forall₂ (fun a b => a.kind = .dataclass → a.containerType = b.containerType)
        (postorders ts) (postorders us))

/-- What the key of a call is made of. -/
theorem multiKey_ok {os : List (PyObj α)} {k : StrongKey (PyObj α) (PyTreeDef α)}
    (h : multiKey py reg weakTypes callable usable nameLe fuel c = some (os, k)) :
    ∃ ts ls, FlattensAll py reg none (c.inOrder nameLe) ts ls ∧
      os = ls.filter (isWeakLeaf weakTypes callable) ∧
      k = { context := c.context
            kwnames := (sortedKwargs nameLe c).map Prod.fst
            args := ls.filter fun x => !isWeakLeaf weakTypes callable x
            treedef := some { registry := reg, traversal := postorders ts } } := by
  unfold multiKey at h
  dsimp only at h
  split at h
  · exact absurd h (by simp)
  · rename_i s hs
    obtain ⟨ts, ls, hts, rfl⟩ := flattenArgs_ok hs
    obtain ⟨rfl, rfl⟩ := makeKey_ok h
    exact ⟨ts, ls, hts, rfl, rfl⟩

theorem forest_shape {xs : List (PyObj α)} {ts : List (LabelTree (Node α))} {ls : List (PyObj α)}
    (h : FlattensAll py reg none xs ts ls) : ∀ n ∈ postorders ts, NodeShape reg n := by
  intro n hn
  obtain ⟨t, ht, hn⟩ := List.mem_flatMap.mp hn
  exact (flattensAll_treeOk h t ht).shape n hn

/-- Calls with equal keys are equal, unless they are confused. -/
theorem sameCall_of_multiKeys (hdef : ∀ d e, I.defEq d e = true ↔ d.eq py e = .ok true)
    {os os' : List (PyObj α)} {k k' : StrongKey (PyObj α) (PyTreeDef α)}
    (hc : multiKey py reg weakTypes callable usable nameLe fuel c = some (os, k))
    (hc' : multiKey py reg weakTypes callable usable nameLe fuel c' = some (os', k'))
    (hweak : List.Forall₂ (fun a b => I.eq a b = true) os os')
    (hkey : StrongKey.equal I k k' = true)
    (hconf : ¬ Confused py reg weakTypes callable usable nameLe fuel I c c') :
    SameCall I.eq (SameTree I.eq py reg) c c' := by
  have hkeys := And.intro hc (And.intro hc' (And.intro hweak hkey))
  obtain ⟨ts, ls, hts, rfl, rfl⟩ := multiKey_ok hc
  obtain ⟨us, ls', hus, rfl, rfl⟩ := multiKey_ok hc'
  obtain ⟨htreedef, hcontext, hnames, hargs⟩ := StrongKey.equal_iff.mp hkey
  have hsame : ls.map (isWeakLeaf weakTypes callable) = ls'.map (isWeakLeaf weakTypes callable) ∧
      List.Forall₂ (fun a b : Node α => a.kind = .dataclass → a.containerType = b.containerType)
        (postorders ts) (postorders us) := by
    by_contra hne
    rw [not_and_or] at hne
    exact hconf ⟨⟨_, _, _, _, hkeys⟩, ts, us, ls, ls', hts, hus, hne⟩
  have halike := (eq_iff (forest_shape hts) (forest_shape hus)).mp ((hdef _ _).mp htreedef)
  -- Tree by tree: as many arguments, each with the same nodes.
  have htrees := forall₂_of_postorders
    (fun a b hab => by rw [Node.children, Node.children, hab.arity])
    (fun t ht => (flattensAll_treeOk hts t ht).ranked)
    (fun u hu => (flattensAll_treeOk hus u hu).ranked) (forall₂_sameNode halike hsame.2)
  have hall := sameTrees htrees hts hus (forall₂_of_filter hsame.1 hweak hargs)
  have hlen : ((sortedKwargs nameLe c).map Prod.snd).length =
      ((sortedKwargs nameLe c').map Prod.snd).length := by
    have h := congrArg List.length hnames
    simpa using h
  have htotal := hall.length_eq
  unfold PyCall.inOrder at htotal hall
  rw [List.length_append, List.length_append, hlen] at htotal
  obtain ⟨hpos, hvalues⟩ := forall₂_append_inj hall (Nat.add_right_cancel htotal)
  exact .of_sorted hcontext hpos hnames hvalues

end Multi

/-! ## Calls that one entry serves -/

section Common

variable {Obj Def : Type} {I : Interp Obj Def} {key k k' : StrongKey Obj Def}

/-- What identity or equality with a key comes to, apart from tree definitions. -/
theorem StrongKey.parts (hI : I.PyLaws) (h : key = k ∨ StrongKey.equal I key k = true) :
    I.eq key.context k.context = true ∧ key.kwnames = k.kwnames ∧
      List.Forall₂ (fun a b => I.eq a b = true) key.args k.args := by
  rcases h with rfl | h
  · exact ⟨hI.eq_of_is (hI.is_refl _), rfl, List.forall₂_same.mpr fun a _ => hI.eq_of_is (hI.is_refl a)⟩
  · obtain ⟨_, hc, hn, ha⟩ := StrongKey.equal_iff.mp h
    exact ⟨hc, hn, ha⟩

theorem eq_of_common (hI : I.PyLaws) {o a b : Obj} (ha : I.eq o a = true) (hb : I.eq o b = true) :
    I.eq a b = true :=
  hI.eq_trans (hI.eq_symm ha) hb

/-- Keys that one key equals are equal. -/
theorem StrongKey.equal_of_common (hI : I.PyLaws) (h : key = k ∨ StrongKey.equal I key k = true)
    (h' : key = k' ∨ StrongKey.equal I key k' = true)
    (htreedef : treedefsEqual I k.treedef k'.treedef = true) : StrongKey.equal I k k' = true := by
  obtain ⟨hc, hn, ha⟩ := StrongKey.parts hI h
  obtain ⟨hc', hn', ha'⟩ := StrongKey.parts hI h'
  exact StrongKey.equal_iff.mpr ⟨htreedef, eq_of_common hI hc hc', hn.symm.trans hn',
    forall₂_of_common ha ha' fun _ _ _ _ _ _ => eq_of_common hI⟩

/-- Weak keys that one weak key equals are equal. -/
theorem weak_of_common (hI : I.PyLaws) {wrKey : WeakKey Obj} {os os' : List Obj}
    (h : List.Forall₂ (fun r o => I.eq (WeakRef.referent r) o = true) wrKey os)
    (h' : List.Forall₂ (fun r o => I.eq (WeakRef.referent r) o = true) wrKey os') :
    List.Forall₂ (fun a b => I.eq a b = true) os os' :=
  forall₂_of_common h h' fun _ _ _ _ _ _ => eq_of_common hI

end Common

/-- `!=` is the negation of an equivalence, where it answers. -/
structure NeLaws {α : Type} (py : Runtime α) : Prop where
  refl : ∀ x, py.ne x x = .ok false
  symm : ∀ {x y}, py.ne x y = .ok false → py.ne y x = .ok false
  trans : ∀ {x y z}, py.ne x y = .ok false → py.ne y z = .ok false → py.ne x z = .ok false

section Alike

variable {α : Type} {py : Runtime α} {reg : PyTreeRegistry α} {n a b : Node α}

theorem alike_refl (hne : NeLaws py) (n : Node α) : Alike py n n where
  kind := rfl
  arity := rfl
  keys := List.forall₂_same.mpr fun x _ => hne.refl x
  data x y hx hy := by rw [Option.some.inj (hx.symm.trans hy)]; exact hne.refl y
  type _ := rfl

/-- Nodes that are alike one node are alike. -/
theorem alike_of_common (hne : NeLaws py) (hn : NodeShape reg n) (ha : NodeShape reg a)
    (h : Alike py n a) (h' : Alike py n b) : Alike py a b where
  kind := h.kind.symm.trans h'.kind
  arity := h.arity.symm.trans h'.arity
  keys := forall₂_of_common h.keys h'.keys fun _ _ _ _ _ _ hx hy => hne.trans (hne.symm hx) hy
  data x y hx hy := by
    have hsome := hn.isSome_nodeData ha h.kind
    rw [hx] at hsome
    obtain ⟨z, hz⟩ := Option.isSome_iff_exists.mp hsome
    exact hne.trans (hne.symm (h.data z x hz hx)) (h'.data z y hz hy)
  type hk := (h.type fun hn => hk (h.kind ▸ hn)).symm.trans (h'.type fun hn => hk (h.kind ▸ hn))

end Alike

section Runs

variable {α : Type} {py : Runtime α} {reg : PyTreeRegistry α} {weakTypes : List TypeId}
  {callable : PyObj α → Bool} {usable : Usable (PyObj α)} {nameLe : String → String → Bool}
  {fuel : ℕ} {I : Interp (PyObj α) (PyTreeDef α)}

/-- Keys made for calls of a `MultiWeakrefLRUCache` that one such key equals are equal. -/
theorem multiKeys_equal (hI : I.PyLaws) (hne : NeLaws py)
    (hdef : ∀ d e, I.defEq d e = true ↔ d.eq py e = .ok true)
    {c₀ c c' : PyCall (PyObj α)} {os₀ os os' : List (PyObj α)}
    {key k k' : StrongKey (PyObj α) (PyTreeDef α)}
    (h₀ : multiKey py reg weakTypes callable usable nameLe fuel c₀ = some (os₀, key))
    (hc : multiKey py reg weakTypes callable usable nameLe fuel c = some (os, k))
    (hc' : multiKey py reg weakTypes callable usable nameLe fuel c' = some (os', k'))
    (h : key = k ∨ StrongKey.equal I key k = true) (h' : key = k' ∨ StrongKey.equal I key k' = true) :
    StrongKey.equal I k k' = true := by
  refine StrongKey.equal_of_common hI h h' ?_
  obtain ⟨ts₀, _, hts₀, _, hkey⟩ := multiKey_ok h₀
  have htd : key.treedef = some { registry := reg, traversal := postorders ts₀ } := by rw [hkey]
  -- Identical or equal, the nodes are alike.
  have halike : ∀ {c : PyCall (PyObj α)} {os : List (PyObj α)} {k : StrongKey (PyObj α) (PyTreeDef α)},
      multiKey py reg weakTypes callable usable nameLe fuel c = some (os, k) →
      (key = k ∨ StrongKey.equal I key k = true) → ∃ ts : List (LabelTree (Node α)),
        k.treedef = some { registry := reg, traversal := postorders ts } ∧
        (∀ n ∈ postorders ts, NodeShape reg n) ∧
        List.Forall₂ (Alike py) (postorders ts₀) (postorders ts) := by
    intro c os k hc h
    obtain ⟨ts, _, hts, _, rfl⟩ := multiKey_ok hc
    refine ⟨ts, rfl, forest_shape hts, ?_⟩
    rcases h with h | h
    · rw [h] at htd
      injection htd with htd
      injection htd with _ htd
      rw [htd]
      exact List.forall₂_same.mpr fun n _ => alike_refl hne n
    · have heq := (StrongKey.equal_iff.mp h).1
      rw [htd] at heq
      exact (eq_iff (forest_shape hts₀) (forest_shape hts)).mp ((hdef _ _).mp heq)
  obtain ⟨ts, hk, hts, ha⟩ := halike hc h
  obtain ⟨us, hk', hus, ha'⟩ := halike hc' h'
  rw [hk, hk']
  refine (hdef _ _).mpr ((eq_iff hts hus).mpr ?_)
  exact forall₂_of_common ha ha' fun n hn a han _ _ => alike_of_common hne (forest_shape hts₀ n hn) (hts a han)

/-- **A `WeakrefLRUCache` serves equal calls only.** -/
theorem weakrefCache_sameCall {Obj Def : Type} {I : Interp Obj Def} {usable : Usable Obj}
    {maxsize : ℤ} {numWeakKeys : ℕ} (hI : I.PyLaws) {s : State Obj Def (PyCall Obj)}
    (h : Reachable I (weakrefCache usable nameLe maxsize numWeakKeys) s)
    {sv sv' : Served Obj Def (PyCall Obj)} (hsv : sv ∈ s.served) (hsv' : sv' ∈ s.served)
    (he : sv.entry = sv'.entry) :
    SameCall I.eq (fun a b => I.eq a b = true) sv.call sv'.call := by
  obtain ⟨⟨⟨os, k, hc, hw, hk⟩, _⟩, ⟨⟨os', k', hc', hw', hk'⟩, _⟩, hwr, hkey⟩ :=
    served_sameKeys hI h hsv hsv' he
  rw [← hwr] at hw'
  rw [← hkey] at hk'
  refine sameCall_of_weakrefKeys hc hc' (weak_of_common hI hw hw')
    (StrongKey.equal_of_common hI hk hk' ?_)
  have hnone : ∀ {c : PyCall Obj} {os : List Obj} {k : StrongKey Obj Def},
      weakrefKey usable nameLe numWeakKeys c = some (os, k) → k.treedef = none := by
    intro c os k hc
    unfold weakrefKey at hc
    split at hc
    · exact absurd hc (by simp)
    · obtain ⟨_, rfl⟩ := makeKey_ok hc
      rfl
  rw [hnone hc, hnone hc']
  rfl

end Runs

/-! ## Two calls with one key -/

/-- Objects without methods of their own, compared as Python compares them. -/
def plainInterp : Interp (PyObj ℕ) (PyTreeDef ℕ) where
  is a b := a.beq b
  eq a b := a.beq b
  hash _ := 0
  defEq d e := match d.eq (.plain []) e with
    | .ok b => b
    | .error _ => false
  hashWeak _ := 0
  hashStrong _ _ _ _ := 0
  reaches _ h h' := h == h'
  order := id

/-- Every object can be held weakly and hashed. -/
def allUsable : Usable (PyObj ℕ) where
  weakrefable _ := true
  hashable _ := true

/-- A cache that holds instances of one class weakly. -/
def leafCache : Config (PyObj ℕ) (PyTreeDef ℕ) (PyCall (PyObj ℕ)) :=
  multiWeakrefCache (.plain []) builtinRegistry [.user 1] (fun _ => false) allUsable
    (fun a b => a ≤ b) 0 2

/-- A call with two positional arguments. -/
def pairCall (x y : PyObj ℕ) : PyCall (PyObj ℕ) where
  context := .none
  args := [x, y]
  kwargs := []
  nodup := List.nodup_nil

theorem plainInterp_pyLaws : plainInterp.PyLaws where
  is_refl a := (PyObj.beq_iff a a).mpr rfl
  eq_of_is h := h
  eq_symm {a b} h := (PyObj.beq_iff b a).mpr ((PyObj.beq_iff a b).mp h).symm
  eq_trans {a b c} h h' :=
    (PyObj.beq_iff a c).mpr (((PyObj.beq_iff a b).mp h).trans ((PyObj.beq_iff b c).mp h'))
  hash_eq _ := rfl
  reaches_self _ h := beq_self_eq_true h
  order_perm l := List.Perm.refl l

theorem plain_neLaws : NeLaws (.plain [] : Runtime ℕ) := by
  have key : ∀ x y : PyObj ℕ, (Runtime.plain []).ne x y = .ok false ↔ x = y := fun x y => by
    rw [← PyObj.beq_iff x y]
    simp [Runtime.plain]
  refine ⟨fun x => (key x x).mpr rfl, fun {x y} h => ?_, fun {x y z} h h' => ?_⟩
  · exact (key y x).mpr ((key x y).mp h).symm
  · exact (key x z).mpr (((key x y).mp h).trans ((key y z).mp h'))

theorem plainInterp_defEq (d e : PyTreeDef ℕ) :
    plainInterp.defEq d e = true ↔ d.eq (.plain []) e = .ok true := by
  show (match d.eq (.plain []) e with | .ok b => b | .error _ => false) = true ↔ _
  cases d.eq (.plain []) e <;> simp

/-- An object that is held weakly, and one that is not. -/
def weakObject : PyObj ℕ := .object 1 []
def strongObject : PyObj ℕ := .atom 0 1

/-- A call that is computed to its end, and then the same arguments the other way around. -/
def swappedCalls : State (PyObj ℕ) (PyTreeDef ℕ) (PyCall (PyObj ℕ)) :=
  (runSteps plainInterp leafCache {} [.call 0 (pairCall weakObject strongObject),
    .complete ⟨0, 0, 0, true⟩ (some (.atom 0 5)), .leave ⟨0, 0, 0, true⟩,
    .call 0 (pairCall strongObject weakObject)]).get (by decide)

theorem swappedCalls_reachable : Reachable plainInterp leafCache swappedCalls :=
  reachable_runSteps .init (Option.some_get _).symm

/-- What is expanded to a leaf flattens to one. -/
theorem flattens_leaf {x : PyObj ℕ} (hleaf : expand (.plain []) builtinRegistry x = .ok ({}, []))
    {t : LabelTree (Node ℕ)} {ls : List (PyObj ℕ)}
    (h : Flattens (.plain []) builtinRegistry none x t ls) :
    t = .node { numLeaves := 1, numNodes := 1 } [] ∧ ls = [x] := by
  cases h with
  | leaf _ => exact ⟨rfl, rfl⟩
  | node _ hexp hk _ =>
      rw [hleaf] at hexp
      injection hexp with hexp
      injection hexp with hn _
      exact absurd (by rw [← hn]) hk

/-- The first of these calls alone. -/
def oneCall : State (PyObj ℕ) (PyTreeDef ℕ) (PyCall (PyObj ℕ)) :=
  (runSteps plainInterp leafCache {} [.call 0 (pairCall weakObject strongObject)]).get (by decide)

theorem oneCall_reachable : Reachable plainInterp leafCache oneCall :=
  reachable_runSteps .init (Option.some_get _).symm

theorem oneCall_served : ∀ sv ∈ oneCall.served, sv.call = pairCall weakObject strongObject := by
  have hserved : oneCall.served.map (·.call) = [pairCall weakObject strongObject] := rfl
  intro sv hsv
  have hmem := List.mem_map_of_mem (f := (·.call)) hsv
  rw [hserved] at hmem
  exact List.mem_singleton.mp hmem

/-- A call is not confused with itself, as it can be flattened in one way only. -/
theorem pairCall_notConfused : ¬ Confused (.plain []) builtinRegistry [.user 1] (fun _ => false)
    allUsable (fun a b => a ≤ b) 2 plainInterp (pairCall weakObject strongObject)
    (pairCall weakObject strongObject) := by
  rintro ⟨_, ts, us, ls, ls', hts, hus, hdiffer⟩
  have key : ∀ {ts : List (LabelTree (Node ℕ))} {ls : List (PyObj ℕ)},
      FlattensAll (.plain []) builtinRegistry none [weakObject, strongObject] ts ls →
      ts = [.node { numLeaves := 1, numNodes := 1 } [], .node { numLeaves := 1, numNodes := 1 } []] ∧
        ls = [weakObject, strongObject] := by
    intro ts ls h
    cases h with
    | cons hw h =>
        cases h with
        | cons hs h =>
            cases h
            obtain ⟨rfl, rfl⟩ := flattens_leaf rfl hw
            obtain ⟨rfl, rfl⟩ := flattens_leaf rfl hs
            exact ⟨rfl, rfl⟩
  obtain ⟨rfl, rfl⟩ := key hts
  obtain ⟨rfl, rfl⟩ := key hus
  rcases hdiffer with h | h
  · exact h rfl
  · exact h (List.forall₂_same.mpr fun n _ _ => rfl)

end JaxDas.WeakrefCache
