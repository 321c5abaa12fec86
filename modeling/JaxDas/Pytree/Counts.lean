import Mathlib.Algebra.Group.Basic
import Mathlib.Algebra.Group.Int.Defs
import Mathlib.Data.List.Induction
import JaxDas.Pytree.Flatten

/-!
# The counts of a node list

`SetNumLeavesAndNumNodes` runs over the nodes with a vector of where the finished
subtrees begin. On a forest the vector has one entry for each tree read so far
(`setCounts_forest`), and the counts it stores are those of the subtrees.
`Children` walks the other way, from the root back, and steps by those counts.
-/

namespace JaxDas.Pytree

open PostOrder

variable {α : Type} {reg : PyTreeRegistry α}

/-- A node without its counts. -/
def Node.plain (n : Node α) : Node α := { n with numLeaves := 0, numNodes := 0 }

theorem Node.plain_counts (n : Node α) (k m : ℤ) :
    Node.plain { n with numLeaves := k, numNodes := m } = n.plain := rfl

theorem Node.counts_plain (n : Node α) :
    { n.plain with numLeaves := n.numLeaves, numNodes := n.numNodes } = n := rfl

theorem Node.kind_eq {n m : Node α} (h : n.plain = m.plain) : n.kind = m.kind := by
  have key := congrArg Node.kind h
  exact key

theorem Node.children_eq {n m : Node α} (h : n.plain = m.plain) : n.children = m.children := by
  have key := congrArg Node.children h
  exact key

theorem Node.arity_eq {n m : Node α} (h : n.plain = m.plain) : n.arity = m.arity := by
  have key := congrArg Node.arity h
  exact key

theorem Node.sortedDictKeys_eq {n m : Node α} (h : n.plain = m.plain) :
    n.sortedDictKeys = m.sortedDictKeys := by
  have key := congrArg Node.sortedDictKeys h
  exact key

theorem leafCount_plain {ns ms : List (Node α)} (h : ns.map Node.plain = ms.map Node.plain) :
    leafCount ns = leafCount ms := by
  have key : ∀ l : List (Node α), leafCount l = leafCount (l.map Node.plain) := fun l => by
    unfold leafCount
    rw [List.countP_map]
    rfl
  rw [key, key ms, h]

theorem length_plain {ns ms : List (Node α)} (h : ns.map Node.plain = ms.map Node.plain) :
    ns.length = ms.length := by
  simpa using congrArg List.length h

/-- The shape does not depend on the counts. -/
theorem NodeShape.of_plain {n m : Node α} (h : NodeShape reg m) (he : n.plain = m.plain) :
    NodeShape reg n := by
  rw [← n.counts_plain, he]
  exact h.setCounts _ _

/-! ## The vector of starts -/

theorem allocate_ok {memory k : ℕ} {v w : List (ℤ × ℤ)} (h : allocate memory k v = .ok w) :
    k ≤ vectorMax ∧ w = v := by
  unfold allocate at h
  rcases ite_ok h with ⟨_, h⟩ | ⟨hk, h⟩
  · exact absurd h (by simp)
  · injection h with h
    exact ⟨by omega, h.symm⟩

/-- While the vector does not run short, `size_t` arithmetic is ordinary arithmetic. -/
theorem resizedLength_eq (size : ℕ) {a : ℤ} (h0 : 0 < a) (h1 : a ≤ size)
    (h2 : size ≤ vectorMax) : (resizedLength size a : ℤ) = size - (a - 1) := by
  unfold resizedLength
  have hmax : (vectorMax : ℤ) < 2 ^ 64 := by decide
  rw [Int.toNat_of_nonneg (Int.emod_nonneg _ (by decide))]
  exact Int.emod_eq_of_lt (by omega) (by omega)

/--
**One node.** With the starts of its children on top of `below`, the vector ends
with the start of the node itself.
-/
theorem nextStarts_ok {memory : ℕ} {below own starts : List (ℤ × ℤ)} {start : ℤ × ℤ} {arity : ℤ}
    (h : nextStarts memory (below ++ own) start arity = .ok starts)
    (hlen : (own.length : ℤ) = arity) (hmax : (below ++ own).length ≤ vectorMax)
    (hown : ∀ s ∈ own.head?, s = start) :
    starts = below ++ [start] ∧ starts.length ≤ vectorMax := by
  unfold nextStarts at h
  rcases ite_ok h with ⟨h0, h⟩ | ⟨h0, h⟩
  · -- Nothing to replace.
    obtain rfl : own = [] := List.eq_nil_of_length_eq_zero (by omega)
    obtain ⟨hk, rfl⟩ := allocate_ok h
    rw [List.append_nil] at hk ⊢
    exact ⟨rfl, by rw [List.length_append]; exact hk⟩
  · rcases ite_ok h with ⟨hneg, _⟩ | ⟨_, h⟩
    · omega
    obtain ⟨hk, rfl⟩ := allocate_ok h
    obtain ⟨s, own, rfl⟩ : ∃ s rest, own = s :: rest := by
      cases own with
      | nil => simp at hlen; omega
      | cons s rest => exact ⟨s, rest, rfl⟩
    obtain rfl : s = start := hown s rfl
    have hr : resizedLength (below ++ s :: own).length arity = below.length + 1 := by
      have key := resizedLength_eq (below ++ s :: own).length (a := arity)
        (by simp at hlen; omega) (by simp at hlen ⊢; omega) hmax
      simp only [List.length_append, List.length_cons] at key hlen ⊢
      omega
    have htake : (below ++ s :: own).take (below.length + 1) = below ++ [s] := by
      rw [← List.singleton_append, ← List.append_assoc]
      exact List.take_left' (by simp)
    have hzero : below.length + 1 - (below ++ s :: own).length = 0 := by simp
    rw [hr] at hk
    rw [hr, htake, hzero, List.replicate_zero, List.append_nil]
    exact ⟨rfl, by rw [List.length_append]; exact hk⟩

theorem setCounts_cons {memory : ℕ} {starts : List (ℤ × ℤ)} {k i : ℤ} {n : Node α}
    {ns r : List (Node α)} (h : setCounts memory starts k i (n :: ns) = .ok r) :
    ∃ starts' back rest, nextStarts memory starts (k, i) n.arity = .ok starts' ∧
      starts'.getLast? = some back ∧
      setCounts memory starts' (if n.kind = .leaf then k + 1 else k) (i + 1) ns = .ok rest ∧
      r = { n with
        numLeaves := (if n.kind = .leaf then k + 1 else k) - back.1
        numNodes := i + 1 - back.2 } :: rest := by
  unfold setCounts at h
  obtain ⟨starts', hs, h⟩ := bind_ok.mp h
  split at h
  · exact absurd h (by simp)
  · rename_i back hback
    obtain ⟨rest, hrest, h⟩ := bind_ok.mp h
    injection h with h
    exact ⟨starts', back, rest, hs, hback, hrest, h.symm⟩

/-! ## Recounting a forest -/

/-- `ts` with the right counts, and nothing else changed. -/
structure Recounted (ts us : List (LabelTree (Node α))) : Prop where
  plain : (postorders us).map Node.plain = (postorders ts).map Node.plain
  length : us.length = ts.length
  ranked : ∀ u ∈ us, Ranked Node.children u
  counted : ∀ u ∈ us, Counted u

/-- What the loop does with the nodes of one tree: it recounts them, and enters one start. -/
def RecountsTree (memory : ℕ) (t : LabelTree (Node α)) : Prop :=
  ∀ {starts : List (ℤ × ℤ)} {k i : ℤ} {rest r : List (Node α)},
    starts.length ≤ vectorMax →
    setCounts memory starts k i (t.postorder ++ rest) = .ok r →
    ∃ u r', Recounted [t] [u] ∧ r = u.postorder ++ r' ∧
      (starts ++ [(k, i)]).length ≤ vectorMax ∧
      setCounts memory (starts ++ [(k, i)]) (k + leafCount t.postorder)
        (i + t.postorder.length) rest = .ok r'

theorem setCounts_forest_of {memory : ℕ} : ∀ {ts : List (LabelTree (Node α))},
    (∀ t ∈ ts, RecountsTree memory t) →
    ∀ {starts : List (ℤ × ℤ)} {k i : ℤ} {rest r : List (Node α)}, starts.length ≤ vectorMax →
    setCounts memory starts k i (postorders ts ++ rest) = .ok r →
    ∃ own us r', Recounted ts us ∧ r = postorders us ++ r' ∧ own.length = ts.length ∧
      (∀ s ∈ own.head?, s = (k, i)) ∧ (starts ++ own).length ≤ vectorMax ∧
      setCounts memory (starts ++ own) (k + leafCount (postorders ts))
        (i + (postorders ts).length) rest = .ok r'
  | [], _, starts, k, i, rest, r, hmax, h => by
      refine ⟨[], [], r, ⟨rfl, rfl, by simp, by simp⟩, rfl, rfl, by simp, by simpa using hmax, ?_⟩
      simpa [leafCount] using h
  | t :: ts, ht, starts, k, i, rest, r, hmax, h => by
      rw [postorders_cons, List.append_assoc] at h
      obtain ⟨u, r₁, hu, rfl, hmax₁, h₁⟩ := ht t List.mem_cons_self hmax h
      obtain ⟨own, us, r₂, hus, rfl, hown, _, hmax₂, h₂⟩ :=
        setCounts_forest_of (fun t' ht' => ht t' (List.mem_cons_of_mem _ ht')) hmax₁ h₁
      refine ⟨(k, i) :: own, u :: us, r₂, ⟨?_, ?_, ?_, ?_⟩, ?_, ?_, ?_, ?_, ?_⟩
      · have := hu.plain
        simp only [postorders_cons, postorders_nil, List.append_nil] at this
        rw [postorders_cons, postorders_cons, List.map_append, List.map_append, this, hus.plain]
      · rw [List.length_cons, hus.length, List.length_cons]
      · exact List.forall_mem_cons.mpr ⟨hu.ranked u List.mem_cons_self, hus.ranked⟩
      · exact List.forall_mem_cons.mpr ⟨hu.counted u List.mem_cons_self, hus.counted⟩
      · rw [postorders_cons, List.append_assoc]
      · rw [List.length_cons, hown, List.length_cons]
      · simp
      · simpa using hmax₂
      · rw [postorders_cons, leafCount_append, List.length_append]
        have e₁ : k + ((leafCount t.postorder + leafCount (postorders ts) : ℕ) : ℤ) =
            k + leafCount t.postorder + leafCount (postorders ts) := by omega
        have e₂ : i + ((t.postorder.length + (postorders ts).length : ℕ) : ℤ) =
            i + t.postorder.length + (postorders ts).length := by omega
        rw [e₁, e₂]
        simpa using h₂

theorem Recounted.leafCount {ts us : List (LabelTree (Node α))} (h : Recounted ts us) :
    leafCount (postorders us) = leafCount (postorders ts) := leafCount_plain h.plain

theorem Recounted.size {ts us : List (LabelTree (Node α))} (h : Recounted ts us) :
    (postorders us).length = (postorders ts).length := length_plain h.plain

/-- **One tree.** Its children first; then the node finds their starts, and leaves its own. -/
theorem recountsTree {memory : ℕ} {t : LabelTree (Node α)} : Ranked Node.children t →
    (∀ n ∈ t.postorder, NodeShape reg n) → RecountsTree memory t := by
  induction t with
  | node n ts ih =>
      intro hrank hshape starts k i rest r hmax h
      have hn : NodeShape reg n := hshape n (by rw [postorder_node]; simp)
      have hts : ∀ t ∈ ts, RecountsTree memory t := fun t ht =>
        ih t ht (hrank.child ht) fun m hm => hshape m (by
          rw [postorder_node]
          exact List.mem_append_left _ (List.mem_flatMap.mpr ⟨t, ht, hm⟩))
      rw [postorder_node, List.append_assoc, List.singleton_append] at h
      obtain ⟨own, us, r', hus, rfl, hown, hhead, hmax', h'⟩ := setCounts_forest_of hts hmax h
      obtain ⟨starts', back, r'', hs, hback, hrest, rfl⟩ := setCounts_cons h'
      have harity : (own.length : ℤ) = n.arity := by
        rw [hown, hrank.length, Node.children, Int.toNat_of_nonneg hn.arity]
      -- The start that the node enters is the start of its first child, or its own position.
      have hstart : nextStarts memory (starts ++ own) (k, i) n.arity = .ok starts' := by
        rw [← hs]
        unfold nextStarts
        by_cases h0 : n.arity = 0
        · have h00 : ts = [] := List.eq_nil_of_length_eq_zero (by omega)
          subst h00
          simp [Pytree.leafCount]
        · rw [if_neg h0, if_neg h0]
      obtain ⟨rfl, hmax''⟩ := nextStarts_ok hstart harity hmax' hhead
      obtain rfl : back = (k, i) := by simpa using hback.symm
      have hleaf : (if n.kind = .leaf then k + Pytree.leafCount (postorders ts) + 1
          else k + Pytree.leafCount (postorders ts)) =
          k + Pytree.leafCount (LabelTree.node n ts).postorder := by
        rw [postorder_node, leafCount_append, leafCount_cons]
        by_cases hk : n.kind = .leaf
        · simp [hk, Pytree.leafCount]; omega
        · simp [hk, Pytree.leafCount]
      have hsize : i + (postorders ts).length + 1 = i + ((LabelTree.node n ts).postorder.length : ℤ) := by
        rw [postorder_node, List.length_append, List.length_singleton]; omega
      rw [hleaf, hsize] at hrest
      refine ⟨.node { n with
        numLeaves := k + Pytree.leafCount (LabelTree.node n ts).postorder - k
        numNodes := i + ((LabelTree.node n ts).postorder.length : ℤ) - i } us, r'',
        ⟨?_, rfl, ?_, ?_⟩, ?_, hmax'', hrest⟩
      · simp only [postorders_cons, postorders_nil, List.append_nil, postorder_node,
          List.map_append, hus.plain]
        rfl
      · intro u hu
        rw [List.mem_singleton.mp hu]
        refine .node ?_ hus.ranked
        rw [hus.length]
        exact hrank.length
      · intro u hu
        rw [List.mem_singleton.mp hu]
        refine .node ?_ ?_ hus.counted
        · rw [postorder_node, postorder_node, leafCount_append, leafCount_append, hus.leafCount,
            leafCount_cons, leafCount_cons]
          exact add_sub_cancel_left _ _
        · rw [postorder_node, postorder_node, List.length_append, List.length_append, hus.size]
          exact add_sub_cancel_left _ _
      · rw [postorder_node, List.append_assoc, hleaf, hsize]
        rfl

/-- **`SetNumLeavesAndNumNodes` on a forest** changes nothing but the counts, and gets them right. -/
theorem setNumLeavesAndNumNodes_ok {memory : ℕ} {ts : List (LabelTree (Node α))} {r : List (Node α)}
    (hrank : ∀ t ∈ ts, Ranked Node.children t) (hshape : ∀ n ∈ postorders ts, NodeShape reg n)
    (h : setNumLeavesAndNumNodes memory (postorders ts) = .ok r) :
    ∃ us, Recounted ts us ∧ r = postorders us := by
  have hts : ∀ t ∈ ts, RecountsTree memory t := fun t ht =>
    recountsTree (hrank t ht) fun n hn => hshape n (List.mem_flatMap.mpr ⟨t, ht, hn⟩)
  unfold setNumLeavesAndNumNodes at h
  rw [← List.append_nil (postorders ts)] at h
  obtain ⟨own, us, r', hus, rfl, _, _, _, h'⟩ :=
    setCounts_forest_of hts (Nat.zero_le _) h
  injection h' with h'
  exact ⟨us, hus, by rw [← h', List.append_nil]⟩

/-! ## Children -/

theorem getLast_postorder (n : Node α) (ts : List (LabelTree (Node α))) :
    (LabelTree.node n ts).postorder.getLast? = some n := by rw [postorder_node]; simp

theorem childrenLoop_succ {nodes : List (Node α)} {n : Node α} {i pos : ℕ}
    {acc : List (List (Node α))} (h : nodes[pos]? = some n) :
    childrenLoop nodes (i + 1) (pos + 1) acc =
      if ((pos + 1 : ℕ) : ℤ) < n.numNodes then
        .error (.logicError "children() walked off start of array")
      else childrenLoop nodes i (pos + 1 - n.numNodes.toNat)
        ((nodes.take (pos + 1)).drop (pos + 1 - n.numNodes.toNat) :: acc) := by
  conv_lhs => unfold childrenLoop
  simp only [Nat.add_sub_cancel, h]

/-- The loop of `Children` takes the last subtree off, by its size. -/
theorem childrenLoop_ok : ∀ {ts : List (LabelTree (Node α))} {later : List (Node α)}
    {acc : List (List (Node α))}, (∀ t ∈ ts, Counted t) →
    childrenLoop (postorders ts ++ later) ts.length (postorders ts).length acc =
      .ok (ts.map LabelTree.postorder ++ acc) := by
  intro ts
  induction ts using List.reverseRecOn with
  | nil => intro later acc _; rfl
  | append_singleton ts t ih =>
      intro later acc hc
      obtain ⟨n, us⟩ := t
      have hcount : n.numNodes = (LabelTree.node n us).postorder.length := by
        have key := hc (.node n us) (by simp)
        cases key with
        | node _ h _ => exact h
      have hpos : (LabelTree.node n us).postorder.length = (postorders us).length + 1 := by
        rw [postorder_node]; simp
      have hsplit : postorders (ts ++ [.node n us]) =
          postorders ts ++ (LabelTree.node n us).postorder := by simp
      have hlen : (postorders (ts ++ [.node n us])).length =
          (postorders ts).length + (postorders us).length + 1 := by
        rw [hsplit, List.length_append, hpos]; omega
      have hlast : (postorders (ts ++ [.node n us]) ++ later)[
          (postorders ts).length + (postorders us).length]? = some n := by
        rw [hsplit, postorder_node]
        simp [List.append_assoc]
      have hstart : (postorders ts).length + (postorders us).length + 1 - n.numNodes.toNat =
          (postorders ts).length := by
        rw [hcount, hpos]; simp
      rw [List.length_append, List.length_singleton, hlen, childrenLoop_succ hlast,
        if_neg (by rw [hcount, hpos]; omega), hstart]
      have htake : ((postorders (ts ++ [LabelTree.node n us]) ++ later).take
          ((postorders ts).length + (postorders us).length + 1)).drop (postorders ts).length =
          (LabelTree.node n us).postorder := by
        rw [← hlen, List.take_left, hsplit, List.drop_left]
      rw [htake, hsplit, List.append_assoc,
        ih fun u hu => hc u (List.mem_append_left _ hu)]
      simp

end JaxDas.Pytree
