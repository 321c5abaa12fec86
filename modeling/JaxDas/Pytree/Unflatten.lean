import JaxDas.Pytree.Flatten

/-!
# Unflattening is the post-order machine

`UnflattenImpl` keeps an agenda of finished objects and replaces the last
`arity` of them by the node they are the children of. On well-shaped nodes that is
the stack machine of `PostOrder`, with the leaves still to come as its state.
-/

namespace JaxDas.Pytree

open PostOrder

variable {α : Type} {py : Runtime α} {reg : PyTreeRegistry α}

/-- One entry of the agenda: the next leaf, or the node made of its children. -/
def build (py : Runtime α) (n : Node α) (children leaves : List (PyObj α)) :
    Except PyErr (PyObj α × List (PyObj α)) :=
  if n.kind = .leaf then
    match leaves with
    | [] => .error (.valueError "Too few leaves for PyTreeDef")
    | x :: rest => .ok (x, rest)
  else do
    let o ← makeNode py n children
    .ok (o, leaves)

theorem build_leaf {n : Node α} (hk : n.kind = .leaf) (children : List (PyObj α)) (x : PyObj α)
    (rest : List (PyObj α)) : build py n children (x :: rest) = .ok (x, rest) := by
  simp [build, hk]

theorem build_node {n : Node α} (hk : n.kind ≠ .leaf) (children leaves : List (PyObj α)) :
    build py n children leaves = (makeNode py n children).bind fun o => .ok (o, leaves) := by
  cases leaves <;> simp [build, hk, bind]

/-- The machine of the nodes of a definition. -/
abbrev runNodes (py : Runtime α) (agenda leaves : List (PyObj α)) (ns : List (Node α)) :
    Except PyErr (List (PyObj α) × List (PyObj α)) :=
  run Node.children (.logicError "Too few elements for TreeDef node.") (build py) agenda leaves ns

theorem unflattenLoop_cons (expected : ℤ) (n : Node α) (ns : List (Node α))
    (agenda leaves : List (PyObj α)) (k : ℕ) :
    unflattenLoop py expected (n :: ns) agenda leaves k =
      if n.arity < 0 ∨ (agenda.length : ℤ) < n.arity then
        .error (.logicError "Too few elements for TreeDef node.")
      else if n.kind = .leaf then
        match leaves with
        | [] => .error (.valueError
            ("Too few leaves for PyTreeDef; expected " ++ toString expected ++ ", got " ++
              toString k))
        | x :: rest => unflattenLoop py expected ns (agenda ++ [x]) rest (k + 1)
      else
        (makeNode py n (agenda.drop (agenda.length - n.arity.toNat))).bind fun o =>
          unflattenLoop py expected ns (agenda.take (agenda.length - n.arity.toNat) ++ [o])
            leaves k := by
  cases leaves <;> rfl

/-- **`UnflattenImpl` is the machine.** They succeed together, with the same result. -/
theorem unflattenLoop_iff (expected : ℤ) : ∀ {ns : List (Node α)}
    {agenda leaves : List (PyObj α)} {k : ℕ} {r : List (PyObj α) × List (PyObj α)},
    (∀ n ∈ ns, NodeShape reg n) →
    (unflattenLoop py expected ns agenda leaves k = .ok r ↔ runNodes py agenda leaves ns = .ok r)
  | [], agenda, leaves, k, r, _ => Iff.rfl
  | n :: ns, agenda, leaves, k, r, h => by
      have hn := h n List.mem_cons_self
      have hns : ∀ m ∈ ns, NodeShape reg m := fun m hm => h m (List.mem_cons_of_mem _ hm)
      have harity : (n.arity.toNat : ℤ) = n.arity := Int.toNat_of_nonneg hn.arity
      rw [unflattenLoop_cons, runNodes, run_cons, step]
      by_cases hfew : agenda.length < n.children
      · -- Both give up.
        rw [if_pos (by rw [← harity]; exact .inr (by exact_mod_cast hfew)), if_pos hfew]
        simp [Except.bind]
      · rw [if_neg (by rw [← harity]; rintro (h | h) <;> simp only [Node.children] at hfew <;> omega),
          if_neg hfew]
        by_cases hk : n.kind = .leaf
        · -- A leaf has no children to replace.
          have h0 : n.children = 0 := by rw [Node.children, hn.empty (.inl hk)]; rfl
          rw [if_pos hk, h0]
          cases leaves with
          | nil => simp [build, hk, bind, Except.bind]
          | cons x rest =>
              rw [build_leaf hk, Nat.sub_zero, List.take_length]
              exact unflattenLoop_iff expected hns
        · rw [if_neg hk, build_node hk]
          cases makeNode py n (agenda.drop (agenda.length - n.children)) with
          | error e => simp [bind, Except.bind]
          | ok o => exact unflattenLoop_iff expected hns

/-- **Unflattening succeeds when the machine leaves one object and no leaf.** -/
theorem unflatten_iff {d : PyTreeDef α} {leaves : List (PyObj α)} {x : PyObj α}
    (h : ∀ n ∈ d.traversal, NodeShape reg n) :
    d.unflatten py leaves = .ok x ↔ runNodes py [] leaves d.traversal = .ok ([x], []) := by
  rw [← unflattenLoop_iff d.numLeaves (k := 0) h, PyTreeDef.unflatten]
  cases unflattenLoop py d.numLeaves d.traversal [] leaves 0 with
  | error e => simp [bind, Except.bind]
  | ok p =>
      obtain ⟨agenda, rest⟩ := p
      show (if rest ≠ [] then _ else _) = _ ↔ _
      by_cases hr : rest = []
      · subst hr
        rw [if_neg (by simp)]
        match agenda with
        | [] => simp
        | [y] => simp
        | y :: z :: ys => simp
      · simp [hr]

end JaxDas.Pytree
