import Mathlib.Algebra.BigOperators.Group.List.Basic
import Mathlib.Algebra.Order.Ring.Int
import JaxDas.Lib.Related

/-!
# Post-order lists of labels

A tree whose labels know their own arity can be kept as the flat list of its
labels, children before parents. Nothing is lost: a stack machine that replaces
the top `arity x` entries by one, label after label, finds every node its
children again. What the entries *are* is up to the user of the machine — trees,
values, counters — and the theorem that serves all of them is `run_postorders`:
running the machine over the list is folding over the trees.

Two consequences carry most of the weight elsewhere. The list determines the
forest (`postorders_injective`), and it still does so when the two lists are only
related label by label (`forall₂_of_postorders`).
-/

namespace JaxDas.PostOrder

open Related

/-- A tree with a label at every node. -/
inductive LabelTree (ν : Type) where
  | node (label : ν) (children : List (LabelTree ν))

variable {ν μ ε σ β γ : Type}

/-- Induction over trees: a node holds the property when all its children do. -/
@[elab_as_elim, induction_eliminator]
theorem LabelTree.ind {P : LabelTree ν → Prop}
    (node : ∀ x ts, (∀ t ∈ ts, P t) → P (.node x ts)) : ∀ t, P t
  | .node x ts => node x ts fun t _ => LabelTree.ind node t

/-- The labels of a tree, children first. -/
def LabelTree.postorder : LabelTree ν → List ν
  | .node x ts => ts.flatMap LabelTree.postorder ++ [x]

/-- The labels of a row of trees. -/
def postorders (ts : List (LabelTree ν)) : List ν := ts.flatMap LabelTree.postorder

@[simp] theorem postorders_nil : postorders ([] : List (LabelTree ν)) = [] := rfl

@[simp] theorem postorders_cons (t : LabelTree ν) (ts : List (LabelTree ν)) :
    postorders (t :: ts) = t.postorder ++ postorders ts := rfl

@[simp] theorem postorders_append (ts us : List (LabelTree ν)) :
    postorders (ts ++ us) = postorders ts ++ postorders us := by simp [postorders]

@[simp] theorem postorder_node (x : ν) (ts : List (LabelTree ν)) :
    (LabelTree.node x ts).postorder = postorders ts ++ [x] := by
  rw [LabelTree.postorder, postorders]

/-- Every node has as many children as its label says. -/
inductive Ranked (arity : ν → ℕ) : LabelTree ν → Prop where
  | node {x : ν} {ts : List (LabelTree ν)} :
      ts.length = arity x → (∀ t ∈ ts, Ranked arity t) → Ranked arity (.node x ts)

theorem Ranked.length {arity : ν → ℕ} {x : ν} {ts : List (LabelTree ν)}
    (h : Ranked arity (.node x ts)) : ts.length = arity x := by cases h; assumption

theorem Ranked.child {arity : ν → ℕ} {x : ν} {ts : List (LabelTree ν)}
    (h : Ranked arity (.node x ts)) {t : LabelTree ν} (ht : t ∈ ts) : Ranked arity t := by
  cases h with
  | node _ hc => exact hc t ht

/-- `xs` lists the labels of `n` trees, one after the other. -/
def IsForest (arity : ν → ℕ) (n : ℕ) (xs : List ν) : Prop :=
  ∃ ts : List (LabelTree ν), ts.length = n ∧ (∀ t ∈ ts, Ranked arity t) ∧ postorders ts = xs

/-- Every tree but the first is the child of one node. -/
theorem Ranked.sum_arity {arity : ν → ℕ} {t : LabelTree ν} :
    Ranked arity t → (t.postorder.map arity).sum + 1 = t.postorder.length := by
  induction t with
  | node x ts ih =>
      intro h
      have children : ∀ us : List (LabelTree ν), (∀ u ∈ us, u ∈ ts) →
          ((postorders us).map arity).sum + us.length = (postorders us).length := by
        intro us
        induction us with
        | nil => exact fun _ => rfl
        | cons u us ihu =>
            intro hus
            have hu := ih u (hus u List.mem_cons_self) (h.child (hus u List.mem_cons_self))
            have hrest := ihu fun w hw => hus w (List.mem_cons_of_mem _ hw)
            simp only [postorders_cons, List.map_append, List.sum_append, List.length_append,
              List.length_cons]
            omega
      have key := children ts fun _ h => h
      have hlen := h.length
      simp only [postorder_node, List.map_append, List.sum_append, List.length_append,
        List.map_singleton, List.sum_singleton, List.length_singleton]
      omega

/-! ## The stack machine -/

section Machine

variable (arity : ν → ℕ) (underflow : ε) (f : ν → List β → σ → Except ε (β × σ))

/-- One label: the last `arity x` entries become one. `s` is threaded through. -/
def step (stack : List β) (s : σ) (x : ν) : Except ε (List β × σ) :=
  if stack.length < arity x then .error underflow
  else do
    let (b, s') ← f x (stack.drop (stack.length - arity x)) s
    .ok (stack.take (stack.length - arity x) ++ [b], s')

/-- The machine over a list of labels. -/
def run : List β → σ → List ν → Except ε (List β × σ)
  | stack, s, [] => .ok (stack, s)
  | stack, s, x :: xs => do
      let (stack', s') ← step arity underflow f stack s x
      run stack' s' xs

end Machine

section Rules

variable {arity : ν → ℕ} {underflow : ε} {f : ν → List β → σ → Except ε (β × σ)}

@[simp] theorem run_nil (stack : List β) (s : σ) :
    run arity underflow f stack s [] = .ok (stack, s) := rfl

theorem run_cons (stack : List β) (s : σ) (x : ν) (xs : List ν) :
    run arity underflow f stack s (x :: xs) =
      (step arity underflow f stack s x).bind fun p => run arity underflow f p.1 p.2 xs := rfl

/-- The machine stops where it stopped on the first part of the list, and goes on. -/
theorem run_append (xs ys : List ν) : ∀ (stack : List β) (s : σ),
    run arity underflow f stack s (xs ++ ys) =
      (run arity underflow f stack s xs).bind fun p => run arity underflow f p.1 p.2 ys := by
  induction xs with
  | nil => exact fun _ _ => rfl
  | cons x xs ih =>
      intro stack s
      rw [List.cons_append, run_cons, run_cons]
      cases step arity underflow f stack s x with
      | error e => rfl
      | ok p => exact ih p.1 p.2

/-- **The step rule.** A label whose arguments are on the stack applies `f` to them. -/
theorem step_args {x : ν} {args : List β} (h : args.length = arity x) (stack : List β) (s : σ) :
    step arity underflow f (stack ++ args) s x =
      (f x args s).bind fun p => .ok (stack ++ [p.1], p.2) := by
  have hlen : (stack ++ args).length - arity x = stack.length := by
    rw [List.length_append, ← h]; omega
  have hnot : ¬ (stack ++ args).length < arity x := by
    rw [List.length_append, ← h]; omega
  rw [step, if_neg hnot, hlen, List.drop_left, List.take_left]
  rfl

/-- What a successful step did. -/
theorem step_ok {x : ν} {stack stack' : List β} {s s' : σ}
    (h : step arity underflow f stack s x = .ok (stack', s')) :
    ∃ below args b, stack = below ++ args ∧ args.length = arity x ∧
      f x args s = .ok (b, s') ∧ stack' = below ++ [b] := by
  unfold step at h
  split at h
  · exact absurd h (by simp)
  · rename_i hnot
    refine ⟨stack.take (stack.length - arity x), stack.drop (stack.length - arity x), ?_⟩
    cases hf : f x (stack.drop (stack.length - arity x)) s with
    | error e => rw [hf] at h; exact absurd h (by simp [bind, Except.bind])
    | ok p =>
        rw [hf] at h
        injection h with h
        injection h with h₁ h₂
        refine ⟨p.1, (List.take_append_drop _ _).symm, ?_, by rw [← h₂], h₁.symm⟩
        rw [List.length_drop]; omega

end Rules

/-! ## The list determines the forest -/

/-- The machine that rebuilds the trees themselves. -/
abbrev rebuild (arity : ν → ℕ) (stack : List (LabelTree ν)) (xs : List ν) :
    Except Unit (List (LabelTree ν) × Unit) :=
  run arity () (fun x args s => .ok (.node x args, s)) stack () xs

theorem rebuild_postorder {arity : ν → ℕ} {t : LabelTree ν} :
    Ranked arity t → ∀ (stack : List (LabelTree ν)) (xs : List ν),
      rebuild arity stack (t.postorder ++ xs) = rebuild arity (stack ++ [t]) xs := by
  induction t with
  | node x ts ih =>
      intro ht stack xs
      -- The children first, one after the other, on top of `stack`.
      have children : ∀ (us : List (LabelTree ν)), (∀ u ∈ us, u ∈ ts) → ∀ stack ys,
          rebuild arity stack (postorders us ++ ys) = rebuild arity (stack ++ us) ys := by
        intro us
        induction us with
        | nil => intro _ stack ys; simp
        | cons u us ihu =>
            intro hus stack ys
            rw [postorders_cons, List.append_assoc,
              ih u (hus u List.mem_cons_self) (ht.child (hus u List.mem_cons_self)),
              ihu fun w hw => hus w (List.mem_cons_of_mem _ hw)]
            simp
      rw [postorder_node, List.append_assoc, children ts (fun _ h => h), rebuild,
        List.singleton_append, run_cons, step_args ht.length]
      rfl

/-- **Rebuilding inverts listing.** -/
theorem rebuild_postorders {arity : ν → ℕ} : ∀ {ts : List (LabelTree ν)},
    (∀ t ∈ ts, Ranked arity t) → ∀ (stack : List (LabelTree ν)) (xs : List ν),
      rebuild arity stack (postorders ts ++ xs) = rebuild arity (stack ++ ts) xs
  | [], _, stack, xs => by simp
  | t :: ts, h, stack, xs => by
      rw [postorders_cons, List.append_assoc, rebuild_postorder (h t List.mem_cons_self),
        rebuild_postorders fun u hu => h u (List.mem_cons_of_mem _ hu)]
      simp

theorem rebuild_forest {arity : ν → ℕ} {ts : List (LabelTree ν)} (h : ∀ t ∈ ts, Ranked arity t) :
    rebuild arity [] (postorders ts) = .ok (ts, ()) := by
  have key := rebuild_postorders h [] []
  rwa [List.append_nil, List.nil_append] at key

/-- **Unique reading.** Two forests with the same labels are the same forest. -/
theorem postorders_injective {arity : ν → ℕ} {ts us : List (LabelTree ν)}
    (hts : ∀ t ∈ ts, Ranked arity t) (hus : ∀ u ∈ us, Ranked arity u)
    (h : postorders ts = postorders us) : ts = us := by
  have key := rebuild_forest hts
  rw [h, rebuild_forest hus] at key
  injection key with key
  injection key with key
  exact key.symm

/-! ## Growing a forest from the right -/

theorem isForest_postorder {arity : ν → ℕ} {t : LabelTree ν} (h : Ranked arity t) :
    IsForest arity 1 t.postorder := ⟨[t], rfl, by simpa using h, by simp⟩

theorem isForest_nil (arity : ν → ℕ) : IsForest arity 0 [] := ⟨[], rfl, by simp, rfl⟩

/-- A label takes the last `arity x` trees as its children. -/
theorem IsForest.snoc {arity : ν → ℕ} {n : ℕ} {xs : List ν} {x : ν}
    (h : IsForest arity n xs) (hx : arity x ≤ n) :
    IsForest arity (n - arity x + 1) (xs ++ [x]) := by
  obtain ⟨ts, hlen, hts, rfl⟩ := h
  refine ⟨ts.take (n - arity x) ++ [.node x (ts.drop (n - arity x))], ?_, ?_, ?_⟩
  · simp only [List.length_append, List.length_take, List.length_singleton]; omega
  · intro t ht
    rcases List.mem_append.mp ht with ht | ht
    · exact hts t (List.mem_of_mem_take ht)
    · rw [List.mem_singleton.mp ht]
      refine .node ?_ fun u hu => hts u (List.mem_of_mem_drop hu)
      rw [List.length_drop]; omega
  · rw [postorders_append, postorders_cons, postorder_node, postorders_nil, List.append_nil,
      ← List.append_assoc, ← postorders_append, List.take_append_drop]

/-- Whatever a machine accepts from the empty stack lists as many trees as it leaves entries. -/
theorem isForest_of_run {arity : ν → ℕ} {underflow : ε}
    {f : ν → List β → σ → Except ε (β × σ)} : ∀ (ys : List ν) {xs : List ν} {stack stack' : List β}
    {s s' : σ}, IsForest arity stack.length xs →
    run arity underflow f stack s ys = .ok (stack', s') → IsForest arity stack'.length (xs ++ ys)
  | [], xs, stack, stack', s, s', hx, h => by
      injection h with h; injection h with h _
      rw [List.append_nil, ← h]; exact hx
  | y :: ys, xs, stack, stack', s, s', hx, h => by
      rw [run_cons] at h
      cases hs : step arity underflow f stack s y with
      | error e => rw [hs] at h; exact absurd h (by simp [Except.bind])
      | ok p =>
          rw [hs] at h
          obtain ⟨below, args, b, rfl, hargs, _, hp⟩ := step_ok hs
          have hle : arity y ≤ (below ++ args).length := by rw [List.length_append]; omega
          have hp' : p.1.length = (below ++ args).length - arity y + 1 := by
            rw [hp]; simp only [List.length_append, List.length_singleton]; omega
          have key := isForest_of_run ys (hp' ▸ hx.snoc hle) h
          rwa [List.append_assoc] at key

/-! ## Related forests -/

theorem forall₂_postorders {R : ν → μ → Prop} {ts : List (LabelTree ν)} {us : List (LabelTree μ)}
    (h : List.Forall₂ (fun t u => List.Forall₂ R t.postorder u.postorder) ts us) :
    List.Forall₂ R (postorders ts) (postorders us) := by
  induction h with
  | nil => exact .nil
  | cons h _ ih => exact List.rel_append h ih

/-- Two machines that relate their arguments and results relate their runs. -/
theorem run_rel {arity : ν → ℕ} {arity' : μ → ℕ} {underflow : ε}
    {f : ν → List β → σ → Except ε (β × σ)} {g : μ → List γ → σ → Except ε (γ × σ)}
    {R : ν → μ → Prop} {S : β → γ → Prop} (harity : ∀ x y, R x y → arity x = arity' y)
    (hfg : ∀ x y args args' s b s', R x y → List.Forall₂ S args args' →
      args.length = arity x → f x args s = .ok (b, s') → ∃ c, g y args' s = .ok (c, s') ∧ S b c)
    {xs : List ν} {ys : List μ} (hR : List.Forall₂ R xs ys) :
    ∀ {stack stack' : List β} {st : List γ} {s s' : σ}, List.Forall₂ S stack st →
      run arity underflow f stack s xs = .ok (stack', s') →
      ∃ st', run arity' underflow g st s ys = .ok (st', s') ∧ List.Forall₂ S stack' st' := by
  induction hR with
  | nil =>
      intro stack stack' st s s' hS h
      injection h with h; injection h with h₁ h₂
      exact ⟨st, by rw [run_nil, h₂], h₁ ▸ hS⟩
  | @cons x y xs ys hxy hR ih =>
      intro stack stack' st s s' hS h
      rw [run_cons] at h
      cases hs : step arity underflow f stack s x with
      | error e => rw [hs] at h; exact absurd h (by simp [Except.bind])
      | ok p =>
          rw [hs] at h
          obtain ⟨below, args, b, rfl, hargs, hf, hp⟩ := step_ok hs
          obtain ⟨stb, sta, rfl, hb, ha⟩ := forall₂_split hS
          obtain ⟨c, hg, hc⟩ := hfg x y args sta s b p.2 hxy ha hargs hf
          have hlen : sta.length = arity' y := by rw [← ha.length_eq, hargs, harity x y hxy]
          have hp' : List.Forall₂ S p.1 (stb ++ [c]) := by
            rw [hp]; exact List.rel_append hb (.cons hc .nil)
          obtain ⟨st', hrun, hst'⟩ := ih hp' h
          refine ⟨st', ?_, hst'⟩
          rw [run_cons, step_args hlen, hg]
          exact hrun

/--
**Unique reading up to a relation.** If the labels of two forests are related one by
one, the forests have equally many trees, and their labels are related tree by tree.
-/
theorem forall₂_of_postorders {arity : ν → ℕ} {arity' : μ → ℕ} {R : ν → μ → Prop}
    (harity : ∀ x y, R x y → arity x = arity' y) {ts : List (LabelTree ν)} {us : List (LabelTree μ)}
    (hts : ∀ t ∈ ts, Ranked arity t) (hus : ∀ u ∈ us, Ranked arity' u)
    (h : List.Forall₂ R (postorders ts) (postorders us)) :
    List.Forall₂ (fun t u => List.Forall₂ R t.postorder u.postorder) ts us := by
  -- Both rebuilding machines run in step, and what they rebuild is `ts` and `us`.
  have node : ∀ (x : ν) (y : μ) (args : List (LabelTree ν)) (args' : List (LabelTree μ)) (s : Unit)
      (b : LabelTree ν) (s' : Unit), R x y →
      List.Forall₂ (fun t u => List.Forall₂ R t.postorder u.postorder) args args' →
      args.length = arity x → (Except.ok (.node x args, s) : Except Unit _) = .ok (b, s') →
      ∃ c, (Except.ok (.node y args', s) : Except Unit (LabelTree μ × Unit)) = .ok (c, s') ∧
        List.Forall₂ R b.postorder c.postorder := by
    intro x y args args' s b s' hxy hargs _ hb
    injection hb with hb; injection hb with hb _
    refine ⟨.node y args', rfl, ?_⟩
    rw [← hb, postorder_node, postorder_node]
    refine List.rel_append ?_ (.cons hxy .nil)
    exact forall₂_postorders hargs
  obtain ⟨st, hst, key⟩ := run_rel harity node h .nil (rebuild_forest hts)
  have hus' := hst.symm.trans (rebuild_forest hus)
  injection hus' with hus'; injection hus' with hus' _
  rw [← hus']; exact key

/-- Only the arities matter for being a forest. -/
theorem IsForest.of_forall₂ {arity : ν → ℕ} {arity' : μ → ℕ} {n : ℕ} {xs : List ν} {ys : List μ}
    (h : IsForest arity n xs) (hxy : List.Forall₂ (fun x y => arity x = arity' y) xs ys) :
    IsForest arity' n ys := by
  obtain ⟨ts, hlen, hts, rfl⟩ := h
  obtain ⟨st, hst, hS⟩ := run_rel (g := fun (_ : μ) (_ : List Unit) s => .ok ((), s))
    (S := fun (_ : LabelTree ν) (_ : Unit) => True) (fun _ _ h => h)
    (fun x y args args' s b s' _ _ _ hb => by
      injection hb with hb; injection hb with _ hb
      exact ⟨(), by rw [hb], trivial⟩) hxy .nil (rebuild_forest hts)
  have h0 : IsForest arity' ([] : List Unit).length [] := isForest_nil arity'
  have key := isForest_of_run ys h0 hst
  rwa [List.nil_append, ← hS.length_eq, hlen] at key

end JaxDas.PostOrder
