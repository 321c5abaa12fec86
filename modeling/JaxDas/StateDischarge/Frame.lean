import JaxDas.StateDischarge.Discharge

/-!
# What a run does not change

A run changes only the refs that are passed to it, and what it does to them depends on nothing else of
the store.
-/

namespace JaxDas.StateDischarge

variable {P T V R R' : Type}

/-! ## Environments -/

namespace Env

theorem readAtom_congr {env : Env V R} {env' : Env V R'} (h : env'.vals = env.vals) (a : Atom V) :
    env'.readAtom a = env.readAtom a := by
  cases a with
  | var v => rw [readAtom, readAtom, h]
  | lit x => rfl

theorem readAtoms_congr {env : Env V R} {env' : Env V R'} (h : env'.vals = env.vals)
    (as : List (Atom V)) : env'.readAtoms as = env.readAtoms as := by
  rw [readAtoms, readAtoms, funext (readAtom_congr h)]

theorem writeVals_ok : ∀ {env e : Env V R} {env' : Env V R'} {vs : List ℕ} {xs : List V},
    env'.vals = env.vals → env.writeVals vs xs = .ok e →
      e.refs = env.refs ∧ ∃ e', env'.writeVals vs xs = .ok e' ∧ e'.vals = e.vals ∧
        e'.refs = env'.refs
  | env, e, env', [], [], hvals, h => by
      injection h with h
      subst h
      exact ⟨rfl, env', rfl, hvals, rfl⟩
  | env, e, env', v :: vs, x :: xs, hvals, h => by
      have hvals' : (env'.writeVal v x).vals = (env.writeVal v x).vals := by
        simp only [writeVal, hvals]
      exact @writeVals_ok (env.writeVal v x) e (env'.writeVal v x) vs xs hvals' h
  | _, _, _, [], _ :: _, _, h => nomatch h
  | _, _, _, _ :: _, [], _, h => nomatch h

theorem writeVals_refs {env e : Env V R} {vs : List ℕ} {xs : List V}
    (h : env.writeVals vs xs = .ok e) : e.refs = env.refs := (writeVals_ok rfl h).1

theorem writeConsts_refs : ∀ (consts : List (ℕ × V)) (env : Env V R),
    (env.writeConsts consts).refs = env.refs
  | [], _ => rfl
  | (v, x) :: consts, env => writeConsts_refs consts (env.writeVal v x)

theorem writeConsts_vals : ∀ (consts : List (ℕ × V)) {env : Env V R} {env' : Env V R'},
    env'.vals = env.vals → (env'.writeConsts consts).vals = (env.writeConsts consts).vals
  | [], _, _, h => h
  | (v, x) :: consts, env, env', h => by
      have hvals : (env'.writeVal v x).vals = (env.writeVal v x).vals := by
        simp only [writeVal, h]
      exact writeConsts_vals consts hvals

/-- What is bound to the refs of inputs comes from the arguments. -/
theorem writeArgs_refs : ∀ {vars : List Var} {args : List (Arg V R)} {env e : Env V R},
    env.writeArgs vars args = .ok e → ∀ {r : RefVar} {a : R}, e.refs r = some a →
      env.refs r = some a ∨ (r ∈ refVars vars ∧ .ref a ∈ args)
  | [], [], env, e, h, r, a, hr => by
      injection h with h
      exact .inl (h ▸ hr)
  | .val v :: vars, .val x :: args, env, e, h, r, a, hr => by
      rcases @writeArgs_refs vars args (env.writeVal v x) e h r a hr with hr | ⟨hmem, hr⟩
      · exact .inl hr
      · exact .inr ⟨hmem, List.mem_cons_of_mem _ hr⟩
  | .ref v :: vars, .ref b :: args, env, e, h, r, a, hr => by
      rcases @writeArgs_refs vars args (env.writeRef v b) e h r a hr with hr | ⟨hmem, hr⟩
      · by_cases hrv : r = v
        · subst hrv
          have hab : b = a := by simpa [writeRef] using hr
          exact .inr ⟨List.mem_cons_self, hab ▸ List.mem_cons_self⟩
        · exact .inl (by simpa [writeRef, hrv] using hr)
      · exact .inr ⟨List.mem_cons_of_mem _ hmem, List.mem_cons_of_mem _ hr⟩
  | .val _ :: _, .ref _ :: _, _, _, h, _, _, _ => nomatch h
  | .ref _ :: _, .val _ :: _, _, _, h, _, _, _ => nomatch h
  | .val _ :: _, [], _, _, h, _, _, _ => nomatch h
  | .ref _ :: _, [], _, _, h, _, _, _ => nomatch h
  | [], _ :: _, _, _, h, _, _, _ => nomatch h

/-- The environment that a call starts with. -/
theorem inner_refs {consts : List (ℕ × V)} {vars : List Var} {args : List (Arg V R)} {e : Env V R}
    (h : (Env.empty.writeConsts consts).writeArgs vars args = .ok e) {r : RefVar} {a : R}
    (hr : e.refs r = some a) : r ∈ refVars vars ∧ .ref a ∈ args := by
  rcases writeArgs_refs h hr with hr | hr
  · rw [writeConsts_refs] at hr
    exact nomatch hr
  · exact hr

end Env

/-- The refs that a call is given. -/
theorem mem_readOperands {env : Env V ℕ} {h : Heap V} : ∀ {operands : List (Operand V)}
    {args : List (Arg V ℕ)}, readOperands env h operands = .ok args → ∀ {a : ℕ}, .ref a ∈ args →
      ∃ r ∈ refOperands operands, env.refs r = some a ∧ ∃ x, h.cells a = some x
  | [], args, hread, a, ha => by
      injection hread with hread
      subst hread
      exact nomatch ha
  | .val b :: operands, args, hread, a, ha => by
      obtain ⟨x, -, hread⟩ := bind_ok.mp hread
      obtain ⟨args', hrest, hread⟩ := bind_ok.mp hread
      injection hread with hread
      subst hread
      have ha : .ref a ∈ args' := by simpa using ha
      exact mem_readOperands hrest ha
  | .ref s :: operands, args, hread, a, ha => by
      obtain ⟨b, hb, hread⟩ := bind_ok.mp hread
      obtain ⟨x, hx, hread⟩ := bind_ok.mp hread
      obtain ⟨args', hrest, hread⟩ := bind_ok.mp hread
      injection hread with hread
      subst hread
      rcases List.mem_cons.mp ha with hab | ha
      · injection hab with hab
        subst hab
        exact ⟨s, List.mem_cons_self, found_ok.mp hb, x, found_ok.mp hx⟩
      · obtain ⟨r, hr, hr'⟩ := mem_readOperands hrest ha
        exact ⟨r, List.mem_cons_of_mem _ hr, hr'⟩

/-! ## Runs -/

/-- The address is of no ref of the environment. -/
def Env.Unbound (env : Env V ℕ) (a : ℕ) : Prop := ∀ r, env.refs r ≠ some a

theorem Env.Unbound.of_refs {env e : Env V ℕ} {a : ℕ} (h : env.Unbound a) (he : e.refs = env.refs) :
    e.Unbound a := by
  intro r
  rw [he]
  exact h r

theorem Env.Unbound.writeRef {env : Env V ℕ} {a b : ℕ} (h : env.Unbound a) (hb : b ≠ a)
    (r : RefVar) : (env.writeRef r b).Unbound a := by
  intro s
  by_cases hs : s = r
  · simpa [Env.writeRef, hs] using hb
  · simpa [Env.writeRef, hs] using h s

theorem Heap.write_cells {h : Heap V} {a b : ℕ} (x : V) (hab : b ≠ a) :
    (h.write a x).cells b = h.cells b := Function.update_of_ne hab _ _

theorem Heap.free_cells {h : Heap V} {a b : ℕ} (hab : b ≠ a) :
    (h.free a).cells b = h.cells b := Function.update_of_ne hab _ _

theorem Heap.alloc_cells {h : Heap V} {b : ℕ} (x : V) (hb : b < h.next) :
    (h.alloc x).cells b = h.cells b := Function.update_of_ne (Nat.ne_of_lt hb) _ _

/-- A run leaves the refs that it is not given as they are. -/
theorem run_frame {ops : Ops P T V} : ∀ {e : Eqns P T V} {env : Env V ℕ} {h h1 : Heap V}
    {outs : List V}, run ops e env h = .ok (outs, h1) →
      h.next ≤ h1.next ∧ ∀ a < h.next, env.Unbound a → h1.cells a = h.cells a := by
  intro e
  induction e with
  | done outvars =>
      intro env h h1 outs hrun
      obtain ⟨xs, -, hrun⟩ := bind_ok.mp hrun
      injection hrun with hrun
      obtain ⟨-, rfl⟩ := Prod.mk.inj hrun
      exact ⟨Nat.le_refl _, fun _ _ _ => rfl⟩
  | pure prim invars outvars rest ih =>
      intro env h h1 outs hrun
      obtain ⟨xs, -, hrun⟩ := bind_ok.mp hrun
      obtain ⟨env', henv, hrun⟩ := bind_ok.mp hrun
      obtain ⟨hnext, hcells⟩ := ih hrun
      exact ⟨hnext, fun a ha hu => hcells a ha (hu.of_refs (Env.writeVals_refs henv))⟩
  | get ref tree idx outvar rest ih =>
      intro env h h1 outs hrun
      obtain ⟨b, -, hrun⟩ := bind_ok.mp hrun
      obtain ⟨x, -, hrun⟩ := bind_ok.mp hrun
      obtain ⟨is, -, hrun⟩ := bind_ok.mp hrun
      obtain ⟨hnext, hcells⟩ := ih hrun
      exact ⟨hnext, hcells⟩
  | swap ref val tree idx outvar rest ih =>
      intro env h h1 outs hrun
      obtain ⟨b, hb, hrun⟩ := bind_ok.mp hrun
      obtain ⟨x, -, hrun⟩ := bind_ok.mp hrun
      obtain ⟨y, -, hrun⟩ := bind_ok.mp hrun
      obtain ⟨is, -, hrun⟩ := bind_ok.mp hrun
      obtain ⟨hnext, hcells⟩ := ih hrun
      refine ⟨hnext, fun a ha hu => (hcells a ha hu).trans (Heap.write_cells _ fun hab => ?_)⟩
      exact hu ref (hab ▸ found_ok.mp hb)
  | addupdate ref val tree idx rest ih =>
      intro env h h1 outs hrun
      obtain ⟨b, hb, hrun⟩ := bind_ok.mp hrun
      obtain ⟨x, -, hrun⟩ := bind_ok.mp hrun
      obtain ⟨y, -, hrun⟩ := bind_ok.mp hrun
      obtain ⟨is, -, hrun⟩ := bind_ok.mp hrun
      obtain ⟨hnext, hcells⟩ := ih hrun
      refine ⟨hnext, fun a ha hu => (hcells a ha hu).trans (Heap.write_cells _ fun hab => ?_)⟩
      exact hu ref (hab ▸ found_ok.mp hb)
  | newRef init outvar rest ih =>
      intro env h h1 outs hrun
      obtain ⟨x, -, hrun⟩ := bind_ok.mp hrun
      obtain ⟨hnext, hcells⟩ := ih hrun
      refine ⟨Nat.le_of_succ_le hnext, fun a ha hu => ?_⟩
      rw [hcells a (Nat.lt_succ_of_lt ha) (hu.writeRef (Nat.ne_of_gt ha) outvar),
        Heap.alloc_cells _ ha]
  | emptyRef outvar rest ih =>
      intro env h h1 outs hrun
      obtain ⟨hnext, hcells⟩ := ih hrun
      refine ⟨Nat.le_of_succ_le hnext, fun a ha hu => ?_⟩
      rw [hcells a (Nat.lt_succ_of_lt ha) (hu.writeRef (Nat.ne_of_gt ha) outvar),
        Heap.alloc_cells _ ha]
  | freeze ref outvar rest ih =>
      intro env h h1 outs hrun
      obtain ⟨b, hb, hrun⟩ := bind_ok.mp hrun
      obtain ⟨x, -, hrun⟩ := bind_ok.mp hrun
      obtain ⟨hnext, hcells⟩ := ih hrun
      refine ⟨hnext, fun a ha hu => (hcells a ha hu).trans (Heap.free_cells fun hab => ?_)⟩
      exact hu ref (hab ▸ found_ok.mp hb)
  | freeRef ref rest ih =>
      intro env h h1 outs hrun
      obtain ⟨b, hb, hrun⟩ := bind_ok.mp hrun
      obtain ⟨x, -, hrun⟩ := bind_ok.mp hrun
      obtain ⟨hnext, hcells⟩ := ih hrun
      refine ⟨hnext, fun a ha hu => (hcells a ha hu).trans (Heap.free_cells fun hab => ?_)⟩
      exact hu ref (hab ▸ found_ok.mp hb)
  | closedCall operands outvars consts invars call rest ihcall ih =>
      intro env h h1 outs hrun
      obtain ⟨args, hargs, hrun⟩ := bind_ok.mp hrun
      obtain ⟨inner, hinner, hrun⟩ := bind_ok.mp hrun
      obtain ⟨⟨vs, h2⟩, hcall, hrun⟩ := bind_ok.mp hrun
      obtain ⟨env', henv, hrun⟩ := bind_ok.mp hrun
      obtain ⟨hnext1, hcells1⟩ := ihcall hcall
      obtain ⟨hnext2, hcells2⟩ := ih hrun
      refine ⟨Nat.le_trans hnext1 hnext2, fun a ha hu => ?_⟩
      have hu' : inner.Unbound a := by
        intro r hr
        obtain ⟨-, hmem⟩ := Env.inner_refs hinner hr
        obtain ⟨s, -, hs, -⟩ := mem_readOperands hargs hmem
        exact hu s hs
      rw [hcells2 a (Nat.lt_of_lt_of_le ha hnext1) (hu.of_refs (Env.writeVals_refs henv)),
        hcells1 a ha hu']

/-! ## Two stores -/

/-- Two stores agree on some addresses. -/
def Heap.Agree (A : ℕ → Prop) (h h' : Heap V) : Prop := ∀ a, A a → h'.cells a = h.cells a

theorem Heap.Agree.read {A : ℕ → Prop} {h h' : Heap V} (hagree : h.Agree A h') {a : ℕ} (ha : A a) :
    h'.read a = h.read a := by
  rw [Heap.read, Heap.read, hagree a ha]

theorem Heap.Agree.write {A : ℕ → Prop} {h h' : Heap V} (hagree : h.Agree A h') (a : ℕ) (x : V) :
    (h.write a x).Agree A (h'.write a x) := by
  intro b hb
  by_cases hab : b = a
  · simp [Heap.write, hab]
  · rw [Heap.write_cells x hab, Heap.write_cells x hab, hagree b hb]

theorem Heap.Agree.free {A : ℕ → Prop} {h h' : Heap V} (hagree : h.Agree A h') (a : ℕ) :
    (h.free a).Agree A (h'.free a) := by
  intro b hb
  by_cases hab : b = a
  · simp [Heap.free, hab]
  · rw [Heap.free_cells hab, Heap.free_cells hab, hagree b hb]

/-- The refs of the environment are among some addresses. -/
def Env.Among (A : ℕ → Prop) (env : Env V ℕ) : Prop := ∀ r a, env.refs r = some a → A a

theorem Env.Among.of_refs {A : ℕ → Prop} {env e : Env V ℕ} (h : env.Among A)
    (he : e.refs = env.refs) : e.Among A := by
  intro r a hr
  exact h r a (he ▸ hr)

theorem readOperands_agree {A : ℕ → Prop} {env : Env V ℕ} {h h' : Heap V} (hamong : env.Among A)
    (hagree : h.Agree A h') : ∀ {operands : List (Operand V)} {args : List (Arg V ℕ)},
      readOperands env h operands = .ok args → readOperands env h' operands = .ok args
  | [], _, hread => hread
  | .val b :: operands, args, hread => by
      obtain ⟨x, hx, hread⟩ := bind_ok.mp hread
      obtain ⟨args', hrest, hread⟩ := bind_ok.mp hread
      exact bind_ok.mpr ⟨x, hx, bind_ok.mpr ⟨args', readOperands_agree hamong hagree hrest, hread⟩⟩
  | .ref s :: operands, args, hread => by
      obtain ⟨b, hb, hread⟩ := bind_ok.mp hread
      obtain ⟨x, hx, hread⟩ := bind_ok.mp hread
      obtain ⟨args', hrest, hread⟩ := bind_ok.mp hread
      have hx' : h'.read b = .ok x := (hagree.read (hamong s b (found_ok.mp hb))).trans hx
      exact bind_ok.mpr ⟨b, hb, bind_ok.mpr ⟨x, hx', bind_ok.mpr
        ⟨args', readOperands_agree hamong hagree hrest, hread⟩⟩⟩

/-- Without internal effects a run does the same on a store that agrees on the refs it is given. -/
theorem run_agree {ops : Ops P T V} {A : ℕ → Prop} : ∀ {e : Eqns P T V} {env : Env V ℕ}
    {h h' h1 : Heap V} {outs : List V}, e.internalMutableArrayEffect = false → env.Among A →
      h.Agree A h' → run ops e env h = .ok (outs, h1) →
        ∃ h1', run ops e env h' = .ok (outs, h1') ∧ h1.Agree A h1' := by
  intro e
  induction e with
  | done outvars =>
      intro env h h' h1 outs _ _ hagree hrun
      obtain ⟨xs, hxs, hrun⟩ := bind_ok.mp hrun
      injection hrun with hrun
      obtain ⟨rfl, rfl⟩ := Prod.mk.inj hrun
      exact ⟨h', bind_ok.mpr ⟨xs, hxs, rfl⟩, hagree⟩
  | pure prim invars outvars rest ih =>
      intro env h h' h1 outs he hamong hagree hrun
      obtain ⟨xs, hxs, hrun⟩ := bind_ok.mp hrun
      obtain ⟨env', henv, hrun⟩ := bind_ok.mp hrun
      obtain ⟨h1', hrun', hagree'⟩ := ih he (hamong.of_refs (Env.writeVals_refs henv)) hagree hrun
      exact ⟨h1', bind_ok.mpr ⟨xs, hxs, bind_ok.mpr ⟨env', henv, hrun'⟩⟩, hagree'⟩
  | get ref tree idx outvar rest ih =>
      intro env h h' h1 outs he hamong hagree hrun
      obtain ⟨b, hb, hrun⟩ := bind_ok.mp hrun
      obtain ⟨x, hx, hrun⟩ := bind_ok.mp hrun
      obtain ⟨is, his, hrun⟩ := bind_ok.mp hrun
      obtain ⟨h1', hrun', hagree'⟩ :=
        @ih (env.writeVal outvar (ops.transform_array tree x is)) _ _ _ _ he hamong hagree hrun
      have hx' := (hagree.read (hamong ref b (found_ok.mp hb))).trans hx
      exact ⟨h1', bind_ok.mpr ⟨b, hb, bind_ok.mpr ⟨x, hx', bind_ok.mpr ⟨is, his, hrun'⟩⟩⟩, hagree'⟩
  | swap ref val tree idx outvar rest ih =>
      intro env h h' h1 outs he hamong hagree hrun
      obtain ⟨b, hb, hrun⟩ := bind_ok.mp hrun
      obtain ⟨x, hx, hrun⟩ := bind_ok.mp hrun
      obtain ⟨y, hy, hrun⟩ := bind_ok.mp hrun
      obtain ⟨is, his, hrun⟩ := bind_ok.mp hrun
      obtain ⟨h1', hrun', hagree'⟩ :=
        @ih (env.writeVal outvar (ops.transform_swap_array tree x is y).1) _ _ _ _ he hamong
          (hagree.write b _) hrun
      have hx' := (hagree.read (hamong ref b (found_ok.mp hb))).trans hx
      exact ⟨h1', bind_ok.mpr ⟨b, hb, bind_ok.mpr ⟨x, hx', bind_ok.mpr ⟨y, hy, bind_ok.mpr
        ⟨is, his, hrun'⟩⟩⟩⟩, hagree'⟩
  | addupdate ref val tree idx rest ih =>
      intro env h h' h1 outs he hamong hagree hrun
      obtain ⟨b, hb, hrun⟩ := bind_ok.mp hrun
      obtain ⟨x, hx, hrun⟩ := bind_ok.mp hrun
      obtain ⟨y, hy, hrun⟩ := bind_ok.mp hrun
      obtain ⟨is, his, hrun⟩ := bind_ok.mp hrun
      obtain ⟨h1', hrun', hagree'⟩ := ih he hamong (hagree.write b _) hrun
      have hx' := (hagree.read (hamong ref b (found_ok.mp hb))).trans hx
      exact ⟨h1', bind_ok.mpr ⟨b, hb, bind_ok.mpr ⟨x, hx', bind_ok.mpr ⟨y, hy, bind_ok.mpr
        ⟨is, his, hrun'⟩⟩⟩⟩, hagree'⟩
  | newRef init outvar rest ih => intro env h h' h1 outs he; cases he
  | emptyRef outvar rest ih => intro env h h' h1 outs he; cases he
  | freeze ref outvar rest ih => intro env h h' h1 outs he; cases he
  | freeRef ref rest ih =>
      intro env h h' h1 outs he hamong hagree hrun
      obtain ⟨b, hb, hrun⟩ := bind_ok.mp hrun
      obtain ⟨x, hx, hrun⟩ := bind_ok.mp hrun
      obtain ⟨h1', hrun', hagree'⟩ := ih he hamong (hagree.free b) hrun
      have hx' := (hagree.read (hamong ref b (found_ok.mp hb))).trans hx
      exact ⟨h1', bind_ok.mpr ⟨b, hb, bind_ok.mpr ⟨x, hx', hrun'⟩⟩, hagree'⟩
  | closedCall operands outvars consts invars call rest ihcall ih =>
      intro env h h' h1 outs he hamong hagree hrun
      obtain ⟨hecall, herest⟩ := Bool.or_eq_false_iff.mp he
      obtain ⟨args, hargs, hrun⟩ := bind_ok.mp hrun
      obtain ⟨inner, hinner, hrun⟩ := bind_ok.mp hrun
      obtain ⟨⟨vs, h2⟩, hcall, hrun⟩ := bind_ok.mp hrun
      obtain ⟨env', henv, hrun⟩ := bind_ok.mp hrun
      have hinner' : inner.Among A := by
        intro r a hr
        obtain ⟨-, hmem⟩ := Env.inner_refs hinner hr
        obtain ⟨s, -, hs, -⟩ := mem_readOperands hargs hmem
        exact hamong s a hs
      obtain ⟨h2', hcall', hagree2⟩ := ihcall hecall hinner' hagree hcall
      obtain ⟨h1', hrun', hagree'⟩ :=
        ih herest (hamong.of_refs (Env.writeVals_refs henv)) hagree2 hrun
      exact ⟨h1', bind_ok.mpr ⟨args, readOperands_agree hamong hagree hargs, bind_ok.mpr
        ⟨inner, hinner, bind_ok.mpr ⟨(vs, h2'), hcall', bind_ok.mpr ⟨env', henv, hrun'⟩⟩⟩⟩, hagree'⟩

end JaxDas.StateDischarge
