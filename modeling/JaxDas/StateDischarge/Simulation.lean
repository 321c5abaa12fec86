import JaxDas.StateDischarge.Frame

/-!
# Discharging preserves meaning

The environment of the interpreter holds the contents of the discharged refs, its store agrees with
the mutable one on the others, and every equation keeps that.
-/

namespace JaxDas.StateDischarge

variable {P T V : Type}

/-- The interpreter stands where the run on a mutable store does. `others` are the addresses that the
interpreter leaves to its own store. -/
structure Simulates (others : ℕ → Prop) (discharged : List RefVar) (env : Env V ℕ) (h : Heap V)
    (env' : Env V (Held V)) (h' : Heap V) : Prop where
  vals : env'.vals = env.vals
  distinct : ∀ r s a, env.refs r = some a → env.refs s = some a → r = s
  created : ∀ r a, env.refs r = some a → a < h.next
  /-- a discharged ref stands for what it contains -/
  contents : ∀ r ∈ discharged, ∃ a x, env.refs r = some a ∧ h.cells a = some x ∧
    env'.refs r = some (.contents x) ∧ ¬ others a
  /-- any other ref that is alive stands for itself -/
  passed : ∀ r a, env.refs r = some a → r ∉ discharged → h.cells a ≠ none →
    env'.refs r = some (.ref a) ∧ others a
  below : ∀ a, others a → a < h.next
  agree : h.Agree others h'

namespace Simulates

variable {others : ℕ → Prop} {discharged : List RefVar} {env : Env V ℕ} {h : Heap V}
  {env' : Env V (Held V)} {h' : Heap V}

/-! ## Reading -/

theorem readRef_discharged (hsim : Simulates others discharged env h env' h') {r : RefVar} {a : ℕ}
    {x : V} (hr : r ∈ discharged) (ha : env.readRef r = .ok a) (hx : h.read a = .ok x) :
    env'.readRef r = .ok (.contents x) ∧ ¬ others a := by
  obtain ⟨b, y, hb, hy, hheld, hothers⟩ := hsim.contents r hr
  have hab : a = b := by
    rw [found_ok.mp ha] at hb
    exact Option.some.inj hb
  subst hab
  have hxy : x = y := by
    rw [found_ok.mp hx] at hy
    exact Option.some.inj hy
  subst hxy
  exact ⟨found_ok.mpr hheld, hothers⟩

theorem readRef_passed (hsim : Simulates others discharged env h env' h') {r : RefVar} {a : ℕ}
    {x : V} (hr : r ∉ discharged) (ha : env.readRef r = .ok a) (hx : h.read a = .ok x) :
    env'.readRef r = .ok (.ref a) ∧ others a ∧ h'.read a = .ok x := by
  have hcell : h.cells a = some x := found_ok.mp hx
  obtain ⟨hheld, hothers⟩ := hsim.passed r a (found_ok.mp ha) hr (by rw [hcell]; simp)
  exact ⟨found_ok.mpr hheld, hothers, (hsim.agree.read hothers).trans hx⟩

/-! ## Writing values -/

/-- Values are written on both sides alike. -/
theorem of_vals (hsim : Simulates others discharged env h env' h') {e : Env V ℕ}
    {e' : Env V (Held V)} (hvals : e'.vals = e.vals) (hrefs : e.refs = env.refs)
    (hrefs' : e'.refs = env'.refs) : Simulates others discharged e h e' h' where
  vals := hvals
  distinct := by
    intro r s a hr hs
    rw [hrefs] at hr hs
    exact hsim.distinct r s a hr hs
  created := by
    intro r a hr
    rw [hrefs] at hr
    exact hsim.created r a hr
  contents := by
    intro r hr
    rw [hrefs, hrefs']
    exact hsim.contents r hr
  passed := by
    intro r a hr hnot halive
    rw [hrefs] at hr
    rw [hrefs']
    exact hsim.passed r a hr hnot halive
  below := hsim.below
  agree := hsim.agree

theorem writeVal (hsim : Simulates others discharged env h env' h') (v : ℕ) (x : V) :
    Simulates others discharged (env.writeVal v x) h (env'.writeVal v x) h' := by
  refine hsim.of_vals ?_ rfl rfl
  simp only [Env.writeVal, hsim.vals]

theorem writeVals (hsim : Simulates others discharged env h env' h') {vs : List ℕ} {xs : List V}
    {e : Env V ℕ} (he : env.writeVals vs xs = .ok e) :
    ∃ e', env'.writeVals vs xs = .ok e' ∧ Simulates others discharged e h e' h' := by
  obtain ⟨hrefs, e', he', hvals, hrefs'⟩ := Env.writeVals_ok hsim.vals he
  exact ⟨e', he', hsim.of_vals hvals.symm.symm hrefs hrefs'⟩

/-! ## Writing refs -/

/-- A discharged ref is written in the environment only. -/
theorem write_discharged (hsim : Simulates others discharged env h env' h') {r : RefVar} {a : ℕ}
    (hr : r ∈ discharged) (ha : env.refs r = some a) (hothers : ¬ others a) (x : V) :
    Simulates others discharged env (h.write a x) (env'.writeRef r (.contents x)) h' where
  vals := hsim.vals
  distinct := hsim.distinct
  created := hsim.created
  contents := by
    intro s hs
    by_cases hsr : s = r
    · subst hsr
      exact ⟨a, x, ha, by simp [Heap.write], by simp [Env.writeRef], hothers⟩
    · obtain ⟨b, y, hb, hy, hheld, hb'⟩ := hsim.contents s hs
      have hab : b ≠ a := fun hab => hsr (hsim.distinct s r a (hab ▸ hb) ha)
      exact ⟨b, y, hb, by rw [Heap.write_cells x hab, hy], by simp [Env.writeRef, hsr, hheld], hb'⟩
  passed := by
    intro s b hb hs halive
    have hsr : s ≠ r := fun hsr => hs (hsr ▸ hr)
    have hab : b ≠ a := fun hab => hsr (hsim.distinct s r a (hab ▸ hb) ha)
    rw [Heap.write_cells x hab] at halive
    obtain ⟨hheld, hb'⟩ := hsim.passed s b hb hs halive
    exact ⟨by simp [Env.writeRef, hsr, hheld], hb'⟩
  below := hsim.below
  agree := by
    intro b hb
    have hab : b ≠ a := fun hab => hothers (hab ▸ hb)
    rw [hsim.agree b hb, Heap.write_cells x hab]

/-- Any other ref is written in both stores. -/
theorem write_passed (hsim : Simulates others discharged env h env' h') {r : RefVar} {a : ℕ} {y : V}
    (hr : r ∉ discharged) (ha : env.refs r = some a) (hy : h.cells a = some y) (x : V) :
    Simulates others discharged env (h.write a x) env' (h'.write a x) where
  vals := hsim.vals
  distinct := hsim.distinct
  created := hsim.created
  contents := by
    intro s hs
    obtain ⟨b, z, hb, hz, hheld, hb'⟩ := hsim.contents s hs
    have hab : b ≠ a := fun hab => hr (hsim.distinct s r a (hab ▸ hb) ha ▸ hs)
    exact ⟨b, z, hb, by rw [Heap.write_cells x hab, hz], hheld, hb'⟩
  passed := by
    intro s b hb hs halive
    by_cases hab : b = a
    · subst hab
      exact hsim.passed s b hb hs (by rw [hy]; simp)
    · rw [Heap.write_cells x hab] at halive
      exact hsim.passed s b hb hs halive
  below := hsim.below
  agree := hsim.agree.write a x

/-! ## Refs that come and go -/

theorem of_mem (hsim : Simulates others discharged env h env' h') {refs : List RefVar}
    (hrefs : ∀ r, r ∈ refs ↔ r ∈ discharged) : Simulates others refs env h env' h' where
  vals := hsim.vals
  distinct := hsim.distinct
  created := hsim.created
  contents := fun r hr => hsim.contents r ((hrefs r).mp hr)
  passed := fun r a ha hr => hsim.passed r a ha fun hd => hr ((hrefs r).mpr hd)
  below := hsim.below
  agree := hsim.agree

/-- A ref variable is bound to an address of no other one. -/
theorem bind (hsim : Simulates others discharged env h env' h') {r : RefVar} {a : ℕ}
    (held : Held V) (refs : List RefVar) (hnew : ∀ s, env.refs s ≠ some a)
    (hnext : a < h.next) (hrefs : ∀ s, s ≠ r → (s ∈ refs ↔ s ∈ discharged))
    (hin : r ∈ refs → ∃ x, h.cells a = some x ∧ held = .contents x ∧ ¬ others a)
    (hout : r ∉ refs → held = .ref a ∧ others a) :
    Simulates others refs (env.writeRef r a) h (env'.writeRef r held) h' := by
  have hself : (env.writeRef r a).refs r = some a := by simp [Env.writeRef]
  have hself' : (env'.writeRef r held).refs r = some held := by simp [Env.writeRef]
  have hother : ∀ {s}, s ≠ r → (env.writeRef r a).refs s = env.refs s := by
    intro s hs
    simp [Env.writeRef, hs]
  have hother' : ∀ {s}, s ≠ r → (env'.writeRef r held).refs s = env'.refs s := by
    intro s hs
    simp [Env.writeRef, hs]
  refine ⟨hsim.vals, ?_, ?_, ?_, ?_, hsim.below, hsim.agree⟩
  · intro s t b hs ht
    by_cases hsr : s = r
    · subst hsr
      by_cases hts : t = s
      · exact hts.symm
      · rw [hother hts] at ht
        rw [hself] at hs
        exact absurd (hs ▸ ht) (hnew t)
    · rw [hother hsr] at hs
      by_cases htr : t = r
      · subst htr
        rw [hself] at ht
        exact absurd (ht ▸ hs) (hnew s)
      · rw [hother htr] at ht
        exact hsim.distinct s t b hs ht
  · intro s b hs
    by_cases hsr : s = r
    · subst hsr
      rw [hself] at hs
      exact Option.some.inj hs ▸ hnext
    · rw [hother hsr] at hs
      exact hsim.created s b hs
  · intro s hs
    by_cases hsr : s = r
    · subst hsr
      obtain ⟨x, hx, rfl, ha⟩ := hin hs
      exact ⟨a, x, hself, hx, hself', ha⟩
    · rw [hother hsr, hother' hsr]
      exact hsim.contents s ((hrefs s hsr).mp hs)
  · intro s b hb hs halive
    by_cases hsr : s = r
    · subst hsr
      obtain ⟨rfl, ha⟩ := hout hs
      rw [hself] at hb
      cases hb
      exact ⟨hself', ha⟩
    · rw [hother hsr] at hb
      rw [hother' hsr]
      exact hsim.passed s b hb (fun hd => hs ((hrefs s hsr).mpr hd)) halive

/-- The mutable store grows. -/
theorem grow (hsim : Simulates others discharged env h env' h') (x : V) :
    Simulates others discharged env (h.alloc x) env' h' where
  vals := hsim.vals
  distinct := hsim.distinct
  created := fun r a ha => Nat.lt_succ_of_lt (hsim.created r a ha)
  contents := by
    intro r hr
    obtain ⟨a, y, ha, hy, hheld, hothers⟩ := hsim.contents r hr
    exact ⟨a, y, ha, by rw [Heap.alloc_cells x (hsim.created r a ha), hy], hheld, hothers⟩
  passed := by
    intro r a ha hr halive
    rw [Heap.alloc_cells x (hsim.created r a ha)] at halive
    exact hsim.passed r a ha hr halive
  below := fun a ha => Nat.lt_succ_of_lt (hsim.below a ha)
  agree := by
    intro a ha
    rw [hsim.agree a ha, Heap.alloc_cells x (hsim.below a ha)]

/-- A ref that is created is discharged. -/
theorem alloc (hsim : Simulates others discharged env h env' h') (r : RefVar) (x : V) :
    Simulates others (r :: discharged) (env.writeRef r h.next) (h.alloc x)
      (env'.writeRef r (.contents x)) h' := by
  refine (hsim.grow x).bind _ _ ?_ (Nat.lt_succ_self _) ?_ ?_ ?_
  · exact fun s hs => Nat.lt_irrefl _ (hsim.created s _ hs)
  · intro s hs
    simp [hs]
  · intro _
    exact ⟨x, by simp [Heap.alloc], rfl, fun hothers => Nat.lt_irrefl _ (hsim.below _ hothers)⟩
  · exact fun hr => absurd List.mem_cons_self hr

/-- A discharged ref that is frozen or freed is not discharged any more. -/
theorem free (hsim : Simulates others discharged env h env' h') {r : RefVar} {a : ℕ}
    (ha : env.refs r = some a) (hothers : ¬ others a) :
    Simulates others (discharged.filter (· ≠ r)) env (h.free a) env' h' where
  vals := hsim.vals
  distinct := hsim.distinct
  created := hsim.created
  contents := by
    intro s hs
    obtain ⟨hs, hsr⟩ := List.mem_filter.mp hs
    have hsr : s ≠ r := by simpa using hsr
    obtain ⟨b, y, hb, hy, hheld, hb'⟩ := hsim.contents s hs
    have hab : b ≠ a := fun hab => hsr (hsim.distinct s r a (hab ▸ hb) ha)
    exact ⟨b, y, hb, by rw [Heap.free_cells hab, hy], hheld, hb'⟩
  passed := by
    intro s b hb hs halive
    have hab : b ≠ a := by
      intro hab
      subst hab
      exact halive (by simp [Heap.free])
    rw [Heap.free_cells hab] at halive
    have hsr : s ≠ r := fun hsr => hab (Option.some.inj ((hsr ▸ hb).symm.trans ha))
    refine hsim.passed s b hb (fun hmem => hs ?_) halive
    exact List.mem_filter.mpr ⟨hmem, by simpa using hsr⟩
  below := hsim.below
  agree := by
    intro b hb
    have hab : b ≠ a := fun hab => hothers (hab ▸ hb)
    rw [hsim.agree b hb, Heap.free_cells hab]

end Simulates

/-! ## What is passed -/

variable {R : Type}

/-- The refs among arguments. -/
def refArgs : List (Arg V R) → List R
  | [] => []
  | .val _ :: args => refArgs args
  | .ref r :: args => r :: refArgs args

/-- What the interpreter is passed for an argument. -/
inductive Stands (others : ℕ → Prop) (h : Heap V) : Arg V ℕ → Arg V (Held V) → Prop
  | val (x : V) : Stands others h (.val x) (.val x)
  | contents {a : ℕ} {x : V} (hx : h.cells a = some x) (ha : ¬ others a) :
      Stands others h (.ref a) (.ref (.contents x))
  | ref {a : ℕ} (ha : others a) : Stands others h (.ref a) (.ref (.ref a))

/-- The ref variables that are passed contents. -/
def contentVars : List Var → List (Arg V (Held V)) → List RefVar
  | .ref r :: vars, .ref (.contents _) :: args => r :: contentVars vars args
  | _ :: vars, _ :: args => contentVars vars args
  | _, _ => []

theorem contentVars_subset : ∀ {vars : List Var} {args : List (Arg V (Held V))} {r : RefVar},
    r ∈ contentVars vars args → r ∈ refVars vars
  | .ref s :: vars, .ref (.contents _) :: args, r, hr => by
      rcases List.mem_cons.mp hr with rfl | hr
      · exact List.mem_cons_self
      · exact List.mem_cons_of_mem _ (contentVars_subset hr)
  | .ref s :: vars, .ref (.ref _) :: args, r, hr =>
      List.mem_cons_of_mem _ (@contentVars_subset vars args r hr)
  | .ref s :: vars, .val _ :: args, r, hr =>
      List.mem_cons_of_mem _ (@contentVars_subset vars args r hr)
  | .val _ :: vars, _ :: args, r, hr => @contentVars_subset vars args r hr
  | [], _, r, hr => nomatch hr
  | .val _ :: _, [], r, hr => nomatch hr
  | .ref _ :: _, [], r, hr => nomatch hr

namespace Simulates

variable {others : ℕ → Prop} {h h' : Heap V}

theorem empty (hbelow : ∀ a, others a → a < h.next) (hagree : h.Agree others h')
    (consts : List (ℕ × V)) :
    Simulates others [] (Env.empty.writeConsts consts) h (Env.empty.writeConsts consts) h' := by
  have hnone : ∀ r, (Env.empty.writeConsts consts : Env V ℕ).refs r = none := by
    intro r
    rw [Env.writeConsts_refs]
    rfl
  refine ⟨Env.writeConsts_vals consts rfl, ?_, ?_, ?_, ?_, hbelow, hagree⟩
  · intro r s a hr
    rw [hnone] at hr
    cases hr
  · intro r a hr
    rw [hnone] at hr
    cases hr
  · exact fun r hr => nomatch hr
  · intro r a hr
    rw [hnone] at hr
    cases hr

/-- Binding the inputs. -/
theorem writeArgs : ∀ {vars : List Var} {args : List (Arg V ℕ)} {args' : List (Arg V (Held V))}
    {discharged : List RefVar} {env e : Env V ℕ} {env' : Env V (Held V)},
    Simulates others discharged env h env' h' → (refVars vars).Nodup →
      (∀ r ∈ refVars vars, r ∉ discharged) → (refArgs args).Nodup →
      (∀ a ∈ refArgs args, a < h.next ∧ ∀ r, env.refs r ≠ some a) →
      List.Forall₂ (Stands others h) args args' → env.writeArgs vars args = .ok e →
        ∃ e' refs, env'.writeArgs vars args' = .ok e' ∧ Simulates others refs e h e' h' ∧
          ∀ r, r ∈ refs ↔ r ∈ discharged ∨ r ∈ contentVars vars args'
  | [], [], _, discharged, env, e, env', hsim, _, _, _, _, .nil, he => by
      injection he with he
      subst he
      exact ⟨env', discharged, rfl, hsim, by simp [contentVars]⟩
  | .val v :: vars, .val x :: args, _, discharged, env, e, env', hsim, hvars, hfresh, hargs, hnew,
      .cons (.val _) hstands, he =>
      @writeArgs vars args _ discharged (env.writeVal v x) e (env'.writeVal v x)
        (hsim.writeVal v x) hvars hfresh hargs hnew hstands he
  | .ref v :: vars, .ref a :: args, held :: args', discharged, env, e, env', hsim, hvars, hfresh,
      hargs, hnew, .cons hstand hstands, he => by
      obtain ⟨hv, hvars⟩ := List.nodup_cons.mp hvars
      obtain ⟨ha, hargs⟩ := List.nodup_cons.mp hargs
      obtain ⟨hnext, hfree⟩ := hnew a List.mem_cons_self
      have hfresh' : ∀ r ∈ refVars vars, r ∉ discharged :=
        fun r hr => hfresh r (List.mem_cons_of_mem _ hr)
      have hnew' : ∀ b ∈ refArgs args, b < h.next ∧ ∀ r, (env.writeRef v a).refs r ≠ some b := by
        intro b hb
        obtain ⟨hbn, hbf⟩ := hnew b (List.mem_cons_of_mem _ hb)
        refine ⟨hbn, fun r hr => ?_⟩
        by_cases hrv : r = v
        · subst hrv
          have hab : a = b := by simpa [Env.writeRef] using hr
          exact ha (hab ▸ hb)
        · exact hbf r (by simpa [Env.writeRef, hrv] using hr)
      cases hstand with
      | @contents _ x hx hothers =>
          have hbind := hsim.bind (.contents x) (v :: discharged) hfree hnext
            (by intro s hs; simp [hs]) (fun _ => ⟨x, hx, rfl, hothers⟩)
            (fun hr => absurd List.mem_cons_self hr)
          obtain ⟨e', refs, he', hsim', hrefs⟩ := writeArgs hbind hvars
            (fun r hr => List.not_mem_cons_of_ne_of_not_mem (fun hrv => hv (hrv ▸ hr)) (hfresh' r hr))
            hargs hnew' hstands he
          refine ⟨e', refs, he', hsim', fun r => ?_⟩
          rw [hrefs, contentVars, List.mem_cons, List.mem_cons]
          tauto
      | ref hothers =>
          have hbind := hsim.bind (.ref a) discharged hfree hnext
            (fun s _ => Iff.rfl)
            (fun hr => absurd hr (hfresh v List.mem_cons_self)) (fun _ => ⟨rfl, hothers⟩)
          obtain ⟨e', refs, he', hsim', hrefs⟩ := writeArgs hbind hvars hfresh' hargs hnew' hstands he
          exact ⟨e', refs, he', hsim', hrefs⟩
  | .val _ :: _, .ref _ :: _, _, _, _, _, _, _, _, _, _, _, _, he => nomatch he
  | .ref _ :: _, .val _ :: _, _, _, _, _, _, _, _, _, _, _, _, he => nomatch he
  | .val _ :: _, [], _, _, _, _, _, _, _, _, _, _, _, he => nomatch he
  | .ref _ :: _, [], _, _, _, _, _, _, _, _, _, _, _, he => nomatch he
  | [], _ :: _, _, _, _, _, _, _, _, _, _, _, _, he => nomatch he

end Simulates

end JaxDas.StateDischarge
