import JaxDas.PartialEval.DceEval

/-!
# What is left after the elimination

The pruned jaxpr is well scoped, what was kept of the equations stands in its old order, and
an input that is not used is read by nothing that is left.
-/

namespace JaxDas.PartialEval

variable {P K V W : Type} {T : Primitives P K}

/-! ### Scoping -/

theorem RuleResult.arity {eqn eqn' : JaxprEqn P K V} {used ins : List Bool}
    (h : RuleResult T eqn used ins (some eqn')) (har : eqn.Arity) : eqn'.Arity := by
  cases h with
  | kept _ => exact har
  | @pruned how j new invars outvars _ _ _ ins heq hdce hout hinst _ hsettled =>
      subst heq
      obtain ⟨hfits, hin, hnum⟩ := har
      obtain ⟨live, hsteps⟩ := dceJaxpr_steps hdce
      have hlen : ins.length = j.invars.length := hsteps.length hinst
      have hins : (select invars ins).length = new.invars.length := by
        rw [hsteps.invars, length_select (hin.trans hlen.symm), length_select hlen.symm]
      refine ⟨?_, hins, by rw [hsteps.outvars, length_select (hnum.trans hout.symm),
        length_select hout.symm]⟩
      cases how with
      | call => exact hsteps.constvars.trans hfits
      | closedCall consts => exact Eq.trans hfits (by rw [hsteps.constvars])
      | scan consts p =>
          obtain ⟨hconsts, _, _⟩ := hfits
          refine ⟨hconsts.trans (by rw [hsteps.constvars]), ?_, ?_⟩
          · -- the consts and the carry that are left are the start of the inputs that are left
            have hcount : ins.count true = (ins.take p.numConsts).count true +
                (((ins.drop p.numConsts).take p.numCarry).count true +
                  ((ins.drop p.numConsts).drop p.numCarry).count true) := by
              rw [← List.count_append, List.take_append_drop, ← List.count_append,
                List.take_append_drop]
            rw [hsteps.invars, length_select hlen.symm, hcount, ← Nat.add_assoc]
            exact Nat.le_add_right _ _
          · rw [hsteps.outvars, length_select hout.symm, ScanParams.prune, hsettled]
            exact (List.take_sublist p.numCarry _).count_le true

theorem DcePass.scoped {live live₀ : Live} {eqns rest : List (JaxprEqn P K V)}
    (h : DcePass T live eqns live₀ rest) :
    ∀ {bound bound' : List Var}, ScopedEqns bound eqns → bound'.Sublist bound →
    (∀ v ∈ bound, live₀ v = true → v ∈ bound') →
    ScopedEqns bound' rest ∧
      ∀ v ∈ bound ++ bindersOf eqns, live v = true → v ∈ bound' ++ bindersOf rest := by
  induction h with
  | nil =>
      intro bound bound' _ _ hlive
      refine ⟨trivial, fun v hv hl => ?_⟩
      rw [bindersOf, List.flatMap_nil, List.append_nil] at hv ⊢
      exact hlive v hv hl
  | @drop eqn eqns live₁ rest ins hpass hrule ih =>
      intro bound bound' hscoped hsub hlive
      obtain ⟨_, hnd, _, hscoped⟩ := hscoped
      have hout : ∀ v ∈ bound ++ eqn.binders, live₁ v = true → v ∈ bound' := by
        intro v hv hl
        rcases List.mem_append.mp hv with hv | hv
        · exact hlive v hv (Live.writeAll_iff.mpr (.inl hl))
        · exact absurd hl (Bool.eq_false_iff.mp (not_live_of_unused hrule.unused hv))
      have hgo := ih hscoped (hsub.trans (List.sublist_append_left _ _)) hout
      rw [List.append_assoc] at hgo
      exact hgo
  | @keep eqn eqns live₁ rest ins eqn' hpass hrule ih =>
      intro bound bound' hscoped hsub hlive
      obtain ⟨hreads, hnd, har, hscoped⟩ := hscoped
      obtain ⟨used', hbelow, hlen, houtvars⟩ := hrule.outvars har (List.length_map _)
      have hbinders : eqn'.binders.Sublist eqn.binders := by
        unfold JaxprEqn.binders
        rw [houtvars]
        exact (select_sublist _ _).filterMap id
      have hout : ∀ v ∈ bound ++ eqn.binders, live₁ v = true → v ∈ bound' ++ eqn'.binders := by
        intro v hv hl
        rcases List.mem_append.mp hv with hv | hv
        · exact List.mem_append_left _ (hlive v hv (Live.writeAll_iff.mpr (.inl hl)))
        · refine List.mem_append_right _ (JaxprEqn.mem_binders.mpr ?_)
          rw [houtvars]
          exact mem_select_of_forall (JaxprEqn.mem_binders.mp hv) hlen
            fun b hm => live_of_mem_zip hbelow hm hl
      obtain ⟨hrest, hafter⟩ := ih hscoped (hsub.append hbinders) hout
      refine ⟨⟨?_, (hsub.append hbinders).nodup hnd, hrule.arity har, hrest⟩, ?_⟩
      · intro v hv
        rw [hrule.invars, mem_varsOf] at hv
        exact hlive v (hreads v (mem_varsOf.mpr (mem_of_mem_select hv)))
          (Live.writeAll_iff.mpr (.inr hv))
      · simp only [bindersOf, List.flatMap_cons, ← List.append_assoc]
        exact hafter

theorem scoped_dceJaxpr : ∀ {j : Jaxpr P K V}, j.Scoped →
    ∀ {used inst : List Bool} {new : Jaxpr P K V} {ins : List Bool},
    used.length = j.outvars.length → inst.length = j.invars.length →
    dceJaxpr T j used inst = .ok (new, ins) → new.Scoped := by
  intro j
  induction j using Jaxpr.nesting with
  | step j ih =>
      intro hscoped used inst new ins hout hinst hdce
      obtain ⟨live, hsteps⟩ := dceJaxpr_steps hdce
      obtain ⟨hnd, heqns, houts⟩ := hscoped.here
      have hpass := dceEqns_pass heqns.arity hsteps.eqns
      have hlen : ins.length = j.invars.length := hsteps.length hinst
      have hlive : ∀ v ∈ j.constvars ++ j.invars, live v = true →
          v ∈ j.constvars ++ select j.invars ins := by
        intro v hv hl
        rcases List.mem_append.mp hv with hv | hv
        · exact List.mem_append_left _ hv
        · exact List.mem_append_right _
            (mem_select_of_forall hv hlen fun b hm => hsteps.used_of_live hm hl)
      have hsub := (List.Sublist.refl j.constvars).append (select_sublist j.invars ins)
      obtain ⟨hrest, hafter⟩ := hpass.scoped heqns hsub hlive
      refine Jaxpr.every_iff.mpr ⟨⟨?_, ?_, ?_⟩, ?_⟩
      · rw [hsteps.constvars, hsteps.invars]
        exact hsub.nodup hnd
      · rw [hsteps.constvars, hsteps.invars]
        exact hrest
      · intro v hv
        rw [hsteps.outvars, mem_varsOf] at hv
        rw [hsteps.constvars, hsteps.invars]
        exact hafter v (houts v (mem_varsOf.mpr (mem_of_mem_select hv)))
          (Live.writeAll_iff.mpr (.inr hv))
      · intro eqn' hm b hb
        obtain ⟨eqn, he, used, ins, hrule⟩ := hpass.of_mem hm
        cases hrule with
        | kept hprim =>
            rw [hprim] at hb
            injection hb
        | @pruned how c new _ _ _ _ _ _ heq hd hu hi _ _ =>
            injection hb with hb
            subst heq
            exact hb ▸ ih _ he c rfl (hscoped.sub he rfl) hu hi hd

/-! ### What is kept -/

/-- What is left of an equation that is kept: the equation itself, or the equation with what
`dce_jaxpr` leaves of its jaxpr. -/
def LeftOf (T : Primitives P K) (eqn eqn' : JaxprEqn P K V) : Prop :=
  eqn' = eqn ∨ ∃ how j invars outvars effects used inst new ins,
    eqn = .sub how j invars outvars effects ∧ dceJaxpr T j used inst = .ok (new, ins) ∧
      eqn' = .sub (how.prune ins) new (select invars ins) (select outvars used)
        (how.effectsOf new)

/-- Nothing is left of a `core.call` whose outputs are not used: its pruned jaxpr uses none
of its inputs and has no effects. -/
def NothingLeft (T : Primitives P K) (eqn : JaxprEqn P K V) : Prop :=
  ∃ j invars outvars effects used inst new ins,
    eqn = .sub .call j invars outvars effects ∧ dceJaxpr T j used inst = .ok (new, ins) ∧
      used.any id = false ∧ ins.any id = false ∧ new.effects = []

/-- The equations `eqns'` are what is kept of `eqns`, in the same order. -/
inductive KeptEqns (T : Primitives P K) :
    List (JaxprEqn P K V) → List (JaxprEqn P K V) → Prop
  | nil : KeptEqns T [] []
  | dropped {eqn eqns eqns'} : hasEffects T eqn = false → KeptEqns T eqns eqns' →
      KeptEqns T (eqn :: eqns) eqns'
  | emptied {eqn eqns eqns'} : NothingLeft T eqn → KeptEqns T eqns eqns' →
      KeptEqns T (eqn :: eqns) eqns'
  | kept {eqn eqn' eqns eqns'} : LeftOf T eqn eqn' → KeptEqns T eqns eqns' →
      KeptEqns T (eqn :: eqns) (eqn' :: eqns')

theorem DcePass.kept {live live₀ : Live} {eqns rest : List (JaxprEqn P K V)}
    (h : DcePass T live eqns live₀ rest) : KeptEqns T eqns rest := by
  induction h with
  | nil => exact .nil
  | @drop eqn _ live₁ _ ins _ hrule ih =>
      cases hrule with
      | dropped _ hno => exact .dropped hno ih
      | emptied heq hdce _ _ hunused hins hnil =>
          exact .emptied ⟨_, _, _, _, _, _, _, _, heq, hdce, hunused, hins, hnil⟩ ih
  | keep _ hrule ih =>
      cases hrule with
      | kept _ => exact .kept (.inl rfl) ih
      | pruned heq hdce _ _ _ _ =>
          exact .kept (.inr ⟨_, _, _, _, _, _, _, _, _, heq, hdce, rfl⟩) ih

/-! ### The inputs that are not used -/

theorem DceSteps.not_live {j new : Jaxpr P K V} {used inst ins : List Bool} {live : Live}
    (h : DceSteps T j used inst new ins live) {v : Var} (hm : (v, false) ∈ j.invars.zip ins) :
    live v = false :=
  Bool.eq_false_iff.mpr fun hv => Bool.false_ne_true (h.used_of_live hm hv)

/-- Nothing that is left reads an input that is not used. -/
theorem DceSteps.not_read {j new : Jaxpr P K V} {used inst ins : List Bool} {live : Live}
    (h : DceSteps T j used inst new ins live) (har : ∀ eqn ∈ j.eqns, eqn.Arity) {v : Var}
    (hm : (v, false) ∈ j.invars.zip ins) :
    (∀ eqn ∈ new.eqns, .var v ∉ eqn.invars) ∧ .var v ∉ new.outvars := by
  have hdead := Bool.eq_false_iff.mp (h.not_live hm)
  have hpass := dceEqns_pass har h.eqns
  refine ⟨fun eqn he hv => hdead (hpass.live_of_read he hv), fun hv => ?_⟩
  rw [h.outvars] at hv
  exact hdead (hpass.live_mono (Live.writeAll_iff.mpr (.inr hv)))

end JaxDas.PartialEval
