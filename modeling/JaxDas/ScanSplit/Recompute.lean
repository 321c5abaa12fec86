import JaxDas.Loops.Depends
import JaxDas.ScanSplit.Rule

/-!
# A partial evaluator that saves nothing

Under a policy that saves nothing the staged part of a jaxpr is the jaxpr: it computes everything
again, and there are no residuals. What is hoisted out of a loop are the known inputs themselves.
-/

namespace JaxDas.ScanSplit

variable {α : Type} [Inhabited α]

/-- The known inputs, with something else for the others. -/
def withKnown (avals : List (List ℕ)) (unknowns : List Bool) (known : List (NdArray α)) :
    List (NdArray α) :=
  mergeLists unknowns known ((select avals unknowns).map fun aval => .fill aval default)

theorem withKnown_shapes {avals : List (List ℕ)} {unknowns : List Bool} {known : List (NdArray α)}
    (hlen : unknowns.length = avals.length)
    (h : known.map NdArray.shape = reject avals unknowns) :
    (withKnown avals unknowns known).map NdArray.shape = avals := by
  have hfill : ((select avals unknowns).map fun aval => NdArray.fill aval (default : α)).map
      NdArray.shape = select avals unknowns := by
    rw [List.map_map]
    exact List.map_id _
  rw [withKnown, mergeLists_map, h, hfill, mergeLists_partition hlen.symm]

/-- Inputs with one known part are the same at the positions that are known. -/
theorem mergeLists_agree {β : Type} : ∀ {bs : List Bool} {l m : List β}, l.length = bs.length →
    m.length = bs.length → ∀ k : ℕ, bs[k]? = some false →
      (mergeLists bs (reject l bs) (select m bs))[k]? = l[k]?
  | [], [], [], _, _, _, _ => rfl
  | true :: bs, x :: l, y :: m, hl, hm, 0, hk => by simp at hk
  | true :: bs, x :: l, y :: m, hl, hm, k + 1, hk =>
      @mergeLists_agree _ bs l m (by simpa using hl) (by simpa using hm) k hk
  | false :: bs, x :: l, y :: m, hl, hm, 0, hk => rfl
  | false :: bs, x :: l, y :: m, hl, hm, k + 1, hk =>
      @mergeLists_agree _ bs l m (by simpa using hl) (by simpa using hm) k hk

/-- Lists that agree where the mask does not mark. -/
theorem reject_congr {β : Type} : ∀ {bs : List Bool} {l m : List β}, l.length = bs.length →
    m.length = bs.length → (∀ k : ℕ, bs[k]? = some false → l[k]? = m[k]?) → reject l bs = reject m bs
  | [], [], [], _, _, _ => rfl
  | b :: bs, x :: l, y :: m, hl, hm, h => by
      have htail := reject_congr (by simpa using hl) (by simpa using hm) fun k hk => h (k + 1) hk
      cases b with
      | true => exact htail
      | false =>
          obtain rfl : x = y := by simpa using h 0 rfl
          rw [reject_cons_false, reject_cons_false, htail]

/-- The known outputs, from the known inputs. -/
def knownOutputs (jaxpr : ClosedJaxpr α) (unknowns unks_out : List Bool)
    (known : List (NdArray α)) : List (NdArray α) :=
  let args := withKnown jaxpr.in_avals unknowns known
  if args.map NdArray.shape = jaxpr.in_avals then reject (jaxpr.eval args) unks_out
  else (reject jaxpr.out_avals unks_out).map fun aval => .fill aval default

theorem knownOutputs_shapes (jaxpr : ClosedJaxpr α) (unknowns unks_out : List Bool)
    (known : List (NdArray α)) : (knownOutputs jaxpr unknowns unks_out known).map NdArray.shape =
      reject jaxpr.out_avals unks_out := by
  simp only [knownOutputs]
  split
  · rw [← reject_map, jaxpr.typed _ ‹_›]
  · rw [List.map_map]
    exact List.map_id _

/-- They are the outputs that do not depend on the other inputs. -/
theorem knownOutputs_eq {jaxpr : ClosedJaxpr α} {unknowns unks_out : List Bool}
    {args : List (NdArray α)} (hlen : unknowns.length = jaxpr.in_avals.length)
    (hargs : args.map NdArray.shape = jaxpr.in_avals)
    (hout : Below (dependents jaxpr unknowns) unks_out) :
    knownOutputs jaxpr unknowns unks_out (reject args unknowns) = reject (jaxpr.eval args) unks_out := by
  have hshapes : (withKnown jaxpr.in_avals unknowns (reject args unknowns)).map NdArray.shape =
      jaxpr.in_avals := withKnown_shapes hlen (by rw [← reject_map, hargs])
  have hlength : ∀ {xs : List (NdArray α)}, xs.map NdArray.shape = jaxpr.in_avals →
      (jaxpr.eval xs).length = unks_out.length := by
    intro xs hxs
    rw [← hout.length_eq, length_dependents, ← jaxpr.typed xs hxs, List.length_map]
  have halen : args.length = unknowns.length := by rw [hlen, ← hargs, List.length_map]
  rw [knownOutputs, if_pos hshapes]
  refine reject_congr (hlength hshapes) (hlength hargs) fun i hi => ?_
  by_contra hne
  have hdepends : Depends jaxpr unknowns i := by
    refine ⟨_, _, hshapes, hargs, fun k hk => ?_, hne⟩
    rw [withKnown, ← select_map]
    exact mergeLists_agree halen (by rw [List.length_map, hlen]) k hk
  obtain ⟨hilt, hiout⟩ := List.getElem?_eq_some_iff.mp hi
  have hplace := List.Forall₂.get hout (i := i) (by rw [hout.length_eq]; exact hilt) hilt
  rw [List.get_eq_getElem, List.get_eq_getElem, hiout] at hplace
  exact absurd (hplace (by simpa [dependents] using hdepends)) (by simp)

/-- The partial evaluator that saves nothing. -/
noncomputable def recompute : PartialEvaluator α where
  custom := fun jaxpr in_unknowns ensure =>
    let unks_out := List.zipWith (· || ·) ensure (dependents jaxpr in_unknowns)
    { jaxpr_known :=
        { in_avals := reject jaxpr.in_avals in_unknowns
          out_avals := reject jaxpr.out_avals unks_out
          eval := knownOutputs jaxpr in_unknowns unks_out
          typed := fun args _ => knownOutputs_shapes jaxpr in_unknowns unks_out args }
      jaxpr_staged := jaxpr
      unks_out := unks_out
      inst_out := List.replicate jaxpr.out_avals.length true
      num_res := 0 }
  nounits := fun jaxpr unknowns instantiate =>
    let out_unknowns := List.zipWith (· || ·) instantiate (dependents jaxpr unknowns)
    let known_avals := reject jaxpr.in_avals unknowns
    { jaxpr_known :=
        { in_avals := known_avals
          out_avals := reject jaxpr.out_avals out_unknowns ++ known_avals
          eval := fun known => knownOutputs jaxpr unknowns out_unknowns known ++ known
          typed := fun known h => by rw [List.map_append, knownOutputs_shapes, h] }
      jaxpr_unknown :=
        { in_avals := known_avals ++ select jaxpr.in_avals unknowns
          out_avals := select jaxpr.out_avals out_unknowns
          eval := fun args =>
            let merged := mergeLists unknowns (args.take known_avals.length)
              (args.drop known_avals.length)
            if merged.map NdArray.shape = jaxpr.in_avals then
              select (jaxpr.eval merged) out_unknowns
            else (select jaxpr.out_avals out_unknowns).map fun aval => .fill aval default
          typed := fun args _ => by
            simp only
            split
            · rw [← select_map, jaxpr.typed _ ‹_›]
            · rw [List.map_map]
              exact List.map_id _ }
      out_unknowns := out_unknowns }

theorem recompute_lawful : (recompute : PartialEvaluator α).Lawful where
  custom := by
    intro jaxpr in_unknowns ensure hin hensure
    have hlen : ensure.length = (dependents jaxpr in_unknowns).length := by
      rw [hensure, length_dependents]
    have hbelow : Below (dependents jaxpr in_unknowns)
        (List.zipWith (· || ·) ensure (dependents jaxpr in_unknowns)) := by
      rw [List.zipWith_comm_of_comm fun a b => Bool.or_comm a b]
      exact below_zipWith_or_left hlen.symm
    refine ⟨[], rfl, ?_, below_zipWith_or_left hlen, rfl, rfl, (List.append_nil _).symm, rfl, rfl, ?_⟩
    · exact hbelow.length_eq.symm.trans (length_dependents _ _)
    · intro args hargs
      refine ⟨[], ?_, rfl⟩
      rw [List.append_nil]
      exact knownOutputs_eq hin hargs hbelow
  nounits := by
    intro jaxpr unknowns instantiate hin hinst
    have hlen : instantiate.length = (dependents jaxpr unknowns).length := by
      rw [hinst, length_dependents]
    have hbelow : Below (dependents jaxpr unknowns)
        (List.zipWith (· || ·) instantiate (dependents jaxpr unknowns)) := by
      rw [List.zipWith_comm_of_comm fun a b => Bool.or_comm a b]
      exact below_zipWith_or_left hlen.symm
    refine ⟨reject jaxpr.in_avals unknowns, ?_, below_zipWith_or_left hlen, rfl, rfl, rfl, rfl, ?_⟩
    · exact hbelow.length_eq.symm.trans (length_dependents _ _)
    · intro args hargs
      refine ⟨reject args unknowns, ?_, ?_⟩
      · exact congrArg (· ++ reject args unknowns) (knownOutputs_eq hin hargs hbelow)
      · have halen : args.length = unknowns.length := by rw [hin, ← hargs, List.length_map]
        have hrlen : (reject jaxpr.in_avals unknowns).length = (reject args unknowns).length := by
          rw [length_reject hin.symm, length_reject halen]
        simp only [recompute, hrlen, List.take_left, List.drop_left, mergeLists_partition halen, hargs,
          if_true]

end JaxDas.ScanSplit
