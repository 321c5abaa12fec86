import JaxDas.Loops.Depends
import JaxDas.WhileBatching.Level

/-!
# A batcher

The batcher that finds an output to be mapped when it depends on a mapped input, and evaluates the
jaxpr at every index of the batch. It is lawful.
-/

namespace JaxDas.WhileBatching

variable {α : Type} [Inhabited α]

/-- The inputs, with something else for those that are mapped. -/
def unmapped : List (Option ℕ) → List (List ℕ) → List (NdArray α) → List (NdArray α)
  | none :: axes, _ :: avals, x :: xs => x :: unmapped axes avals xs
  | some _ :: axes, aval :: avals, _ :: xs => .fill aval default :: unmapped axes avals xs
  | _, _, _ => []

/-- The output `i` of the batched jaxpr. -/
def outputAt (jaxpr : ClosedJaxpr α) (size : ℕ) (in_axes : List (Option ℕ)) (args : List (NdArray α))
    (i : ℕ) (aval : List ℕ) : Option ℕ → NdArray α
  | some k =>
      let f := fun b => (jaxpr.eval (sliceAll in_axes b args)).getD i default
      if h : k ≤ aval.length ∧ ∀ b < size, (f b).shape = aval then .stack aval k size f h.1 h.2
      else .fill (aval.insertIdx k size) default
  | none =>
      let y := (jaxpr.eval (unmapped in_axes jaxpr.in_avals args)).getD i default
      if y.shape = aval then y else .fill aval default

def outputs (jaxpr : ClosedJaxpr α) (size : ℕ) (in_axes : List (Option ℕ))
    (args : List (NdArray α)) : ℕ → List (Option ℕ) → List (List ℕ) → List (NdArray α)
  | i, axis :: axes, aval :: avals =>
      outputAt jaxpr size in_axes args i aval axis :: outputs jaxpr size in_axes args (i + 1) axes avals
  | _, _, _ => []

section

variable {jaxpr : ClosedJaxpr α} {size : ℕ} {in_axes : List (Option ℕ)} {args : List (NdArray α)}

theorem outputAt_shape (i : ℕ) (aval : List ℕ) (axis : Option ℕ) :
    (outputAt jaxpr size in_axes args i aval axis).shape =
      axis.elim aval fun k => aval.insertIdx k size := by
  cases axis with
  | none =>
      simp only [outputAt]
      split
      · assumption
      · rfl
  | some k =>
      simp only [outputAt]
      split <;> rfl

theorem outputs_shapes : ∀ (i : ℕ) (axes : List (Option ℕ)) (avals : List (List ℕ)),
    (outputs jaxpr size in_axes args i axes avals).map NdArray.shape = batchedAvals size axes avals
  | _, [], _ => rfl
  | _, _ :: _, [] => rfl
  | i, axis :: axes, aval :: avals => by
      rw [outputs, List.map_cons, outputAt_shape, outputs_shapes (i + 1) axes avals]
      rfl

end

/-- The batcher by dependence. -/
noncomputable def semanticBatcher : Batcher α where
  mapped := fun jaxpr _ in_batched => dependents jaxpr in_batched
  jaxpr := fun jaxpr size in_axes out_axes =>
    { in_avals := batchedAvals size in_axes jaxpr.in_avals
      out_avals := batchedAvals size out_axes jaxpr.out_avals
      eval := fun args => outputs jaxpr size in_axes args 0 out_axes jaxpr.out_avals
      typed := fun _ _ => outputs_shapes 0 out_axes jaxpr.out_avals }

/-! ## It is lawful -/

theorem unmapped_shapes {size : ℕ} {in_axes : List (Option ℕ)} {avals : List (List ℕ)}
    (hfits : Fits in_axes avals) : ∀ {args : List (NdArray α)}, Batched size in_axes avals args →
      (unmapped in_axes avals args).map NdArray.shape = avals := by
  unfold Batched
  induction hfits with
  | nil => exact fun _ => rfl
  | @cons axis aval axes avals _ _ ih =>
      intro args h
      cases args with
      | nil => exact nomatch h
      | cons x xs =>
          injection h with hx h
          cases axis with
          | none => rw [unmapped, List.map_cons, ih h]; exact congrArg (· :: avals) hx
          | some k => rw [unmapped, List.map_cons, ih h]; rfl

/-- Inputs that are not mapped are the same at every index. -/
theorem unmapped_agree {size b : ℕ} {in_axes : List (Option ℕ)} {avals : List (List ℕ)}
    (hfits : Fits in_axes avals) : ∀ {args : List (NdArray α)}, Batched size in_axes avals args →
      ∀ k : ℕ, (in_axes.map Option.isSome)[k]? = some false →
        (unmapped in_axes avals args)[k]? = (sliceAll in_axes b args)[k]? := by
  unfold Batched
  induction hfits with
  | nil => exact fun _ _ _ => rfl
  | @cons axis aval axes avals _ _ ih =>
      intro args h k hk
      cases args with
      | nil => exact nomatch h
      | cons x xs =>
          injection h with hx h
          cases k with
          | zero =>
              cases axis with
              | none => rfl
              | some k => simp at hk
          | succ k =>
              have htail := ih h k (by simpa using hk)
              cases axis <;> exact htail

theorem outputAt_slice {jaxpr : ClosedJaxpr α} {size b i : ℕ} {in_axes : List (Option ℕ)}
    {args : List (NdArray α)} (hfits : Fits in_axes jaxpr.in_avals)
    (hargs : Batched size in_axes jaxpr.in_avals args) (hb : b < size) {aval : List ℕ}
    {axis : Option ℕ} (haxis : ∀ k, axis = some k → k ≤ aval.length)
    (hnot : axis = none → ¬ Depends jaxpr (in_axes.map Option.isSome) i)
    (haval : jaxpr.out_avals[i]? = some aval) :
    sliceAxis axis b (outputAt jaxpr size in_axes args i aval axis) =
      (jaxpr.eval (sliceAll in_axes b args)).getD i default := by
  have hshape : ∀ c < size,
      ((jaxpr.eval (sliceAll in_axes c args)).getD i default).shape = aval := by
    intro c hc
    have h := jaxpr.typed _ (hargs.slice hfits hc)
    rw [← h, List.getElem?_map] at haval
    obtain ⟨y, hy, rfl⟩ := Option.map_eq_some_iff.mp haval
    rw [List.getD_eq_getElem?_getD, hy]
    rfl
  cases axis with
  | none =>
      have hsame : (jaxpr.eval (unmapped in_axes jaxpr.in_avals args))[i]? =
          (jaxpr.eval (sliceAll in_axes b args))[i]? := by
        by_contra hne
        exact hnot rfl ⟨_, _, unmapped_shapes hfits hargs, hargs.slice hfits hb,
          unmapped_agree hfits hargs, hne⟩
      have hget : (jaxpr.eval (unmapped in_axes jaxpr.in_avals args)).getD i default =
          (jaxpr.eval (sliceAll in_axes b args)).getD i default := by
        rw [List.getD_eq_getElem?_getD, List.getD_eq_getElem?_getD, hsame]
      unfold outputAt sliceAxis
      simp only [hget, hshape b hb, if_true]
      rfl
  | some k =>
      unfold outputAt sliceAxis
      simp only
      rw [dif_pos ⟨haxis k rfl, hshape⟩]
      exact NdArray.slice_stack _ _ hb

theorem sliceAll_outputs {jaxpr : ClosedJaxpr α} {size b : ℕ} {in_axes : List (Option ℕ)}
    {args : List (NdArray α)} (hfits : Fits in_axes jaxpr.in_avals)
    (hargs : Batched size in_axes jaxpr.in_avals args) (hb : b < size)
    {axes : List (Option ℕ)} {avals : List (List ℕ)} (hout : Fits axes avals) : ∀ {i : ℕ},
      (∀ k : ℕ, axes[k]? = some none → ¬ Depends jaxpr (in_axes.map Option.isSome) (i + k)) →
      jaxpr.out_avals.drop i = avals →
      sliceAll axes b (outputs jaxpr size in_axes args i axes avals) =
        (jaxpr.eval (sliceAll in_axes b args)).drop i := by
  have hE := jaxpr.typed _ (hargs.slice hfits hb)
  induction hout with
  | nil =>
      intro i _ hdrop
      rw [← hE, ← List.map_drop, List.map_eq_nil_iff] at hdrop
      rw [hdrop]
      rfl
  | @cons axis aval axes avals hfit _ ih =>
      intro i hnot hdrop
      have haval : jaxpr.out_avals[i]? = some aval := by
        have := congrArg (·[0]?) hdrop
        simpa using this
      have hdrop' : jaxpr.out_avals.drop (i + 1) = avals := by
        rw [← List.drop_drop, hdrop]
        rfl
      have hhead := outputAt_slice hfits hargs hb hfit (fun h => hnot 0 (by rw [h]; rfl)) haval
      have htail := ih (i := i + 1)
        (fun k hk => by
          have := hnot (k + 1) (by simpa using hk)
          rwa [show i + 1 + k = i + (k + 1) by omega]) hdrop'
      have hlen : i < (jaxpr.eval (sliceAll in_axes b args)).length := by
        rw [← hE, List.getElem?_map] at haval
        obtain ⟨y, hy, -⟩ := Option.map_eq_some_iff.mp haval
        exact (List.getElem?_eq_some_iff.mp hy).1
      rw [List.drop_eq_getElem_cons hlen, ← htail]
      unfold sliceAll
      rw [outputs, List.zipWith_cons_cons]
      congr 1
      exact hhead.trans (List.getD_eq_getElem _ _ hlen)

theorem semanticBatcher_lawful : (semanticBatcher : Batcher α).Lawful where
  length_mapped := fun jaxpr _ in_batched => length_dependents jaxpr in_batched
  maps := by
    intro jaxpr size in_axes out_axes hin hout hplaces
    refine ⟨rfl, rfl, fun _ hargs b hb => ?_⟩
    refine sliceAll_outputs hin hargs hb hout ?_ rfl
    intro k hk hdepends
    rw [Nat.zero_add] at hdepends
    obtain ⟨hklen, hknone⟩ := List.getElem?_eq_some_iff.mp hk
    have hlen := hplaces.length_eq
    have hplace := List.Forall₂.get hplaces (i := k) (by omega) hklen
    rw [List.get_eq_getElem, List.get_eq_getElem] at hplace
    refine hplace ?_ hknone
    simpa [semanticBatcher, dependents] using hdepends

end JaxDas.WhileBatching
