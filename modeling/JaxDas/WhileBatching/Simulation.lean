import JaxDas.WhileBatching.Level

/-!
# A batched loop runs every loop of the batch

At each index of the batch, one iteration of the batched loop is an iteration of the loop at that
index as long as that loop goes on, and leaves the carry alone afterwards. So the batched loop ends
with the last of them, and has the carry that each of them ends with.
-/

namespace JaxDas.WhileBatching

variable {α : Type} {holds : α → Bool} {w : While α} {sig : Signature}

/-! ## One iteration -/

namespace While

/-- The carry after an iteration, or the carry if the loop is over. -/
def advance (holds : α → Bool) (w : While α) (x y z : List (NdArray α)) : List (NdArray α) :=
  List.zipWith (NdArray.select holds (w.pred x z)) (w.body_jaxpr.eval (y ++ z)) z

namespace Typed

variable (hw : w.Typed sig) {x y z : List (NdArray α)}
include hw

theorem predShape_eq : w.predShape = sig.pred := by
  rw [predShape, hw.cond_out]
  rfl

theorem pred_eq (hx : x.map NdArray.shape = sig.cconsts) (hz : z.map NdArray.shape = sig.carry) :
    w.cond_jaxpr.eval (x ++ z) = [w.pred x z] ∧ (w.pred x z).shape = sig.pred := by
  have h := w.cond_jaxpr.typed (x ++ z) (by rw [List.map_append, hx, hz, hw.cond_in])
  rw [hw.cond_out] at h
  unfold pred
  cases hp : w.cond_jaxpr.eval (x ++ z) with
  | nil => rw [hp] at h; exact nomatch h
  | cons p ps =>
      rw [hp, List.map_cons] at h
      injection h with hshape hps
      rw [List.map_eq_nil_iff.mp hps]
      exact ⟨rfl, hshape⟩

theorem iterates_eq (hx : x.map NdArray.shape = sig.cconsts)
    (hz : z.map NdArray.shape = sig.carry) :
    w.iterates holds x z = (w.pred x z).reduceOr holds := by
  obtain ⟨-, hshape⟩ := hw.pred_eq hx hz
  rw [iterates, hw.predShape_eq]
  split
  · rfl
  · rename_i h
    rw [NdArray.reduceOr_scalar (hshape.trans (not_not.mp h))]

theorem body_shapes (hy : y.map NdArray.shape = sig.bconsts)
    (hz : z.map NdArray.shape = sig.carry) :
    (w.body_jaxpr.eval (y ++ z)).map NdArray.shape = sig.carry := by
  rw [w.body_jaxpr.typed _ (by rw [List.map_append, hy, hz, hw.body_in]), hw.body_out]

omit hw in
theorem zipWith_select {p : NdArray α} : ∀ {xs ys : List (NdArray α)},
    xs.map NdArray.shape = ys.map NdArray.shape →
      (p.reduceOr holds = false → List.zipWith (NdArray.select holds p) xs ys = ys) ∧
      (p.shape = [] → p.reduceOr holds = true → List.zipWith (NdArray.select holds p) xs ys = xs) ∧
      (List.zipWith (NdArray.select holds p) xs ys).map NdArray.shape = ys.map NdArray.shape
  | [], [], _ => ⟨fun _ => rfl, fun _ _ => rfl, rfl⟩
  | x :: xs, y :: ys, h => by
      injection h with hxy h
      obtain ⟨hnot, hscalar, hshapes⟩ := zipWith_select (p := p) h
      refine ⟨fun hp => ?_, fun hs hp => ?_, ?_⟩
      · rw [List.zipWith_cons_cons, NdArray.select_of_not hp, hnot hp]
      · rw [List.zipWith_cons_cons, NdArray.select_of_scalar hs hp hxy, hscalar hs hp]
      · rw [List.zipWith_cons_cons, List.map_cons, List.map_cons, NdArray.select_shape hxy, hxy,
          hshapes]

/-- An iteration that is made. -/
theorem bodyStep_eq (hx : x.map NdArray.shape = sig.cconsts) (hy : y.map NdArray.shape = sig.bconsts)
    (hz : z.map NdArray.shape = sig.carry) (h : w.iterates holds x z = true) :
    w.bodyStep holds x y z = w.advance holds x y z := by
  obtain ⟨-, hshape⟩ := hw.pred_eq hx hz
  rw [hw.iterates_eq hx hz] at h
  unfold bodyStep advance
  rw [hw.predShape_eq]
  by_cases hp : sig.pred = []
  · have hbody := (hw.body_shapes hy hz).trans hz.symm
    rw [if_neg (not_not.mpr hp), (zipWith_select hbody).2.1 (hshape.trans hp) h]
  · rw [if_pos hp]

/-- One that is not. -/
theorem advance_of_not (hx : x.map NdArray.shape = sig.cconsts)
    (hy : y.map NdArray.shape = sig.bconsts) (hz : z.map NdArray.shape = sig.carry)
    (h : w.iterates holds x z = false) : w.advance holds x y z = z := by
  rw [hw.iterates_eq hx hz] at h
  exact (zipWith_select ((hw.body_shapes hy hz).trans hz.symm)).1 h

theorem advance_shapes (hy : y.map NdArray.shape = sig.bconsts)
    (hz : z.map NdArray.shape = sig.carry) :
    (w.advance holds x y z).map NdArray.shape = sig.carry :=
  (zipWith_select ((hw.body_shapes hy hz).trans hz.symm)).2.2.trans hz

end Typed

/-- A run with more fuel. -/
theorem run_mono {x y : List (NdArray α)} {out : List (NdArray α)} : ∀ {n m : ℕ}
    {z : List (NdArray α)}, n ≤ m → w.run holds x y n z = some out → w.run holds x y m z = some out
  | 0, _, _, _, h => nomatch h
  | n + 1, m, z, hle, h => by
      obtain ⟨m, rfl⟩ : ∃ k, m = k + 1 := ⟨m - 1, by omega⟩
      rw [run] at h ⊢
      split at h
      · rw [if_pos ‹_›]
        exact run_mono (by omega) h
      · rwa [if_neg ‹_›]

end While

/-! ## One iteration of the batched loop -/

/-- The shapes of the batched loop. -/
def Signature.batched (sig : Signature) (size : ℕ) (cdims bdims carry_dims : List (Option ℕ))
    (pred_dim : Option ℕ) : Signature where
  cconsts := batchedAvals size cdims sig.cconsts
  bconsts := batchedAvals size bdims sig.bconsts
  carry := batchedAvals size carry_dims sig.carry
  pred := pred_dim.elim sig.pred fun k => sig.pred.insertIdx k size

/-- A select of batched values, at an index of the batch. -/
theorem sliceAll_select {size b : ℕ} {p q : NdArray α} {dims : List (Option ℕ)}
    {avals : List (List ℕ)} (hfits : Fits dims avals)
    (hone : ∀ d ∈ dims, ∀ (aval : List ℕ) (x y : NdArray α), (∀ k, d = some k → k ≤ aval.length) →
      x.shape = d.elim aval (fun k => aval.insertIdx k size) →
      y.shape = d.elim aval (fun k => aval.insertIdx k size) →
      sliceAxis d b (NdArray.select holds p x y) =
        NdArray.select holds q (sliceAxis d b x) (sliceAxis d b y)) :
    ∀ {xs ys : List (NdArray α)}, Batched size dims avals xs → Batched size dims avals ys →
      sliceAll dims b (List.zipWith (NdArray.select holds p) xs ys) =
        List.zipWith (NdArray.select holds q) (sliceAll dims b xs) (sliceAll dims b ys) := by
  unfold Batched
  induction hfits with
  | nil => exact fun _ _ => rfl
  | @cons d aval dims avals hfit _ ih =>
      intro xs ys hxs hys
      cases xs with
      | nil => exact nomatch hxs
      | cons x xs =>
          cases ys with
          | nil => exact nomatch hys
          | cons y ys =>
              injection hxs with hx hxs
              injection hys with hy hys
              have htail := ih (fun e he => hone e (List.mem_cons_of_mem _ he)) hxs hys
              unfold sliceAll at htail ⊢
              rw [List.zipWith_cons_cons, List.zipWith_cons_cons, List.zipWith_cons_cons,
                List.zipWith_cons_cons, List.zipWith_cons_cons, htail,
                hone d List.mem_cons_self aval x y hfit hx hy]

section Level

variable {batched : While α} {size : ℕ} {cdims bdims init_dims carry_dims : List (Option ℕ)}
  {pred_dim : Option ℕ} {x y z : List (NdArray α)}

namespace Level

variable (h : Level w batched sig size cdims bdims init_dims carry_dims pred_dim)
  (hw : w.Typed sig) (hc : Fits cdims sig.cconsts) (hb : Fits bdims sig.bconsts)
include h hw hc hb

theorem typed : batched.Typed (sig.batched size cdims bdims carry_dims pred_dim) where
  cond_nconsts := by
    rw [h.cond_nconsts, hw.cond_nconsts, Signature.batched, length_batchedAvals hc, hc.length_eq]
  body_nconsts := by
    rw [h.body_nconsts, hw.body_nconsts, Signature.batched, length_batchedAvals hb, hb.length_eq]
  cond_in := by rw [h.cond.in_avals, hw.cond_in, batchedAvals_append hc.length_eq]; rfl
  cond_out := by rw [h.cond.out_avals, hw.cond_out]; rfl
  body_in := by rw [h.body.in_avals, hw.body_in, batchedAvals_append hb.length_eq]; rfl
  body_out := by rw [h.body.out_avals, hw.body_out]; rfl

/-- The predicate at an index of the batch. -/
theorem pred_slice (hx : Batched size cdims sig.cconsts x) (hz : Batched size carry_dims sig.carry z)
    {b : ℕ} (hlt : b < size) : sliceAxis pred_dim b (batched.pred x z) =
      w.pred (sliceAll cdims b x) (sliceAll carry_dims b z) := by
  have heval := h.cond.eval (x ++ z)
    (by rw [h.cond.in_avals, hw.cond_in]; exact hx.append hz hc) b hlt
  rw [sliceAll_append (hx.length hc).symm] at heval
  obtain ⟨hp, -⟩ := hw.pred_eq (hx.slice hc hlt) (hz.slice h.fits hlt)
  obtain ⟨hp', -⟩ := (h.typed hw hc hb).pred_eq hx hz
  rw [hp, hp'] at heval
  injection heval

omit hc in
/-- The body at an index of the batch. -/
theorem body_slice (hy : Batched size bdims sig.bconsts y) (hz : Batched size carry_dims sig.carry z)
    {b : ℕ} (hlt : b < size) : sliceAll carry_dims b (batched.body_jaxpr.eval (y ++ z)) =
      w.body_jaxpr.eval (sliceAll bdims b y ++ sliceAll carry_dims b z) := by
  have heval := h.body.eval (y ++ z)
    (by rw [h.body.in_avals, hw.body_in]; exact hy.append hz hb) b hlt
  rwa [sliceAll_append (hy.length hb).symm] at heval

/-- An iteration at an index of the batch. -/
theorem advance_slice (hx : Batched size cdims sig.cconsts x)
    (hy : Batched size bdims sig.bconsts y) (hz : Batched size carry_dims sig.carry z) {b : ℕ}
    (hlt : b < size) : sliceAll carry_dims b (batched.advance holds x y z) =
      w.advance holds (sliceAll cdims b x) (sliceAll bdims b y) (sliceAll carry_dims b z) := by
  have hpred := h.pred_slice hw hc hb hx hz hlt
  obtain ⟨-, hshape⟩ := (h.typed hw hc hb).pred_eq hx hz
  have hnew := (h.typed hw hc hb).body_shapes hy hz
  unfold While.advance
  rw [← h.body_slice hw hb hy hz hlt, ← hpred]
  refine sliceAll_select h.fits ?_ hnew hz
  intro d hd aval u v hk hu hv
  rcases h.kind with ⟨rfl, hall⟩ | ⟨rfl, hall⟩
  · obtain rfl := hall d hd
    exact NdArray.slice_select hshape hu hv (Nat.zero_le _) (Nat.zero_le _) hlt
  · rcases hall d hd with rfl | rfl
    · rfl
    · refine NdArray.slice_select_after hu hv ?_ (hk _ rfl) hlt
      rw [hshape]
      exact Nat.le_refl _

/-- The batched loop goes on if the loop at some index does. -/
theorem iterates_iff (hsize : 0 < size) (hx : Batched size cdims sig.cconsts x)
    (hz : Batched size carry_dims sig.carry z) : batched.iterates holds x z = true ↔
      ∃ b < size, w.iterates holds (sliceAll cdims b x) (sliceAll carry_dims b z) = true := by
  obtain ⟨-, hshape⟩ := (h.typed hw hc hb).pred_eq hx hz
  have heach : ∀ b < size, w.iterates holds (sliceAll cdims b x) (sliceAll carry_dims b z) =
      (sliceAxis pred_dim b (batched.pred x z)).reduceOr holds := by
    intro b hlt
    rw [hw.iterates_eq (hx.slice hc hlt) (hz.slice h.fits hlt), h.pred_slice hw hc hb hx hz hlt]
  rw [(h.typed hw hc hb).iterates_eq hx hz]
  rcases h.kind with ⟨rfl, -⟩ | ⟨rfl, -⟩
  · rw [NdArray.reduceOr_slices hshape (Nat.zero_le _)]
    constructor
    · rintro ⟨b, hlt, hp⟩
      exact ⟨b, hlt, (heach b hlt).trans hp⟩
    · rintro ⟨b, hlt, hp⟩
      exact ⟨b, hlt, (heach b hlt).symm.trans hp⟩
  · constructor
    · intro hp
      exact ⟨0, hsize, (heach 0 hsize).trans hp⟩
    · rintro ⟨b, hlt, hp⟩
      exact (heach b hlt).symm.trans hp

/-! ## The whole run -/

/-- The batched loop ends with the carry that each loop ends with. -/
theorem run_slices (hsize : 0 < size)
    (hx : Batched size cdims sig.cconsts x) (hy : Batched size bdims sig.bconsts y)
    {out : ℕ → List (NdArray α)} : ∀ {n : ℕ} {z : List (NdArray α)},
      Batched size carry_dims sig.carry z →
      (∀ b < size, w.run holds (sliceAll cdims b x) (sliceAll bdims b y) n (sliceAll carry_dims b z) =
        some (out b)) →
      ∃ outs, batched.run holds x y n z = some outs ∧ Batched size carry_dims sig.carry outs ∧
        ∀ b < size, sliceAll carry_dims b outs = out b := by
  intro n
  induction n with
  | zero =>
      intro z _ hrun
      exact nomatch hrun 0 hsize
  | succ n ih =>
      intro z hz hrun
      have htyped := h.typed hw hc hb
      by_cases hgo : batched.iterates holds x z = true
      · obtain ⟨b₀, hlt₀, hgo₀⟩ := (h.iterates_iff hw hc hb hsize hx hz).mp hgo
        rw [While.run, if_pos hgo, htyped.bodyStep_eq hx hy hz hgo]
        refine ih (htyped.advance_shapes hy hz) fun b hlt => ?_
        rw [h.advance_slice hw hc hb hx hy hz hlt]
        have hb' := hrun b hlt
        rw [While.run] at hb'
        split at hb'
        · rename_i hgob
          rwa [hw.bodyStep_eq (hx.slice hc hlt) (hy.slice hb hlt) (hz.slice h.fits hlt) hgob] at hb'
        · -- this loop is over, and there is fuel left since another one goes on
          rename_i hgob
          have hgob : w.iterates holds (sliceAll cdims b x) (sliceAll carry_dims b z) = false := by
            simpa using hgob
          rw [hw.advance_of_not (hx.slice hc hlt) (hy.slice hb hlt) (hz.slice h.fits hlt) hgob]
          have hb₀ := hrun b₀ hlt₀
          rw [While.run, if_pos hgo₀] at hb₀
          cases n with
          | zero => exact nomatch hb₀
          | succ n => rwa [While.run, if_neg (by simp [hgob])]
      · refine ⟨z, by rw [While.run, if_neg hgo], hz, fun b hlt => ?_⟩
        have hb' := hrun b hlt
        have hnot : ¬ w.iterates holds (sliceAll cdims b x) (sliceAll carry_dims b z) = true :=
          fun hgob => hgo ((h.iterates_iff hw hc hb hsize hx hz).mpr ⟨b, hlt, hgob⟩)
        rw [While.run, if_neg hnot] at hb'
        exact Option.some.inj hb'

end Level

end Level

end JaxDas.WhileBatching
