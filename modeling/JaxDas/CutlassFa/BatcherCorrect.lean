import JaxDas.CutlassFa.Batcher

/-!
# When batching is pointwise

The batcher is right where there is nothing to merge: the mapped axis has length one, or what is
merged has no elements. Otherwise it hands the primitive operands whose batches differ.
-/

namespace JaxDas.CutlassFa

variable {α β : Type} {p : Params} {z : Sizes} {b B : ℕ} {d : BatchDims} {args : Operands α}

/-! ## Merging an axis -/

theorem size_withAxis (bdim : Option ℕ) (s : List ℕ) :
    size (withAxis b bdim (B :: s)) = lead b B bdim * size s := by
  unfold withAxis lead
  split <;> simp only [size, Nat.mul_assoc]

/-- What is left of an operand when the axis is taken off its shape is the operand at each index. -/
theorem atIndex_of_reshape {t u : Tensor β} {bdim : Option ℕ} {s : List ℕ} {i : ℕ}
    (ht : t.shape = withAxis b bdim s) (hu : t.reshape? s = some u) (hi : i < b) :
    atIndex t bdim i = some u := by
  obtain ⟨hshape, hdata⟩ := Tensor.reshape?_eq_some.mp hu
  unfold withAxis at ht
  unfold atIndex
  split at ht
  · rw [if_pos ‹_›]
    have hsize : b * size s = size s := by
      have h := Tensor.reshape?_isSome.mp ⟨u, hu⟩
      rwa [ht] at h
    rcases Nat.eq_zero_or_pos (size s) with hempty | hpos
    · obtain ⟨v, hv, hvs⟩ := Tensor.elem?_isSome ht hi
      rw [hv, Tensor.ext_of_empty (hvs.trans hshape.symm) (by rw [hshape, hempty])]
    · have hb : b = 1 := Nat.eq_of_mul_eq_mul_right hpos (by omega)
      subst hb
      obtain ⟨v, hv, hvs, hvd⟩ := Tensor.elem?_one ht
      rw [show i = 0 by omega, hv, Tensor.ext (hvs.trans hshape.symm) (hvd.trans hdata.symm)]
  · rw [if_neg ‹_›, Tensor.ext (ht.trans hshape.symm) hdata.symm]

theorem atIndex_isSome {t : Tensor β} {bdim : Option ℕ} {s : List ℕ} {i : ℕ}
    (ht : t.shape = withAxis b bdim s) (hi : i < b) :
    ∃ v, atIndex t bdim i = some v ∧ v.shape = s := by
  unfold withAxis at ht
  unfold atIndex
  split at ht
  · rw [if_pos ‹_›]
    exact Tensor.elem?_isSome ht hi
  · rw [if_neg ‹_›]
    exact ⟨t, rfl, ht⟩

theorem reshape_ok {t u : Tensor β} {s : List ℕ} :
    reshape t s = .ok u ↔ t.reshape? s = some u := by
  unfold reshape
  cases t.reshape? s with
  | none => exact ⟨nofun, nofun⟩
  | some v => exact ⟨fun h => by injection h with h; rw [h], fun h => by injection h with h; rw [h]⟩

theorem reshapeIf_ok {c : Bool} {t u : Tensor β} {s : List ℕ} :
    reshapeIf c t s = .ok u ↔ if c then t.reshape? s = some u else u = t := by
  unfold reshapeIf
  cases c with
  | true => exact reshape_ok
  | false => exact ⟨fun h => by injection h with h; exact h.symm, fun h => by rw [show u = t from h]; rfl⟩

/-! ## The merged operands -/

/-- The operands that the primitive is bound with, one by one. -/
structure Merged (p : Params) (z : Sizes) (B' : ℕ) (args : Operands α) (d : BatchDims)
    (m : Operands α) : Prop where
  query : args.query.reshape? (B' :: z.queryShape p) = some m.query
  key : args.key.reshape? (B' :: z.keyShape p) = some m.key
  value : args.value.reshape? (B' :: z.keyShape p) = some m.value
  bias : if p.has_bias && d.bias.isSome then args.bias.reshape? (1 :: z.scoreShape) = some m.bias
    else m.bias = args.bias
  mask : m.mask = args.mask
  q_seqlen : if hasPadding p.mask_type then args.q_seqlen.reshape? [B'] = some m.q_seqlen
    else m.q_seqlen = args.q_seqlen
  kv_seqlen : if hasPadding p.mask_type then args.kv_seqlen.reshape? [B'] = some m.kv_seqlen
    else m.kv_seqlen = args.kv_seqlen

theorem length_rest (layout : AttentionLayout) (N T H : ℕ) : (layout.rest N T H).length = 3 := by
  cases layout <;> rfl

/-- The leading dimensions and the last three. -/
theorem split_withAxis {bdim : Option ℕ} {s shape : List ℕ} (hs : s.length = 3)
    (h : shape = withAxis b bdim (B :: s)) :
    size (shape.take (shape.length - 3)) = lead b B bdim ∧ last3 shape = s := by
  subst h
  unfold withAxis lead last3
  split <;> simp [hs, size]

theorem lastDims_withAxis {layout : AttentionLayout} {bdim : Option ℕ} {N T H : ℕ} {shape : List ℕ}
    (h : shape = withAxis b bdim (B :: layout.rest N T H)) : layout.lastDims shape = .ok (N, T) := by
  have hdrop := (split_withAxis (length_rest layout N T H) h).2
  cases layout <;> simp only [AttentionLayout.lastDims, hdrop, AttentionLayout.rest]

theorem mergedOperands_ok (h : Fits p z b B args d) {m : Operands α} :
    mergedOperands p args d = .ok m ↔ Merged p z (lead b B d.query) args d m := by
  have hq := split_withAxis (length_rest _ _ _ _) h.query
  have hk := split_withAxis (length_rest _ _ _ _) h.key
  simp only [mergedOperands, lastDims_withAxis h.query, lastDims_withAxis h.key, ok_bind, hq, hk]
  have hkey : ∀ {k : Tensor α}, args.key.reshape? (lead b B d.query :: z.keyShape p) = some k →
      last3 k.shape = z.keyShape p := by
    intro k hk
    rw [(Tensor.reshape?_eq_some.mp hk).1]
    exact (split_withAxis (b := 0) (length_rest _ _ _ _) (rfl : _ = withAxis 0 none _)).2
  constructor
  · intro hm
    obtain ⟨query, h1, hm⟩ := bind_ok.mp hm
    obtain ⟨key, h2, hm⟩ := bind_ok.mp hm
    obtain ⟨value, h3, hm⟩ := bind_ok.mp hm
    obtain ⟨bias, h4, hm⟩ := bind_ok.mp hm
    obtain ⟨q_seqlen, h5, hm⟩ := bind_ok.mp hm
    obtain ⟨kv_seqlen, h6, hm⟩ := bind_ok.mp hm
    injection hm with hm
    subst hm
    have h2 := reshape_ok.mp h2
    rw [hkey h2] at h3
    exact ⟨reshape_ok.mp h1, h2, reshape_ok.mp h3, reshapeIf_ok.mp h4, rfl, reshapeIf_ok.mp h5,
      reshapeIf_ok.mp h6⟩
  · intro hm
    have h3 := reshape_ok.mpr hm.value
    rw [← hkey hm.key] at h3
    refine bind_ok.mpr ⟨_, reshape_ok.mpr hm.query, ?_⟩
    refine bind_ok.mpr ⟨_, reshape_ok.mpr hm.key, ?_⟩
    refine bind_ok.mpr ⟨_, h3, ?_⟩
    refine bind_ok.mpr ⟨_, reshapeIf_ok.mpr hm.bias, ?_⟩
    refine bind_ok.mpr ⟨_, reshapeIf_ok.mpr hm.q_seqlen, ?_⟩
    refine bind_ok.mpr ⟨_, reshapeIf_ok.mpr hm.kv_seqlen, ?_⟩
    rw [← hm.mask]

theorem reshape_axis_iff {t : Tensor β} {bdim : Option ℕ} {B' : ℕ} {s : List ℕ}
    (ht : t.shape = withAxis b bdim (B :: s)) :
    (∃ u, t.reshape? (B' :: s) = some u) ↔ lead b B bdim = B' ∨ size s = 0 := by
  rw [Tensor.reshape?_isSome, ht, size_withAxis, size]
  constructor
  · intro h
    rcases Nat.eq_zero_or_pos (size s) with h0 | hpos
    · exact .inr h0
    · exact .inl (Nat.eq_of_mul_eq_mul_right hpos h)
  · rintro (h | h)
    · rw [h]
    · rw [h, Nat.mul_zero, Nat.mul_zero]

theorem valid_isSome {d : BatchDims} (hd : d.Valid) : d.bias.isSome = decide (d.bias = some 0) := by
  rcases hd d.bias (by simp [BatchDims.toList]) with h | h <;> rw [h] <;> rfl

theorem lengths_iff {t : Tensor β} {bdim : Option ℕ} {c : Bool} {B' : ℕ}
    (ht : ∃ s, t.shape = withAxis b bdim s ∧ (c → s = [B])) :
    (∃ u, if c then t.reshape? [B'] = some u else u = t) ↔ (c → lead b B bdim = B') := by
  obtain ⟨s, ht, hs⟩ := ht
  cases c with
  | false => exact iff_of_true ⟨t, rfl⟩ nofun
  | true =>
      rw [hs rfl] at ht
      have h : (∃ u, t.reshape? [B'] = some u) ↔ lead b B bdim = B' ∨ size [] = 0 :=
        reshape_axis_iff ht
      simpa [size] using h

theorem merged_iff (h : Fits p z b B args d) (hd : d.Valid) :
    (∃ m, Merged p z (lead b B d.query) args d m) ↔ Reshapes p z b B d := by
  have hbias : (∃ u, if p.has_bias && d.bias.isSome then
        args.bias.reshape? (1 :: z.scoreShape) = some u else u = args.bias) ↔
      (p.has_bias → d.bias = some 0 → b * B = 1 ∨ size z.scoreShape = 0) := by
    rw [valid_isSome hd]
    by_cases hc : p.has_bias = true ∧ d.bias = some 0
    · have hshape := h.bias
      have hif : (p.has_bias && decide (d.bias = some 0)) = true := by simp [hc]
      rw [hc.2] at hshape
      simp only [hif, if_true, reshape_axis_iff hshape]
      simp only [lead, hc, true_implies, if_true]
    · have hif : ¬ (p.has_bias && decide (d.bias = some 0)) = true := by simpa using hc
      simp only [hif]
      exact iff_of_true ⟨_, rfl⟩ fun h1 h2 => absurd ⟨h1, h2⟩ hc
  constructor
  · rintro ⟨m, hm⟩
    exact {
      key := (reshape_axis_iff h.key).mp ⟨_, hm.key⟩
      value := (reshape_axis_iff h.value).mp ⟨_, hm.value⟩
      bias := hbias.mp ⟨_, hm.bias⟩
      lengths := fun hp => ⟨(lengths_iff h.q_seqlen).mp ⟨_, hm.q_seqlen⟩ hp,
        (lengths_iff h.kv_seqlen).mp ⟨_, hm.kv_seqlen⟩ hp⟩ }
  · intro hr
    obtain ⟨query, hquery⟩ := (reshape_axis_iff h.query).mpr (.inl rfl)
    obtain ⟨key, hkey⟩ := (reshape_axis_iff h.key).mpr hr.key
    obtain ⟨value, hvalue⟩ := (reshape_axis_iff h.value).mpr hr.value
    obtain ⟨bias, hb⟩ := hbias.mpr hr.bias
    obtain ⟨q_seqlen, hql⟩ := (lengths_iff h.q_seqlen).mpr fun hp => (hr.lengths hp).1
    obtain ⟨kv_seqlen, hkl⟩ := (lengths_iff h.kv_seqlen).mpr fun hp => (hr.lengths hp).2
    exact ⟨⟨query, key, value, bias, args.mask, q_seqlen, kv_seqlen⟩,
      ⟨hquery, hkey, hvalue, hb, rfl, hql, hkl⟩⟩

/-- The merged operands are those of a batch if the bias and the mask are. -/
theorem wellShaped_merged_iff (h : Fits p z b B args d) (hd : d.Valid) {m : Operands α}
    (hm : Merged p z (lead b B d.query) args d m) :
    (∃ B', WellShaped p z B' m) ↔
      lead b B d.query = B ∧ d.mask = none ∧ (d.bias = some 0 → p.has_bias ∧ B = 1) := by
  have hquery := (Tensor.reshape?_eq_some.mp hm.query).1
  constructor
  · rintro ⟨B', hw⟩
    have hB' : lead b B d.query = B' := by
      have := hquery.symm.trans hw.query
      injection this
    have hmask : d.mask = none := by
      rcases hd d.mask (by simp [BatchDims.toList]) with h0 | h0
      · have hs := hw.mask
        rw [hm.mask, h.mask, h0, withAxis, if_pos rfl] at hs
        exact absurd (congrArg List.length hs) (by simp)
      · exact h0
    have hB : lead b B d.query = B := by
      have hs := hw.mask
      rw [hm.mask, h.mask, hmask, withAxis, if_neg nofun] at hs
      injection hs with hs
      rw [hB', hs]
    refine ⟨hB, hmask, fun hb => ?_⟩
    have hbias := hm.bias
    rw [valid_isSome hd, hb] at hbias
    have hs := hw.bias
    cases hc : p.has_bias with
    | true =>
        simp only [hc, decide_true, Bool.and_self, if_true] at hbias
        rw [(Tensor.reshape?_eq_some.mp hbias).1] at hs
        injection hs with hs
        exact ⟨rfl, by omega⟩
    | false =>
        simp only [hc, Bool.false_and] at hbias
        rw [show m.bias = args.bias from hbias, h.bias, hb, withAxis, if_pos rfl] at hs
        exact absurd (congrArg List.length hs) (by simp)
  · rintro ⟨hB, hmask, hbias⟩
    rw [hB] at hm hquery
    refine ⟨B, hquery, (Tensor.reshape?_eq_some.mp hm.key).1,
      (Tensor.reshape?_eq_some.mp hm.value).1, ?_, ?_, ?_⟩
    · have hb := hm.bias
      rw [valid_isSome hd] at hb
      rcases hd d.bias (by simp [BatchDims.toList]) with h0 | h0
      · obtain ⟨hc, rfl⟩ := hbias h0
        simp only [hc, h0, decide_true, Bool.and_self, if_true] at hb
        exact (Tensor.reshape?_eq_some.mp hb).1
      · simp only [h0, reduceCtorEq, decide_false, Bool.and_false] at hb
        rw [show m.bias = args.bias from hb, h.bias, h0, withAxis, if_neg nofun]
    · rw [hm.mask, h.mask, hmask, withAxis, if_neg nofun]
    · intro hp
      have hq := hm.q_seqlen
      have hk := hm.kv_seqlen
      rw [if_pos hp] at hq hk
      exact ⟨(Tensor.reshape?_eq_some.mp hq).1, (Tensor.reshape?_eq_some.mp hk).1⟩

/-! ## The operands at an index -/

theorem atIndex_inv {ops : Operands α} {i : ℕ} (h : args.atIndex d i = some ops) :
    atIndex args.query d.query i = some ops.query ∧ atIndex args.key d.key i = some ops.key ∧
      atIndex args.value d.value i = some ops.value ∧ atIndex args.bias d.bias i = some ops.bias ∧
      atIndex args.mask d.mask i = some ops.mask ∧
      atIndex args.q_seqlen d.q_seqlen i = some ops.q_seqlen ∧
      atIndex args.kv_seqlen d.kv_seqlen i = some ops.kv_seqlen := by
  obtain ⟨_, h1, h⟩ := Option.bind_eq_some_iff.mp h
  obtain ⟨_, h2, h⟩ := Option.bind_eq_some_iff.mp h
  obtain ⟨_, h3, h⟩ := Option.bind_eq_some_iff.mp h
  obtain ⟨_, h4, h⟩ := Option.bind_eq_some_iff.mp h
  obtain ⟨_, h5, h⟩ := Option.bind_eq_some_iff.mp h
  obtain ⟨_, h6, h⟩ := Option.bind_eq_some_iff.mp h
  obtain ⟨_, h7, h⟩ := Option.bind_eq_some_iff.mp h
  injection h with h
  subst h
  exact ⟨h1, h2, h3, h4, h5, h6, h7⟩

/-- At each index are the operands of a batch of `B`. -/
theorem atIndex_wellShaped (h : Fits p z b B args d) {i : ℕ} (hi : i < b) :
    ∃ ops, args.atIndex d i = some ops ∧ WellShaped p z B ops := by
  obtain ⟨query, h1, s1⟩ := atIndex_isSome h.query hi
  obtain ⟨key, h2, s2⟩ := atIndex_isSome h.key hi
  obtain ⟨value, h3, s3⟩ := atIndex_isSome h.value hi
  obtain ⟨bias, h4, s4⟩ := atIndex_isSome h.bias hi
  obtain ⟨mask, h5, s5⟩ := atIndex_isSome h.mask hi
  obtain ⟨s, hs, hpad⟩ := h.q_seqlen
  obtain ⟨q_seqlen, h6, s6⟩ := atIndex_isSome hs hi
  obtain ⟨s', hs', hpad'⟩ := h.kv_seqlen
  obtain ⟨kv_seqlen, h7, s7⟩ := atIndex_isSome hs' hi
  refine ⟨⟨query, key, value, bias, mask, q_seqlen, kv_seqlen⟩, ?_, s1, s2, s3, s4, s5, ?_⟩
  · simp only [Operands.atIndex, h1, h2, h3, h4, h5, h6, h7, Option.bind_eq_bind, Option.bind_some]
  · intro hp
    exact ⟨s6.trans (hpad hp), s7.trans (hpad' hp)⟩

/-- The batcher finds the output of the primitive on the operands at each index: its own, when the
merged operands are those of a batch. -/
theorem prim_merged {prim : Operands α → Tensor α} (hprim : Pointwise p z prim)
    (h : Fits p z b B args d) {m ops : Operands α} (hm : Merged p z B args d m)
    (hw : WellShaped p z B m) {i : ℕ} (hi : i < b) (hops : args.atIndex d i = some ops)
    (hwops : WellShaped p z B ops) : prim m = prim ops := by
  obtain ⟨f, hf⟩ := hprim.elem
  obtain ⟨h1, h2, h3, h4, h5, h6, h7⟩ := atIndex_inv hops
  have same : ∀ {β : Type} {t u v : Tensor β} {bdim : Option ℕ} {s : List ℕ},
      t.shape = withAxis b bdim s → u.shape = s → (t.reshape? s = some u ∨ u = t) →
      atIndex t bdim i = some v → u = v := by
    intro β t u v bdim s ht hu hr hv
    have hr : t.reshape? s = some u := by
      rcases hr with hr | rfl
      · exact hr
      · exact Tensor.reshape?_eq_some.mpr ⟨hu, rfl⟩
    exact Option.some.inj ((atIndex_of_reshape ht hr hi).symm.trans hv)
  have hquery := same h.query hw.query (.inl hm.query) h1
  have hkey := same h.key hw.key (.inl hm.key) h2
  have hvalue := same h.value hw.value (.inl hm.value) h3
  have hbias : m.bias = ops.bias := by
    refine same h.bias hw.bias ?_ h4
    have hb := hm.bias
    split at hb
    · have hshape := (Tensor.reshape?_eq_some.mp hb).1
      rw [hw.bias] at hshape
      rw [hshape]
      exact .inl hb
    · exact .inr hb
  have hmask := same h.mask hw.mask (.inr hm.mask) h5
  have hlengths : ∀ j, m.lengths? p j = ops.lengths? p j := by
    intro j
    unfold Operands.lengths?
    by_cases hp : hasPadding p.mask_type
    · obtain ⟨s, hs, hpad⟩ := h.q_seqlen
      obtain ⟨s', hs', hpad'⟩ := h.kv_seqlen
      obtain rfl := hpad hp
      obtain rfl := hpad' hp
      have hq := hm.q_seqlen
      have hk := hm.kv_seqlen
      rw [if_pos hp] at hq hk
      rw [same hs (hw.lengths hp).1 (.inl hq) h6, same hs' (hw.lengths hp).2 (.inl hk) h7]
    · rw [if_neg hp, if_neg hp]
  refine Tensor.ext_elem ((hprim.shape m).trans hw.query) ((hprim.shape ops).trans hwops.query) ?_
  intro j _
  rw [hf B m hw j, hf B ops hwops j]
  unfold Operands.elem?
  rw [hquery, hkey, hvalue, hbias, hmask, hlengths j]

/-! ## What the batcher returns -/

theorem checkValidBatchDims_ok : ∀ {l : List (Option ℕ)}, (∀ dim ∈ l, dim = some 0 ∨ dim = none) →
    checkValidBatchDims l = .ok ()
  | [], _ => rfl
  | dim :: l, h => by
      rw [checkValidBatchDims, if_pos (h dim List.mem_cons_self)]
      exact checkValidBatchDims_ok fun d hd => h d (List.mem_cons_of_mem _ hd)

theorem checkValidBatchDims_error : ∀ {l : List (Option ℕ)},
    ¬ (∀ dim ∈ l, dim = some 0 ∨ dim = none) →
    ∃ msg, checkValidBatchDims l = .error (.notImplementedError msg)
  | [], h => absurd (by simp) h
  | dim :: l, h => by
      rw [checkValidBatchDims]
      split
      · exact checkValidBatchDims_error fun hl => h (List.forall_mem_cons.mpr ⟨‹_›, hl⟩)
      · exact ⟨_, rfl⟩

/-- The output is that of the merged operands, in the shape of the query. -/
theorem fwdBatcher_ok {prim : Operands α → Tensor α}
    (h : Fits p z b B args d) (hd : d.Valid) {out : Tensor α} {bdim : Option ℕ} :
    fwdBatcher prim p args d = .ok (out, bdim) ↔ bdim = d.query ∧
      ∃ m, Merged p z (lead b B d.query) args d m ∧
        out.shape = args.query.shape ∧ out.data = (prim m).data := by
  rw [fwdBatcher, checkValidBatchDims_ok hd, ok_bind]
  constructor
  · intro hf
    obtain ⟨m, hm, hf⟩ := bind_ok.mp hf
    obtain ⟨out', hout, hf⟩ := bind_ok.mp hf
    injection hf with hf
    injection hf with hf hb
    subst hf
    exact ⟨hb.symm, m, (mergedOperands_ok h).mp hm, Tensor.reshape?_eq_some.mp (reshape_ok.mp hout)⟩
  · rintro ⟨rfl, m, hm, hout⟩
    refine bind_ok.mpr ⟨m, (mergedOperands_ok h).mpr hm, ?_⟩
    exact bind_ok.mpr ⟨out, reshape_ok.mpr (Tensor.reshape?_eq_some.mpr hout), rfl⟩

theorem fwdBatcher_isOk {prim : Operands α → Tensor α} (hprim : Pointwise p z prim)
    (h : Fits p z b B args d) (hd : d.Valid) {m : Operands α}
    (hm : Merged p z (lead b B d.query) args d m) :
    ∃ out, fwdBatcher prim p args d = .ok (out, d.query) ∧
      out.shape = args.query.shape ∧ out.data = (prim m).data := by
  have hsize : size (prim m).shape = size args.query.shape := by
    rw [hprim.shape m, ← m.query.valid, ← args.query.valid,
      (Tensor.reshape?_eq_some.mp hm.query).2]
  obtain ⟨out, hout⟩ := Tensor.reshape?_isSome.mpr hsize
  have hout := Tensor.reshape?_eq_some.mp hout
  exact ⟨out, (fwdBatcher_ok h hd).mpr ⟨rfl, m, hm, hout⟩, hout⟩

/-- The computation does not raise `NotImplementedError`. -/
def NotRefused {γ : Type} (x : Except PyError γ) : Prop :=
  ∀ msg, x ≠ .error (.notImplementedError msg)

theorem NotRefused.bind {γ δ : Type} {x : Except PyError γ} {f : γ → Except PyError δ}
    (hx : NotRefused x) (hf : ∀ a, NotRefused (f a)) : NotRefused (x >>= f) := by
  cases x with
  | error e => exact fun msg h => hx msg (by injection h with h; rw [h])
  | ok a => exact hf a

theorem NotRefused.reshape (t : Tensor β) (s : List ℕ) : NotRefused (reshape t s) := by
  unfold CutlassFa.reshape
  cases t.reshape? s with
  | none => exact nofun
  | some _ => exact nofun

theorem NotRefused.reshapeIf (c : Bool) (t : Tensor β) (s : List ℕ) :
    NotRefused (reshapeIf c t s) := by
  cases c with
  | true => exact .reshape t s
  | false => exact nofun

/-- Only the check of the batch dimensions does. -/
theorem NotRefused.fwdBatcher (prim : Operands α → Tensor α) (h : Fits p z b B args d)
    (hd : d.Valid) : NotRefused (fwdBatcher prim p args d) := by
  rw [CutlassFa.fwdBatcher, checkValidBatchDims_ok hd, ok_bind]
  refine .bind ?_ fun _ => .bind (.reshape _ _) fun _ => nofun
  simp only [mergedOperands, lastDims_withAxis h.query, lastDims_withAxis h.key, ok_bind]
  exact .bind (.reshape _ _) fun _ => .bind (.reshape _ _) fun _ => .bind (.reshape _ _) fun _ =>
    .bind (.reshapeIf _ _ _) fun _ => .bind (.reshapeIf _ _ _) fun _ =>
      .bind (.reshapeIf _ _ _) fun _ => nofun

/-! ## The condition is enough -/

theorem batches_of_merges {prim : Operands α → Tensor α} (hprim : Pointwise p z prim)
    (h : Fits p z b B args d) (hd : d.Valid) (hm : Merges p z b B d) : Batches prim p b args d := by
  obtain ⟨m, hmerged⟩ := (merged_iff h hd).mpr hm.toReshapes
  obtain ⟨out, hout, hshape, hdata⟩ := fwdBatcher_isOk hprim h hd hmerged
  refine .inr ⟨out, d.query, hout, fun i hi => ?_⟩
  obtain ⟨ops, hops, hwops⟩ := atIndex_wellShaped h hi
  rw [hops, Option.map_some]
  rw [h.query] at hshape
  have hprimShape : (prim ops).shape = B :: z.queryShape p := (hprim.shape ops).trans hwops.query
  rcases hm.scores with hw | hb | hempty
  · obtain ⟨B', hwm⟩ := (wellShaped_merged_iff h hd hmerged).mpr hw
    rw [hw.1] at hmerged
    obtain rfl : B' = B := by
      have := hwm.query.symm.trans (Tensor.reshape?_eq_some.mp hmerged.query).1
      injection this
    have hsame := prim_merged hprim h hmerged hwm hi hops hwops
    refine atIndex_of_reshape hshape ?_ hi
    exact Tensor.reshape?_eq_some.mpr ⟨hprimShape, by rw [hdata, hsame]⟩
  · omega
  · obtain ⟨v, hv, hvs⟩ := atIndex_isSome hshape hi
    rw [hv, Tensor.ext_of_empty (hvs.trans hprimShape.symm) (by rw [hprimShape, hempty])]

/-! ## And needed -/

/-- An element of a batch is one of all the operands. -/
theorem elem?_query {ops : Operands α} (hw : WellShaped p z B ops) (j : ℕ) :
    ops.query.elem? j = (ops.elem? p j).map Element.query := by
  rcases Nat.lt_or_ge j B with hj | hj
  · obtain ⟨query, h1, -⟩ := Tensor.elem?_isSome hw.query hj
    obtain ⟨key, h2, -⟩ := Tensor.elem?_isSome hw.key hj
    obtain ⟨value, h3, -⟩ := Tensor.elem?_isSome hw.value hj
    obtain ⟨bias, h4, -⟩ := Tensor.elem?_isSome hw.bias hj
    obtain ⟨mask, h5, -⟩ := Tensor.elem?_isSome hw.mask hj
    have hlengths : ∃ l, ops.lengths? p j = some l := by
      unfold Operands.lengths?
      by_cases hp : hasPadding p.mask_type
      · obtain ⟨q_seqlen, h6, -⟩ := Tensor.elem?_isSome (hw.lengths hp).1 hj
        obtain ⟨kv_seqlen, h7, -⟩ := Tensor.elem?_isSome (hw.lengths hp).2 hj
        rw [if_pos hp, h6, h7]
        exact ⟨_, rfl⟩
      · exact ⟨none, if_neg hp⟩
    obtain ⟨l, hl⟩ := hlengths
    simp only [Operands.elem?, h1, h2, h3, h4, h5, hl, Option.bind_eq_bind, Option.bind_some,
      Option.map_some]
  · rw [Operands.elem?, Tensor.elem?_none hw.query hj]
    rfl

/-- A primitive that computes the same everywhere, from operands of its shapes. -/
theorem pointwise_fill (p : Params) (z : Sizes) (a : α) (g : Operands α → α)
    (hg : ∀ B ops, WellShaped p z B ops → g ops = a) :
    Pointwise p z fun ops => Tensor.fill ops.query.shape (g ops) := by
  refine ⟨fun _ => rfl, fun e => Tensor.fill e.query.shape a, ?_⟩
  intro B ops hw j
  have hquery := elem?_query hw j
  simp only [hg B ops hw, hw.query]
  rcases Nat.lt_or_ge j B with hj | hj
  · obtain ⟨query, hq, hs⟩ := Tensor.elem?_isSome hw.query hj
    obtain ⟨e, he, rfl⟩ := Option.map_eq_some_iff.mp (hquery.symm.trans hq)
    rw [Tensor.elem?_fill a hj, he, Option.map_some, hs]
  · rw [Tensor.elem?_none hw.query hj] at hquery
    rw [Tensor.elem?_none (t := Tensor.fill (B :: z.queryShape p) a) rfl hj,
      Option.map_eq_none_iff.mp hquery.symm]
    rfl

open Classical in
theorem merges_of_batches [Nontrivial α] (h : Fits p z b B args d) (hd : d.Valid)
    (hall : ∀ prim : Operands α → Tensor α, Pointwise p z prim → Batches prim p b args d) :
    Merges p z b B d := by
  obtain ⟨a, c, hac⟩ := exists_pair_ne α
  -- one primitive for all that is well shaped, and another value on what is not
  have hprim := pointwise_fill p z a (fun ops => if ∃ B, WellShaped p z B ops then a else c)
    fun B ops hw => if_pos ⟨B, hw⟩
  rcases hall _ hprim with ⟨msg, hmsg⟩ | ⟨out, bdim, hout, hindex⟩
  · exact absurd hmsg (NotRefused.fwdBatcher _ h hd msg)
  obtain ⟨rfl, m, hm, hshape, hdata⟩ := (fwdBatcher_ok h hd).mp hout
  refine ⟨(merged_iff h hd).mp ⟨m, hm⟩, ?_⟩
  by_contra hne
  simp only [not_or] at hne
  obtain ⟨hw, hb, hsize⟩ := hne
  obtain ⟨ops, hops, hwops⟩ := atIndex_wellShaped h (i := 0) (by omega)
  have h0 := hindex 0 (by omega)
  rw [hops, Option.map_some] at h0
  have hill : ¬ ∃ B', WellShaped p z B' m := fun hex =>
    hw ((wellShaped_merged_iff h hd hm).mp hex)
  rw [if_pos ⟨B, hwops⟩] at h0
  rw [if_neg hill] at hdata
  -- the output at the first index has elements, and all are `c`
  have hmem : ∀ {t : Tensor α}, atIndex out d.query 0 = some t → ∀ x ∈ t.data, x = c := by
    intro t ht x hx
    have hx : x ∈ out.data := by
      rw [atIndex] at ht
      split at ht
      · rename_i hq
        rw [h.query, withAxis, if_pos hq] at hshape
        rw [((Tensor.elem?_eq_some hshape).mp ht).2.2] at hx
        exact List.mem_of_mem_drop (List.mem_of_mem_take hx)
      · injection ht with ht
        exact ht ▸ hx
    rw [hdata] at hx
    exact (List.mem_replicate.mp hx).2
  refine hac (hmem h0 a ?_)
  simp only [Tensor.fill]
  rw [hwops.query]
  exact List.mem_replicate.mpr ⟨hsize, rfl⟩

/-- Batching is pointwise for every pointwise primitive exactly when the batcher refuses, or the
operands merge. -/
theorem batches_iff [Nontrivial α] (h : Fits p z b B args d) :
    (∀ prim : Operands α → Tensor α, Pointwise p z prim → Batches prim p b args d) ↔
      (d.Valid → Merges p z b B d) := by
  by_cases hd : d.Valid
  · rw [imp_iff_right hd]
    exact ⟨merges_of_batches h hd, fun hm prim hprim => batches_of_merges hprim h hd hm⟩
  · refine iff_of_true (fun prim _ => .inl ?_) fun h => absurd h hd
    obtain ⟨msg, hmsg⟩ := checkValidBatchDims_error hd
    exact ⟨msg, by rw [fwdBatcher, hmsg]; rfl⟩

/-- One head, one position, a head of size one. -/
def oneSizes : Sizes := ⟨1, 1, 1, 1, 1⟩

def biasParams : Params := ⟨.NO_MASK, .BTNH, true⟩

/-- Everything mapped over an axis of length `b` but for the mask, which was not given. -/
def mappedArgs (b : ℕ) : Operands ℤ where
  query := .fill [b, 1, 1, 1, 1] 0
  key := .fill [b, 1, 1, 1, 1] 0
  value := .fill [b, 1, 1, 1, 1] 0
  bias := .fill [b, 1, 1, 1, 1] 0
  mask := .fill [1, 1, 1, 1] 1
  q_seqlen := .fill [0] 0
  kv_seqlen := .fill [0] 0

def mappedDims : BatchDims := ⟨some 0, some 0, some 0, some 0, none, none, none⟩

theorem mappedArgs_fits (b : ℕ) : Fits biasParams oneSizes b 1 (mappedArgs b) mappedDims :=
  ⟨rfl, rfl, rfl, rfl, rfl, ⟨[0], rfl, nofun⟩, ⟨[0], rfl, nofun⟩⟩

theorem pointwise_query (p : Params) (z : Sizes) :
    Pointwise p z fun ops : Operands α => ops.query :=
  ⟨fun _ => rfl, Element.query, fun _ _ hw j => elem?_query hw j⟩

/-- An axis of length one is merged, with the bias on it. -/
theorem batches_one :
    Batches (fun ops : Operands ℤ => ops.query) biasParams 1 (mappedArgs 1) mappedDims :=
  (batches_iff (mappedArgs_fits 1)).mpr
    (fun _ => ⟨⟨.inl rfl, .inl rfl, fun _ _ => .inl rfl, nofun⟩, .inl ⟨rfl, rfl, fun _ => ⟨rfl, rfl⟩⟩⟩)
    _ (pointwise_query _ _)

/-- With two elements in it, the reshape of the bias fails. -/
theorem bias_not_merged :
    Pointwise biasParams oneSizes (fun ops : Operands ℤ => ops.query) ∧
      ¬ Batches (fun ops : Operands ℤ => ops.query) biasParams 2 (mappedArgs 2) mappedDims := by
  refine ⟨pointwise_query _ _, ?_⟩
  have herror : fwdBatcher (fun ops : Operands ℤ => ops.query) biasParams (mappedArgs 2) mappedDims =
      .error (.typeError ("cannot reshape array of shape (2, 1, 1, 1, 1) (size 2) " ++
        "into shape (1, 1, 1, 1) (size 1)")) := by
    rfl
  rintro (⟨msg, h⟩ | ⟨out, bdim, h, -⟩)
  · rw [herror] at h; exact nomatch h
  · rw [herror] at h; exact nomatch h

end JaxDas.CutlassFa
