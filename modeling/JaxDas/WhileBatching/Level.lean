import JaxDas.Lib.Masks
import JaxDas.WhileBatching.Rule

/-!
# One level of batching

The fixpoint over the carry closes, and the rule makes a loop whose condition and body are those of
the given loop at every index of the batch. There are two kinds of it: if the predicate is batched,
every carry is batched at the first axis, and if not, the carry is batched at an axis after those of
the predicate.
-/

namespace JaxDas.WhileBatching

variable {α : Type}

/-! ## Lists of batched values -/

/-- Values of these shapes, batched along the axes. -/
def Batched (size : ℕ) (axes : List (Option ℕ)) (avals : List (List ℕ)) (xs : List (NdArray α)) :
    Prop := xs.map NdArray.shape = batchedAvals size axes avals

theorem batchedAvals_append {size : ℕ} {axes axes' : List (Option ℕ)} {avals avals' : List (List ℕ)}
    (h : axes.length = avals.length) : batchedAvals size (axes ++ axes') (avals ++ avals') =
      batchedAvals size axes avals ++ batchedAvals size axes' avals' :=
  List.zipWith_append h

theorem length_batchedAvals {size : ℕ} {axes : List (Option ℕ)} {avals : List (List ℕ)}
    (h : Fits axes avals) : (batchedAvals size axes avals).length = axes.length := by
  rw [batchedAvals, List.length_zipWith, h.length_eq, Nat.min_self]

theorem Batched.length {size : ℕ} {axes : List (Option ℕ)} {avals : List (List ℕ)}
    {xs : List (NdArray α)} (h : Batched size axes avals xs) (hfits : Fits axes avals) :
    xs.length = axes.length := by
  rw [← length_batchedAvals hfits, ← h, List.length_map]

theorem Batched.append {size : ℕ} {axes axes' : List (Option ℕ)} {avals avals' : List (List ℕ)}
    {xs xs' : List (NdArray α)} (h : Batched size axes avals xs) (h' : Batched size axes' avals' xs')
    (hfits : Fits axes avals) : Batched size (axes ++ axes') (avals ++ avals') (xs ++ xs') := by
  unfold Batched at h h' ⊢
  rw [List.map_append, h, h', batchedAvals_append hfits.length_eq]

theorem sliceAll_append {b : ℕ} {axes axes' : List (Option ℕ)} {xs xs' : List (NdArray α)}
    (h : axes.length = xs.length) :
    sliceAll (axes ++ axes') b (xs ++ xs') = sliceAll axes b xs ++ sliceAll axes' b xs' :=
  List.zipWith_append h

theorem Fits.append {axes axes' : List (Option ℕ)} {avals avals' : List (List ℕ)}
    (h : Fits axes avals) (h' : Fits axes' avals') : Fits (axes ++ axes') (avals ++ avals') :=
  List.rel_append h h'

/-- Axes for two lists of values. -/
theorem Fits.split {axes : List (Option ℕ)} : ∀ {avals avals' : List (List ℕ)},
    Fits axes (avals ++ avals') →
      ∃ axes₁ axes₂, axes = axes₁ ++ axes₂ ∧ Fits axes₁ avals ∧ Fits axes₂ avals'
  | [], avals', h => ⟨[], axes, rfl, .nil, h⟩
  | aval :: avals, avals', h => by
      cases h with
      | @cons axis _ rest _ hfit h =>
          obtain ⟨axes₁, axes₂, rfl, h₁, h₂⟩ := Fits.split h
          exact ⟨axis :: axes₁, axes₂, rfl, .cons hfit h₁, h₂⟩

/-- The shapes of the values at an index of the batch. -/
theorem Batched.slice {size b : ℕ} {axes : List (Option ℕ)} {avals : List (List ℕ)}
    (hfits : Fits axes avals) (hb : b < size) : ∀ {xs : List (NdArray α)},
      Batched size axes avals xs → (sliceAll axes b xs).map NdArray.shape = avals := by
  unfold Batched
  induction hfits with
  | nil => exact fun _ => rfl
  | @cons axis aval axes avals hfit _ ih =>
      intro xs h
      cases xs with
      | nil => exact nomatch h
      | cons x xs =>
          injection h with hx h
          have hslice : (sliceAxis axis b x).shape = aval := by
            cases axis with
            | none => exact hx
            | some k => exact NdArray.slice_shape hx (hfit k rfl) hb
          have htail := ih h
          unfold sliceAll at htail ⊢
          rw [List.zipWith_cons_cons, List.map_cons, hslice, htail]

/-! ## The fixpoint -/

/-- The carry that the fixpoint finds: no other is mapped by the body. -/
theorem carryFixpoint_ok {bt : Batcher α} (hbt : bt.Lawful) {body_jaxpr : ClosedJaxpr α} (size : ℕ)
    (bconst_bat : List Bool) : ∀ {n : ℕ} {carry_bat : List Bool},
      carry_bat.length = body_jaxpr.out_avals.length → carry_bat.length < n + carry_bat.count true →
        ∃ bat, carryFixpoint bt body_jaxpr size bconst_bat n carry_bat = .ok bat ∧
          Below carry_bat bat ∧ Below (bt.mapped body_jaxpr size (bconst_bat ++ bat)) bat ∧
            bat.length = body_jaxpr.out_avals.length
  | 0, carry_bat, _, h => by
      have := List.count_le_length (a := true) (l := carry_bat)
      omega
  | n + 1, carry_bat, hlen, hn => by
      have hlen' : carry_bat.length =
          (bt.mapped body_jaxpr size (bconst_bat ++ carry_bat)).length := by
        rw [hbt.length_mapped, hlen]
      have hbelow := below_zipWith_or_left hlen'
      rw [carryFixpoint]
      rcases hbelow.eq_or_count_lt with heq | hlt
      · refine ⟨carry_bat, if_pos heq, Below.refl _, ?_, hlen⟩
        have hbelow' := below_zipWith_or_left hlen'.symm
        rwa [List.zipWith_comm_of_comm fun a b => Bool.or_comm a b, ← heq] at hbelow'
      · have hne : carry_bat ≠ outBatched bt body_jaxpr size (bconst_bat ++ carry_bat) carry_bat := by
          intro heq
          unfold outBatched at heq
          rw [← heq] at hlt
          exact Nat.lt_irrefl _ hlt
        rw [if_neg hne]
        unfold outBatched
        rw [zipWith_or_of_below hbelow]
        have hlength := hbelow.length_eq
        obtain ⟨bat, hbat, hbelow', hmapped, hlength'⟩ := carryFixpoint_ok hbt size bconst_bat (n := n)
          (hlength.symm.trans hlen) (by omega)
        exact ⟨bat, hbat, Below.trans hbelow hbelow', hmapped, hlength'⟩

/-! ## The two kinds of batched loops -/

/-- The loop that is made, with the axis of its predicate and the axes of its carry. -/
structure Level (w batched : While α) (sig : Signature) (size : ℕ)
    (cdims bdims init_dims carry_dims : List (Option ℕ)) (pred_dim : Option ℕ) : Prop where
  cond_nconsts : batched.cond_nconsts = w.cond_nconsts
  body_nconsts : batched.body_nconsts = w.body_nconsts
  cond : Maps w.cond_jaxpr batched.cond_jaxpr size (cdims ++ carry_dims) [pred_dim]
  body : Maps w.body_jaxpr batched.body_jaxpr size (bdims ++ carry_dims) carry_dims
  fits : Fits carry_dims sig.carry
  kind : (pred_dim = some 0 ∧ ∀ d ∈ carry_dims, d = some 0) ∨
    (pred_dim = none ∧ ∀ d ∈ carry_dims, d = none ∨ d = some sig.pred.length)
  covers : List.Forall₂ (fun i c => i ≠ none → c ≠ none) init_dims carry_dims

theorem batchJaxprAxes_ok {bt : Batcher α} (hbt : bt.Lawful) {jaxpr : ClosedJaxpr α} (size : ℕ)
    {in_axes out_axes : List (Option ℕ)} (hin : Fits in_axes jaxpr.in_avals)
    (hout : Fits out_axes jaxpr.out_avals)
    (h : Places (bt.mapped jaxpr size (in_axes.map Option.isSome)) out_axes) :
    ∃ batched, batchJaxprAxes bt jaxpr size in_axes out_axes = .ok batched ∧
      Maps jaxpr batched size in_axes out_axes :=
  ⟨_, if_pos h, hbt.maps jaxpr size in_axes out_axes hin hout h⟩

theorem places_map {f : Bool → Option ℕ} (hf : f true ≠ none) : ∀ {m bat : List Bool},
    Below m bat → Places m (bat.map f)
  | _, _, .nil => .nil
  | _, _, .cons h hs => by
      refine .cons (fun hm => ?_) (places_map hf hs)
      rw [h hm]
      exact hf

theorem places_some : ∀ {m : List Bool} {axes : List (Option ℕ)}, m.length = axes.length →
    (∀ d ∈ axes, d ≠ none) → Places m axes
  | [], [], _, _ => .nil
  | _ :: _, d :: axes, hlen, h =>
      .cons (fun _ => h d List.mem_cons_self)
        (places_some (by simpa using hlen) fun e he => h e (List.mem_cons_of_mem _ he))

theorem fits_map {f : Bool → Option ℕ} {k : ℕ} (hf : ∀ b, f b = none ∨ f b = some k) :
    ∀ {bat : List Bool} {avals : List (List ℕ)}, bat.length = avals.length →
      (∀ aval ∈ avals, k ≤ aval.length) → Fits (bat.map f) avals
  | [], [], _, _ => .nil
  | b :: bat, aval :: avals, hlen, hk => by
      refine .cons ?_ (fits_map hf (by simpa using hlen) fun a ha => hk a (List.mem_cons_of_mem _ ha))
      intro j hj
      rcases hf b with h | h
      · rw [h] at hj
        exact nomatch hj
      · rw [h] at hj
        injection hj with hj
        exact hj ▸ hk aval List.mem_cons_self

theorem covers_map {f : Bool → Option ℕ} (hf : f true ≠ none) : ∀ {init_dims : List (Option ℕ)}
    {bat : List Bool}, Below (init_dims.map Option.isSome) bat →
      List.Forall₂ (fun i c => i ≠ none → c ≠ none) init_dims (bat.map f)
  | [], [], _ => .nil
  | i :: init_dims, b :: bat, .cons h hs => by
      refine .cons (fun hi => ?_) (covers_map hf hs)
      rw [h (Option.isSome_iff_ne_none.mpr hi)]
      exact hf

theorem map_isSome {f : Bool → Option ℕ} (hf : ∀ b, (f b).isSome = b) (bat : List Bool) :
    (bat.map f).map Option.isSome = bat := by
  rw [List.map_map]
  conv_rhs => rw [← List.map_id bat]
  exact List.map_congr_left fun b _ => hf b

/-- The rule makes a batched loop of a well-formed one. -/
theorem batchedWhile_ok {bt : Batcher α} (hbt : bt.Lawful) {w : While α} {sig : Signature}
    (hw : w.Typed sig) (hpre : sig.Prefixed) {size : ℕ}
    {cdims bdims init_dims : List (Option ℕ)} (hc : Fits cdims sig.cconsts)
    (hb : Fits bdims sig.bconsts) (hi : Fits init_dims sig.carry) :
    ∃ batched carry_dims pred_dim,
      batchedWhile bt size w (cdims ++ bdims ++ init_dims) = .ok (batched, carry_dims) ∧
        Level w batched sig size cdims bdims init_dims carry_dims pred_dim := by
  have hlenc : w.cond_nconsts = cdims.length := hw.cond_nconsts.trans hc.length_eq.symm
  have hlenb : w.body_nconsts = bdims.length := hw.body_nconsts.trans hb.length_eq.symm
  have hleni : (init_dims.map Option.isSome).length = w.body_jaxpr.out_avals.length := by
    rw [List.length_map, hi.length_eq, hw.body_out]
  obtain ⟨carry_bat, hfix, hinit, hmapped, hlen⟩ := carryFixpoint_ok hbt size
    (bdims.map Option.isSome) hleni
    (n := 1 + (init_dims.map Option.isSome).length)
    (by omega)
  rw [hw.body_out] at hlen
  have hlenm := hbt.length_mapped w.cond_jaxpr size (cdims.map Option.isSome ++ carry_bat)
  rw [hw.cond_out] at hlenm
  obtain ⟨pred_mapped, hpred⟩ := List.length_eq_one_iff.mp hlenm
  have htake : (cdims ++ bdims ++ init_dims).take w.cond_nconsts = cdims := by
    rw [hlenc, List.append_assoc, List.take_left]
  have htake' : ((cdims ++ bdims ++ init_dims).drop w.cond_nconsts).take w.body_nconsts =
      bdims := by
    rw [hlenc, List.append_assoc, List.drop_left, hlenb, List.take_left]
  have hdrop : (cdims ++ bdims ++ init_dims).drop (w.cond_nconsts + w.body_nconsts) =
      init_dims := by
    rw [hlenc, hlenb, ← List.length_append, List.drop_left]
  unfold batchedWhile
  simp only [htake, htake', hdrop, hfix, ok_bind]
  by_cases hbat : outBatched bt w.cond_jaxpr size (cdims.map Option.isSome ++ carry_bat) [false] =
      [true]
  · -- the predicate is batched
    have hfits : Fits (carry_bat.map fun _ => some 0) sig.carry :=
      fits_map (k := 0) (fun _ => .inr rfl) hlen fun _ _ => Nat.zero_le _
    obtain ⟨body, hbody, hmapsb⟩ := batchJaxprAxes_ok hbt size
      (hw.body_in ▸ hb.append hfits) (hw.body_out ▸ hfits)
      (places_some (by rw [hbt.length_mapped, List.length_map, hlen, hw.body_out]) (by simp))
    have hfitc : Fits [some 0] w.cond_jaxpr.out_avals := by
      rw [hw.cond_out]
      exact .cons (by simp) .nil
    obtain ⟨cond, hcond, hmapsc⟩ := batchJaxprAxes_ok hbt size
      (hw.cond_in ▸ hc.append hfits) hfitc
      (places_some (by rw [hbt.length_mapped, hw.cond_out]; rfl) (by simp))
    rw [if_pos hbat, hbody, ok_bind, hcond, ok_bind]
    refine ⟨_, _, some 0, rfl, rfl, rfl, hmapsc, hmapsb, hfits, .inl ⟨rfl, ?_⟩,
      covers_map (by simp) hinit⟩
    intro d hd
    obtain ⟨_, _, rfl⟩ := List.mem_map.mp hd
    rfl
  · have hnot : pred_mapped = false := by
      rw [outBatched, hpred] at hbat
      simpa using hbat
    have hsome : ∀ b : Bool, (if b then some sig.pred.length else none).isSome = b := by
      intro b
      cases b <;> rfl
    have hfits : Fits (carry_bat.map fun b => if b then some sig.pred.length else none)
        sig.carry := by
      refine fits_map (k := sig.pred.length) (fun b => ?_) hlen fun aval ha =>
        (hpre aval ha).length_le
      cases b
      · exact .inl rfl
      · exact .inr rfl
    have hrank : (w.cond_jaxpr.out_avals.headD []).length = sig.pred.length := by
      rw [hw.cond_out]
      rfl
    obtain ⟨body, hbody, hmapsb⟩ := batchJaxprAxes_ok hbt size
      (hw.body_in ▸ hb.append hfits) (hw.body_out ▸ hfits) (by
        rw [List.map_append, map_isSome hsome]
        exact places_map (by simp) hmapped)
    have hfitc : Fits [none] w.cond_jaxpr.out_avals := by
      rw [hw.cond_out]
      exact .cons (by simp) .nil
    obtain ⟨cond, hcond, hmapsc⟩ := batchJaxprAxes_ok hbt size
      (hw.cond_in ▸ hc.append hfits) hfitc (by
        rw [List.map_append, map_isSome hsome, hpred, hnot]
        exact .cons (by simp) .nil)
    rw [if_neg hbat, hrank, hbody, ok_bind, hcond, ok_bind]
    refine ⟨_, _, none, rfl, rfl, rfl, hmapsc, hmapsb, hfits, .inr ⟨rfl, ?_⟩,
      covers_map (by simp) hinit⟩
    intro d hd
    obtain ⟨b, _, rfl⟩ := List.mem_map.mp hd
    cases b
    · exact .inl rfl
    · exact .inr rfl

end JaxDas.WhileBatching
