import JaxDas.WhileBatching.Semantic
import JaxDas.WhileBatching.Simulation

/-!
# Nested vmaps of a while loop

The rule is applied once for each vmap, the innermost one first; the next one batches the loop that
it made. An element of the nest is the loop with the operands at one index of every batch. If no
batch is empty, the last loop ends when all elements do, with the carry of each element at its
indices.
-/

namespace JaxDas.WhileBatching

variable {α : Type}

/-- One vmap: the size of its axis, and where the operands of the loop are batched. -/
structure Vmap where
  size : ℕ
  dims : List (Option ℕ)

def While.in_avals (w : While α) : List (List ℕ) :=
  w.cond_jaxpr.in_avals.take w.cond_nconsts ++ w.body_jaxpr.in_avals

/-- The loop after the vmaps, the outermost first, and where its carry is batched for each. -/
def vmapWhile (bt : Batcher α) (w : While α) :
    List Vmap → Except BatchingError (While α × List (List (Option ℕ)))
  | [] => .ok (w, [])
  | v :: vs => do
      let (inner, dims) ← vmapWhile bt w vs
      let (outer, carry_dims) ← batchedWhile bt v.size inner v.dims
      .ok (outer, carry_dims :: dims)

/-- The operands of each vmap have the axes that it batches. -/
def VmapsFit (bt : Batcher α) (w : While α) : List Vmap → Prop
  | [] => True
  | v :: vs => VmapsFit bt w vs ∧
      ∀ inner dims, vmapWhile bt w vs = .ok (inner, dims) → Fits v.dims inner.in_avals

/-- The operands of the last loop, and those of each element. The rule is given batched operands; at
an index of the batch they are the operands that the vmap inside bound. -/
def Operands (bt : Batcher α) (w : While α) :
    List Vmap → List (NdArray α) → (List ℕ → List (NdArray α)) → Prop
  | [], ops, elems => elems [] = ops ∧ ops.map NdArray.shape = w.in_avals
  | v :: vs, ops, elems => ∃ inner dims outer carry_dims args,
      vmapWhile bt w vs = .ok (inner, dims) ∧ Batched v.size v.dims inner.in_avals args ∧
      whileLoopBatchingRule bt v.size inner args v.dims = .ok (outer, ops, carry_dims) ∧
      ∀ b < v.size, Operands bt w vs (sliceAll v.dims b args) fun bs => elems (b :: bs)

/-- The outputs at an index of every batch. -/
def outputsAt : List (List (Option ℕ)) → List (NdArray α) → List ℕ → List (NdArray α)
  | dims :: rest, outs, b :: bs => outputsAt rest (sliceAll dims b outs) bs
  | _, outs, _ => outs

/-! ## Operands -/

theorem While.Typed.in_avals_eq {w : While α} {sig : Signature} (hw : w.Typed sig) :
    w.in_avals = sig.in_avals := by
  rw [While.in_avals, hw.cond_in, hw.body_in, hw.cond_nconsts, List.take_left, Signature.in_avals,
    List.append_assoc]

/-- The carry is moved or broadcast to its axes. -/
theorem newInit_ok {size : ℕ} {init_dims carry_dims : List (Option ℕ)} {avals : List (List ℕ)}
    (hi : Fits init_dims avals) (hc : Fits carry_dims avals)
    (hcovers : List.Forall₂ (fun i c => i ≠ none → c ≠ none) init_dims carry_dims) :
    ∀ {init : List (NdArray α)}, Batched size init_dims avals init →
      ∃ new, newInit size init init_dims carry_dims = .ok new ∧ Batched size carry_dims avals new ∧
        ∀ b < size, sliceAll carry_dims b new = sliceAll init_dims b init := by
  unfold Batched
  induction hcovers generalizing avals with
  | nil =>
      cases hi
      intro init h
      rw [List.map_eq_nil_iff.mp h]
      exact ⟨[], rfl, rfl, fun _ _ => rfl⟩
  | @cons i c init_dims carry_dims hic _ ih =>
      cases hi with
      | @cons _ aval _ avals hi his =>
      cases hc with
      | cons hc hcs =>
      intro init h
      cases init with
      | nil => exact nomatch h
      | cons x init =>
          injection h with hx h
          obtain ⟨ys, hys, hshapes, hslices⟩ := ih his hcs h
          have hone : ∃ y, newInitOne size x i c = .ok y ∧
              y.shape = c.elim aval (fun k => aval.insertIdx k size) ∧
              ∀ b < size, sliceAxis c b y = sliceAxis i b x := by
            cases c with
            | none =>
                cases i with
                | none => exact ⟨x, rfl, hx, fun _ _ => rfl⟩
                | some j => exact absurd rfl (hic (by simp))
            | some k =>
                have hk := hc k rfl
                cases i with
                | none =>
                    have hx : x.shape = aval := hx
                    have hk' : k ≤ x.shape.length := hx ▸ hk
                    exact ⟨_, rfl, by rw [NdArray.broadcast_shape hk', hx]; rfl,
                      fun b hb => NdArray.slice_broadcast hk' hb⟩
                | some j =>
                    have hj := hi j rfl
                    exact ⟨_, rfl, NdArray.moveaxis_shape hx hj hk,
                      fun b hb => NdArray.slice_moveaxis hx hj hk hb⟩
          obtain ⟨y, hy, hshape, hslice⟩ := hone
          refine ⟨y :: ys, by rw [newInit, hy, ok_bind, hys]; rfl, ?_, fun b hb => ?_⟩
          · rw [List.map_cons, hshape, hshapes]
            rfl
          · have htail := hslices b hb
            unfold sliceAll at htail ⊢
            rw [List.zipWith_cons_cons, List.zipWith_cons_cons, hslice b hb, htail]

theorem Batched.split {size : ℕ} {axes axes' : List (Option ℕ)} {avals avals' : List (List ℕ)}
    {xs : List (NdArray α)} (hfits : Fits axes avals)
    (h : Batched size (axes ++ axes') (avals ++ avals') xs) :
    ∃ ys zs, xs = ys ++ zs ∧ Batched size axes avals ys ∧ Batched size axes' avals' zs := by
  unfold Batched at h
  rw [batchedAvals_append hfits.length_eq] at h
  obtain ⟨ys, zs, rfl, hy, hz⟩ := List.map_eq_append_iff.mp h
  exact ⟨ys, zs, rfl, hy, hz⟩

theorem lower_append {w : While α} {holds : α → Bool} {x y z : List (NdArray α)} {n : ℕ}
    (hx : x.length = w.cond_nconsts) (hy : y.length = w.body_nconsts) :
    w.lower holds n (x ++ y ++ z) = w.run holds x y n z := by
  unfold While.lower
  have htake : (x ++ y ++ z).take w.cond_nconsts = x := by
    rw [← hx, List.append_assoc, List.take_left]
  have htake' : ((x ++ y ++ z).drop w.cond_nconsts).take w.body_nconsts = y := by
    rw [← hx, List.append_assoc, List.drop_left, ← hy, List.take_left]
  have hdrop : (x ++ y ++ z).drop (w.cond_nconsts + w.body_nconsts) = z := by
    rw [← hx, ← hy, ← List.length_append, List.drop_left]
  rw [htake, htake', hdrop]

theorem mem_batchedAvals {size : ℕ} {aval : List ℕ} : ∀ {axes : List (Option ℕ)}
    {avals : List (List ℕ)}, aval ∈ batchedAvals size axes avals →
      ∃ d ∈ axes, ∃ a ∈ avals, aval = d.elim a fun k => a.insertIdx k size
  | [], _, h => absurd h (by simp [batchedAvals])
  | _ :: _, [], h => absurd h (by simp [batchedAvals])
  | d :: axes, a :: avals, h => by
      rcases List.mem_cons.mp h with rfl | h
      · exact ⟨d, List.mem_cons_self, a, List.mem_cons_self, rfl⟩
      · obtain ⟨e, he, c, hc, heq⟩ := mem_batchedAvals h
        exact ⟨e, List.mem_cons_of_mem _ he, c, List.mem_cons_of_mem _ hc, heq⟩

/-! ## One more level -/

/-- A split of what the rule is given, and what it binds. -/
structure Bound (size : ℕ) (cdims bdims init_dims carry_dims : List (Option ℕ)) (sig : Signature)
    (args ops x y init z : List (NdArray α)) : Prop where
  args_eq : args = x ++ y ++ init
  ops_eq : ops = x ++ y ++ z
  cconsts : Batched size cdims sig.cconsts x
  bconsts : Batched size bdims sig.bconsts y
  carry : Batched size carry_dims sig.carry z
  slices : ∀ b < size, sliceAll carry_dims b z = sliceAll init_dims b init

namespace Level

variable {w batched : While α} {sig : Signature} {size : ℕ}
  {cdims bdims init_dims carry_dims : List (Option ℕ)} {pred_dim : Option ℕ}
  (h : Level w batched sig size cdims bdims init_dims carry_dims pred_dim)
  (hw : w.Typed sig) (hc : Fits cdims sig.cconsts) (hb : Fits bdims sig.bconsts)
include h

/-- The shape of the predicate stays a prefix of that of every carry. -/
theorem prefixed (hpre : sig.Prefixed) :
    (sig.batched size cdims bdims carry_dims pred_dim).Prefixed := by
  have hone : ∀ d ∈ carry_dims, ∀ aval : List ℕ, sig.pred <+: aval →
      pred_dim.elim sig.pred (fun k => sig.pred.insertIdx k size) <+:
        d.elim aval fun k => aval.insertIdx k size := by
    intro d hd aval ha
    rcases h.kind with ⟨rfl, hall⟩ | ⟨rfl, hall⟩
    · obtain rfl := hall d hd
      exact (List.prefix_cons_inj size).mpr ha
    · rcases hall d hd with rfl | rfl
      · exact ha
      · have htake := List.take_insertIdx_eq_take_of_le aval size _ _ (Nat.le_refl sig.pred.length)
        rw [← List.prefix_iff_eq_take.mp ha] at htake
        exact List.prefix_iff_eq_take.mpr htake.symm
  intro aval haval
  obtain ⟨d, hd, aval, ha, rfl⟩ := mem_batchedAvals haval
  exact hone d hd aval (hpre aval ha)

include hw hc hb

theorem operands_ok (hi : Fits init_dims sig.carry) {args : List (NdArray α)}
    (hargs : Batched size (cdims ++ bdims ++ init_dims) sig.in_avals args) :
    ∃ ops x y init z, batchedOperands size w args (cdims ++ bdims ++ init_dims) carry_dims = .ok ops ∧
      Bound size cdims bdims init_dims carry_dims sig args ops x y init z := by
  obtain ⟨xy, init, rfl, hxy, hinit⟩ := hargs.split (hc.append hb)
  obtain ⟨x, y, rfl, hx, hy⟩ := hxy.split hc
  obtain ⟨z, hz, hshapes, hslices⟩ := newInit_ok hi h.fits h.covers hinit
  have hlen : (x ++ y).length = w.cond_nconsts + w.body_nconsts := by
    rw [List.length_append, hx.length hc, hy.length hb, hw.cond_nconsts, hw.body_nconsts,
      hc.length_eq, hb.length_eq]
  have hdims : (cdims ++ bdims).length = w.cond_nconsts + w.body_nconsts := by
    rw [List.length_append, hw.cond_nconsts, hw.body_nconsts, hc.length_eq, hb.length_eq]
  refine ⟨x ++ y ++ z, x, y, init, z, ?_, rfl, rfl, hx, hy, hshapes, hslices⟩
  unfold batchedOperands
  simp only [← hlen, List.drop_left, List.take_left]
  rw [hlen, ← hdims, List.drop_left, hz]
  rfl

end Level

/-! ## All of them -/

/-- Runs of finitely many loops end within some fuel. -/
theorem exists_fuel {w : While α} {holds : α → Bool} {x y z out : ℕ → List (NdArray α)} :
    ∀ {size : ℕ}, (∀ b < size, ∃ n, w.run holds (x b) (y b) n (z b) = some (out b)) →
      ∃ n, ∀ b < size, w.run holds (x b) (y b) n (z b) = some (out b)
  | 0, _ => ⟨0, fun _ hb => absurd hb (Nat.not_lt_zero _)⟩
  | size + 1, h => by
      obtain ⟨n, hn⟩ := exists_fuel fun b hb => h b (Nat.lt_succ_of_lt hb)
      obtain ⟨m, hm⟩ := h size (Nat.lt_succ_self size)
      refine ⟨max n m, fun b hb => ?_⟩
      rcases Nat.lt_succ_iff_lt_or_eq.mp hb with hb | rfl
      · exact While.run_mono (Nat.le_max_left n m) (hn b hb)
      · exact While.run_mono (Nat.le_max_right n m) hm

/-- The carry of the last loop is that of each element: what holds of the operands of a nest. -/
def Runs (holds : α → Bool) (bt : Batcher α) (w outer : While α) (vs : List Vmap)
    (carry_dims : List (List (Option ℕ))) : Prop :=
  ∀ (ops : List (NdArray α)) (elems out : List ℕ → List (NdArray α)), Operands bt w vs ops elems →
    (∀ bs, Within (vs.map Vmap.size) bs → ∃ n, w.lower holds n (elems bs) = some (out bs)) →
      ∃ n outs, outer.lower holds n ops = some outs ∧
        ∀ bs, Within (vs.map Vmap.size) bs → outputsAt carry_dims outs bs = out bs

/-- One more vmap. -/
theorem runs_cons {holds : α → Bool} {bt : Batcher α} {w inner batched : While α} {v : Vmap}
    {vs : List Vmap} {dims : List (List (Option ℕ))} {sig : Signature}
    {cdims bdims init_dims carry_dims : List (Option ℕ)} {pred_dim : Option ℕ}
    (hvmap : vmapWhile bt w vs = .ok (inner, dims)) (hruns : Runs holds bt w inner vs dims)
    (hinner : inner.Typed sig) (hv : v.dims = cdims ++ bdims ++ init_dims)
    (hc : Fits cdims sig.cconsts) (hb : Fits bdims sig.bconsts) (hi : Fits init_dims sig.carry)
    (hbatched : batchedWhile bt v.size inner v.dims = .ok (batched, carry_dims))
    (h : Level inner batched sig v.size cdims bdims init_dims carry_dims pred_dim)
    (hsize : 0 < v.size) : Runs holds bt w batched (v :: vs) (carry_dims :: dims) := by
  intro ops elems out hops hends
  obtain ⟨inner', dims', outer, carry_dims', args, hvmap', hargs, hrule, helems⟩ := hops
  rw [hvmap] at hvmap'
  obtain ⟨rfl, rfl⟩ := Prod.mk.inj (Except.ok.inj hvmap')
  rw [whileLoopBatchingRule, hbatched, ok_bind] at hrule
  obtain ⟨ops', hoperands, hrule⟩ := bind_ok.mp hrule
  obtain ⟨rfl, hbound⟩ := Prod.mk.inj (Except.ok.inj hrule)
  obtain ⟨rfl, rfl⟩ := Prod.mk.inj hbound
  rw [hinner.in_avals_eq, hv] at hargs
  rw [hv] at hoperands
  obtain ⟨ops, x, y, init, z, hoperands', hbound⟩ := h.operands_ok hinner hc hb hi hargs
  rw [hoperands] at hoperands'
  obtain rfl := Except.ok.inj hoperands'
  obtain ⟨rfl, rfl, hx, hy, hz, hslices⟩ := hbound
  -- the elements at each index of this batch
  have heach : ∀ b : ℕ, ∃ outs, b < v.size →
      (∃ n, inner.run holds (sliceAll cdims b x) (sliceAll bdims b y) n (sliceAll carry_dims b z) =
        some outs) ∧
      ∀ bs, Within (vs.map Vmap.size) bs → outputsAt dims outs bs = out (b :: bs) := by
    intro b
    by_cases hlt : b < v.size
    · obtain ⟨n, outs, hrun, hout⟩ := hruns _ _ (fun bs => out (b :: bs)) (helems b hlt)
        fun bs hbs => hends (b :: bs) (.cons hlt hbs)
      refine ⟨outs, fun _ => ⟨⟨n, ?_⟩, hout⟩⟩
      rw [hv, sliceAll_append (by
          rw [List.length_append, List.length_append, hx.length hc, hy.length hb]),
        sliceAll_append (hx.length hc).symm, ← hslices b hlt] at hrun
      rwa [lower_append] at hrun
      · have := congrArg List.length (hx.slice hc hlt)
        rwa [List.length_map, ← hinner.cond_nconsts] at this
      · have := congrArg List.length (hy.slice hb hlt)
        rwa [List.length_map, ← hinner.body_nconsts] at this
    · exact ⟨[], fun hlt' => absurd hlt' hlt⟩
  choose outs houts using heach
  obtain ⟨n, hn⟩ := exists_fuel fun b hlt => (houts b hlt).1
  obtain ⟨last, hrun, -, hlast⟩ := h.run_slices hinner hc hb hsize hx hy hz hn
  refine ⟨n, last, ?_, fun bs hbs => ?_⟩
  · rw [lower_append, hrun]
    · rw [hx.length hc, h.cond_nconsts, hinner.cond_nconsts, hc.length_eq]
    · rw [hy.length hb, h.body_nconsts, hinner.body_nconsts, hb.length_eq]
  · cases hbs with
    | cons hlt hbs =>
        rw [outputsAt, hlast _ hlt]
        exact (houts _ hlt).2 _ hbs

/-- The rule makes a loop for every nest of vmaps and takes all operands of the right shapes. The
shape of the predicate is a prefix of that of every carry, and if no batch is empty the loop ends
when the loops of all elements do, with the carry of each. -/
theorem vmapWhile_runs {bt : Batcher α} (hbt : bt.Lawful) {w : While α} {sig : Signature}
    (hw : w.Typed sig) (hpred : sig.pred = []) (holds : α → Bool) : ∀ {vs : List Vmap},
      VmapsFit bt w vs → ∃ outer carry_dims outer_sig, vmapWhile bt w vs = .ok (outer, carry_dims) ∧
        outer.Typed outer_sig ∧ outer_sig.Prefixed ∧
        (∀ (v : Vmap) (args : List (NdArray α)), Fits v.dims outer.in_avals →
          Batched v.size v.dims outer.in_avals args →
            ∃ bound, whileLoopBatchingRule bt v.size outer args v.dims = .ok bound) ∧
        ((∀ v ∈ vs, 0 < v.size) → Runs holds bt w outer vs carry_dims) := by
  have hlevel : ∀ {inner : While α} {inner_sig : Signature}, inner.Typed inner_sig →
      inner_sig.Prefixed → ∀ v : Vmap, Fits v.dims inner.in_avals →
        ∃ cdims bdims init_dims batched carry_dims pred_dim, v.dims = cdims ++ bdims ++ init_dims ∧
          Fits cdims inner_sig.cconsts ∧ Fits bdims inner_sig.bconsts ∧
          Fits init_dims inner_sig.carry ∧
          batchedWhile bt v.size inner v.dims = .ok (batched, carry_dims) ∧
          Level inner batched inner_sig v.size cdims bdims init_dims carry_dims pred_dim := by
    intro inner inner_sig hinner hpre v hfits
    rw [hinner.in_avals_eq] at hfits
    obtain ⟨consts, init_dims, hv, hconsts, hi⟩ := hfits.split
    obtain ⟨cdims, bdims, rfl, hc, hb⟩ := hconsts.split
    obtain ⟨batched, carry_dims, pred_dim, hbatched, h⟩ :=
      @batchedWhile_ok _ _ hbt inner inner_sig hinner hpre v.size cdims bdims init_dims hc hb hi
    exact ⟨cdims, bdims, init_dims, batched, carry_dims, pred_dim, hv, hc, hb, hi, hv ▸ hbatched, h⟩
  have hrule : ∀ {inner : While α} {inner_sig : Signature}, inner.Typed inner_sig →
      inner_sig.Prefixed → ∀ (v : Vmap) (args : List (NdArray α)), Fits v.dims inner.in_avals →
        Batched v.size v.dims inner.in_avals args →
          ∃ bound, whileLoopBatchingRule bt v.size inner args v.dims = .ok bound := by
    intro inner inner_sig hinner hpre v args hfits hargs
    obtain ⟨cdims, bdims, init_dims, batched, carry_dims, pred_dim, hv, hc, hb, hi, hbatched, h⟩ :=
      hlevel hinner hpre v hfits
    rw [hinner.in_avals_eq, hv] at hargs
    obtain ⟨ops, _, _, _, _, hops, -⟩ := h.operands_ok hinner hc hb hi hargs
    rw [← hv] at hops
    refine ⟨(batched, ops, carry_dims), ?_⟩
    rw [whileLoopBatchingRule, hbatched, ok_bind]
    simp only [hops, ok_bind]
  intro vs
  induction vs with
  | nil =>
      intro _
      have hpre : sig.Prefixed := by
        intro aval _
        rw [hpred]
        exact List.nil_prefix
      refine ⟨w, [], sig, rfl, hw, hpre, hrule hw hpre, fun _ => ?_⟩
      rintro ops elems out ⟨rfl, -⟩ hends
      obtain ⟨n, hn⟩ := hends [] .nil
      refine ⟨n, out [], hn, fun bs hbs => ?_⟩
      cases hbs
      rfl
  | cons v vs ih =>
      intro hfit
      obtain ⟨inner, dims, inner_sig, hvmap, hinner, hpre, -, hruns⟩ := ih hfit.1
      obtain ⟨cdims, bdims, init_dims, batched, carry_dims, pred_dim, hv, hc, hb, hi, hbatched, h⟩ :=
        hlevel hinner hpre v (hfit.2 inner dims hvmap)
      have htyped := h.typed hinner hc hb
      have hpre' := h.prefixed hpre
      refine ⟨batched, carry_dims :: dims, _, ?_, htyped, hpre', hrule htyped hpre', ?_⟩
      · rw [vmapWhile, hvmap, ok_bind]
        simp only [hbatched, ok_bind]
      · intro hsizes
        exact runs_cons hvmap (hruns fun u hu => hsizes u (List.mem_cons_of_mem _ hu)) hinner hv hc
          hb hi hbatched h (hsizes v List.mem_cons_self)

/-- `lambda i: i` as the condition and `lambda i: i - 1` as the body. -/
def countdown : While ℕ where
  cond_nconsts := 0
  cond_jaxpr := ⟨[[]], [[]], id, fun _ h => h⟩
  body_nconsts := 0
  body_jaxpr := ⟨[[]], [[]], fun args => args.map fun x => x.map (· - 1), by
    intro args h
    rw [← h, List.map_map]
    rfl⟩

theorem countdown_typed : countdown.Typed ⟨[], [], [[]], []⟩ := ⟨rfl, rfl, rfl, rfl, rfl, rfl⟩

/-- Countdowns from two numbers. -/
theorem countdown_runs : ∃ outer carry_dims,
    vmapWhile semanticBatcher countdown [⟨2, [some 0]⟩] = .ok (outer, carry_dims) ∧
      Runs (· ≠ 0) semanticBatcher countdown outer [⟨2, [some 0]⟩] carry_dims := by
  have hfit : VmapsFit semanticBatcher countdown [⟨2, [some 0]⟩] := by
    refine ⟨trivial, fun inner dims h => ?_⟩
    obtain ⟨rfl, -⟩ := Prod.mk.inj (Except.ok.inj h)
    exact .cons (by simp) .nil
  obtain ⟨outer, carry_dims, _, hvmap, _, _, _, hruns⟩ :=
    vmapWhile_runs semanticBatcher_lawful countdown_typed rfl (· ≠ 0) hfit
  exact ⟨outer, carry_dims, hvmap, hruns (by simp)⟩

/-! ## An empty batch -/

/-- A loop that does not end, with a constant that its condition does not look at. -/
def endless : While ℕ where
  cond_nconsts := 1
  cond_jaxpr := ⟨[[], []], [[]], fun _ => [.fill [] 1], fun _ _ => rfl⟩
  body_nconsts := 0
  body_jaxpr := ⟨[[]], [[]], id, fun _ h => h⟩

/-- With the constant batched along an axis of size zero, the loop runs on, although there is no
element whose loop would. -/
theorem empty_batch_runs_on : ¬ ∃ outer carry_dims,
    vmapWhile semanticBatcher endless [⟨0, [some 0, none]⟩] = .ok (outer, carry_dims) ∧
      Runs (· ≠ 0) semanticBatcher endless outer [⟨0, [some 0, none]⟩] carry_dims := by
  have hcond : (semanticBatcher : Batcher ℕ).mapped endless.cond_jaxpr 0 [true, false] = [false] := by
    have h : ¬ Depends endless.cond_jaxpr [true, false] 0 := by
      rintro ⟨_, _, _, _, _, hne⟩
      exact hne rfl
    simp [semanticBatcher, dependents, endless] at h ⊢
    exact h
  have hbody : (semanticBatcher : Batcher ℕ).mapped endless.body_jaxpr 0 [false] = [false] := by
    have h : ¬ Depends endless.body_jaxpr [false] 0 := by
      rintro ⟨xs, ys, _, _, hsame, hne⟩
      exact hne (hsame 0 rfl)
    simp [semanticBatcher, dependents, endless] at h ⊢
    exact h
  have hbatched : batchedWhile semanticBatcher 0 endless [some 0, none] = .ok
      (⟨1, semanticBatcher.jaxpr endless.cond_jaxpr 0 [some 0, none] [none], 0,
        semanticBatcher.jaxpr endless.body_jaxpr 0 [none] [none]⟩, [none]) := by
    have hfix : carryFixpoint semanticBatcher endless.body_jaxpr 0 [] 2 [false] = .ok [false] := by
      rw [carryFixpoint, outBatched, List.nil_append, hbody]
      rfl
    have hpred : outBatched semanticBatcher endless.cond_jaxpr 0 [true, false] [false] = [false] := by
      rw [outBatched, hcond]
      rfl
    have haxes : batchJaxprAxes semanticBatcher endless.body_jaxpr 0 [none] [none] =
        .ok (semanticBatcher.jaxpr endless.body_jaxpr 0 [none] [none]) := by
      have hplaces : Places ((semanticBatcher : Batcher ℕ).mapped endless.body_jaxpr 0 [false])
          [none] := by
        rw [hbody]
        exact .cons (by simp) .nil
      exact if_pos hplaces
    have haxes' : batchJaxprAxes semanticBatcher endless.cond_jaxpr 0 [some 0, none] [none] =
        .ok (semanticBatcher.jaxpr endless.cond_jaxpr 0 [some 0, none] [none]) := by
      have hplaces : Places ((semanticBatcher : Batcher ℕ).mapped endless.cond_jaxpr 0 [true, false])
          [none] := by
        rw [hcond]
        exact .cons (by simp) .nil
      exact if_pos hplaces
    have hrule : batchedWhile semanticBatcher 0 endless [some 0, none] =
        (carryFixpoint semanticBatcher endless.body_jaxpr 0 [] 2 [false] >>= fun carry_bat =>
          if outBatched semanticBatcher endless.cond_jaxpr 0 ([true] ++ carry_bat) [false] = [true]
          then do
            let body ← batchJaxprAxes semanticBatcher endless.body_jaxpr 0
              (carry_bat.map fun _ => some 0) (carry_bat.map fun _ => some 0)
            let cond ← batchJaxprAxes semanticBatcher endless.cond_jaxpr 0
              (some 0 :: carry_bat.map fun _ => some 0) [some 0]
            .ok (⟨1, cond, 0, body⟩, carry_bat.map fun _ => some 0)
          else do
            let body ← batchJaxprAxes semanticBatcher endless.body_jaxpr 0
              (carry_bat.map fun b => if b then some 0 else none)
              (carry_bat.map fun b => if b then some 0 else none)
            let cond ← batchJaxprAxes semanticBatcher endless.cond_jaxpr 0
              (some 0 :: carry_bat.map fun b => if b then some 0 else none) [none]
            .ok (⟨1, cond, 0, body⟩, carry_bat.map fun b => if b then some 0 else none)) := rfl
    rw [hrule, hfix, ok_bind, List.singleton_append, hpred, if_neg (by simp)]
    exact bind_ok.mpr ⟨_, haxes, bind_ok.mpr ⟨_, haxes', rfl⟩⟩
  rintro ⟨outer, carry_dims, hvmap, hruns⟩
  rw [vmapWhile, vmapWhile, ok_bind] at hvmap
  simp only [hbatched, ok_bind] at hvmap
  obtain ⟨rfl, rfl⟩ := Prod.mk.inj (Except.ok.inj hvmap)
  obtain ⟨n, outs, hrun, -⟩ := hruns [.fill [0] 0, .fill [] 0] (fun _ => []) (fun _ => [])
    ⟨endless, [], _, [none], [.fill [0] 0, .fill [] 0], rfl, rfl, by
      rw [whileLoopBatchingRule, hbatched]
      rfl, fun _ hb => absurd hb (Nat.not_lt_zero _)⟩ fun bs hbs => by
      cases hbs with
      | cons hlt _ => exact absurd hlt (Nat.not_lt_zero _)
  -- the predicate is the constant of the condition, whatever the carry
  have hnever : ∀ (n : ℕ) (x y z : List (NdArray ℕ)), (While.mk 1
      (semanticBatcher.jaxpr endless.cond_jaxpr 0 [some 0, none] [none]) 0
      (semanticBatcher.jaxpr endless.body_jaxpr 0 [none] [none])).run (· ≠ 0) x y n z = none := by
    intro n x y
    induction n with
    | zero => exact fun _ => rfl
    | succ n ih =>
        intro z
        rw [While.run, if_pos, ih]
        rfl
  rw [While.lower, hnever] at hrun
  cases hrun

end JaxDas.WhileBatching
