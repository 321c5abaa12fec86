import JaxDas.ScanSplit.Rule

/-!
# The split of the body

The fixpoint over the carry closes. After it, the body is in four parts: what is hoisted out of the
known loop, the body of the known loop, and the body of the staged loop, whose residuals come first
if they do not depend on the iteration and last if they do.
-/

namespace JaxDas.ScanSplit

variable {α : Type}

/-! ## The fixpoint -/

theorem carryFixpoint_ok {pe : PartialEvaluator α} (hpe : pe.Lawful) {s : Scan α}
    {sig : ScanSignature} (hs : s.Typed sig) {const_uk xs_uk : List Bool}
    (hc : const_uk.length = sig.consts.length) (hx : xs_uk.length = sig.xs.length) :
    ∀ {n : ℕ} {init_uk : List Bool}, init_uk.length = sig.carry.length →
      init_uk.length < n + init_uk.count true →
        ∃ carry_uk split res_avals, carryFixpoint pe s const_uk xs_uk n init_uk = .ok (carry_uk, split) ∧
          Below init_uk carry_uk ∧ carry_uk.length = sig.carry.length ∧
          split.unks_out.take s.num_carry = carry_uk ∧
          split.Splits s.jaxpr (const_uk ++ carry_uk ++ xs_uk)
            (carry_uk ++ List.replicate (s.jaxpr.out_avals.length - s.num_carry) false) res_avals
  | 0, init_uk, _, h => by
      have := List.count_le_length (a := true) (l := init_uk)
      omega
  | n + 1, init_uk, hlen, hn => by
      have hout : s.jaxpr.out_avals.length = s.num_carry + sig.ys.length := by
        rw [hs.body_out, List.length_append, hs.num_carry]
      obtain ⟨res_avals, hsplit⟩ := hpe.custom s.jaxpr (const_uk ++ init_uk ++ xs_uk)
        (init_uk ++ List.replicate (s.jaxpr.out_avals.length - s.num_carry) false)
        (by rw [hs.body_in, ScanSignature.body_in]; simp only [List.length_append]; omega)
        (by rw [List.length_append, List.length_replicate, hlen, ← hs.num_carry]; omega)
      rw [carryFixpoint]
      generalize pe.custom s.jaxpr (const_uk ++ init_uk ++ xs_uk)
        (init_uk ++ List.replicate (s.jaxpr.out_avals.length - s.num_carry) false) = split at hsplit ⊢
      -- what is unknown stays so
      have hbelow : Below init_uk (split.unks_out.take s.num_carry) := by
        have h := List.forall₂_take s.num_carry hsplit.ensured
        rwa [List.take_append_of_le_length (by rw [hlen, hs.num_carry]), List.take_of_length_le
          (by rw [hlen, hs.num_carry])] at h
      rcases hbelow.eq_or_count_lt with heq | hlt
      · exact ⟨init_uk, split, res_avals, if_pos heq.symm, Below.refl _, hlen, heq.symm, hsplit⟩
      · have hne : split.unks_out.take s.num_carry ≠ init_uk := by
          intro heq
          rw [heq] at hlt
          exact Nat.lt_irrefl _ hlt
        have hlength := hbelow.length_eq
        simp only [if_neg hne, zipWith_or_of_below hbelow]
        obtain ⟨carry_uk, split', res_avals', hfix, hbelow', hrest⟩ :=
          carryFixpoint_ok hpe hs hc hx (n := n) (hlength.symm.trans hlen) (by omega)
        exact ⟨carry_uk, split', res_avals', hfix, Below.trans hbelow hbelow', hrest⟩

/-! ## Moved binders -/

theorem moveBindersToFront_ok {jaxpr : ClosedJaxpr α} {to_move : List Bool}
    (h : jaxpr.in_avals.length = to_move.length) :
    ∃ moved, moveBindersToFront jaxpr to_move = .ok moved ∧
      moved.in_avals = moveToFront jaxpr.in_avals to_move ∧ moved.out_avals = jaxpr.out_avals ∧
      ∀ args, args.length = to_move.length →
        moved.eval (moveToFront args to_move) = jaxpr.eval args := by
  refine ⟨_, dif_pos h, rfl, rfl, fun args hargs => ?_⟩
  simp only [moveToFront]
  rw [← length_select hargs, List.drop_left, List.take_left, mergeLists_partition hargs]

theorem map_not_not (bs : List Bool) : (bs.map fun b => !b).map (fun b => !b) = bs := by
  rw [List.map_map]
  conv_rhs => rw [← List.map_id bs]
  exact List.map_congr_left fun b _ => Bool.not_not b

/-- The first elements go to the back. -/
theorem moveToFront_back {β : Type} {l r : List β} : moveToFront (l ++ r)
    ((List.replicate l.length true ++ List.replicate r.length false).map fun b => !b) = r ++ l := by
  rw [moveToFront, List.map_append, List.map_replicate, List.map_replicate,
    select_append _ _ (by simp), reject_append _ _ (by simp), Bool.not_true, Bool.not_false,
    select_replicate_false, select_replicate_true, reject_replicate_false, reject_replicate_true,
    List.nil_append, List.append_nil]

/-- Those of the last elements that are not marked go to the front. -/
theorem moveToFront_front {β : Type} {l r : List β} {bs : List Bool} :
    moveToFront (l ++ r) (List.replicate l.length false ++ bs.map fun b => !b) =
      reject r bs ++ (l ++ select r bs) := by
  rw [moveToFront, select_append _ _ (by simp), reject_append _ _ (by simp),
    select_replicate_false, reject_replicate_false, List.nil_append]
  congr 2
  rw [reject, map_not_not]

/-! ## The parts -/

/-- The residuals of the body on some arguments. -/
def CustomSplit.residuals (split : CustomSplit α) (unks_in : List Bool) (args : List (NdArray α)) :
    List (NdArray α) :=
  (split.jaxpr_known.eval (reject args unks_in)).drop (split.unks_out.count false)

/-- The parts that the rule makes of the body. -/
structure Parts (s : Scan α) (sig : ScanSignature) (const_uk carry_uk xs_uk ys_uk : List Bool)
    (split : CustomSplit α) (hoist loop staged : ClosedJaxpr α) (loop_dep_res : List Bool)
    (res_avals : List (List ℕ)) : Prop where
  unks_out : split.unks_out = carry_uk ++ ys_uk
  ys_length : ys_uk.length = sig.ys.length
  res_length : loop_dep_res.length = res_avals.length
  hoist_in : hoist.in_avals = reject sig.consts const_uk
  hoist_out : ∃ lp_avals, hoist.out_avals = reject res_avals loop_dep_res ++ lp_avals
  loop_out : loop.out_avals =
    reject sig.carry carry_uk ++ (reject sig.ys ys_uk ++ select res_avals loop_dep_res)
  staged_out : staged.out_avals = sig.carry ++ sig.ys
  res_shapes : ∀ args, args.map NdArray.shape = sig.body_in →
    (split.residuals (const_uk ++ carry_uk ++ xs_uk) args).map NdArray.shape = res_avals
  hoist_eval : ∀ consts c x, (consts ++ c ++ x).map NdArray.shape = sig.body_in →
    consts.length = const_uk.length → c.length = carry_uk.length →
    (hoist.eval (reject consts const_uk)).take (loop_dep_res.count false) =
      reject (split.residuals (const_uk ++ carry_uk ++ xs_uk) (consts ++ c ++ x)) loop_dep_res
  loop_eval : ∀ consts c x, (consts ++ c ++ x).map NdArray.shape = sig.body_in →
    consts.length = const_uk.length → c.length = carry_uk.length →
    loop.eval ((hoist.eval (reject consts const_uk)).drop (loop_dep_res.count false) ++
        reject c carry_uk ++ reject x xs_uk) =
      reject (s.jaxpr.eval (consts ++ c ++ x)) split.unks_out ++
        select (split.residuals (const_uk ++ carry_uk ++ xs_uk) (consts ++ c ++ x)) loop_dep_res
  staged_eval : ∀ args, args.map NdArray.shape = sig.body_in →
    staged.eval (reject (split.residuals (const_uk ++ carry_uk ++ xs_uk) args) loop_dep_res ++
        (args ++ select (split.residuals (const_uk ++ carry_uk ++ xs_uk) args) loop_dep_res)) =
      s.jaxpr.eval args

/-- The residuals, with what the known and the staged part make of them. -/
theorem CustomSplit.Splits.residuals_spec {split : CustomSplit α} {jaxpr : ClosedJaxpr α}
    {unks ensure : List Bool} {res_avals : List (List ℕ)} (h : split.Splits jaxpr unks ensure res_avals)
    {args : List (NdArray α)} (hargs : args.map NdArray.shape = jaxpr.in_avals) :
    split.jaxpr_known.eval (reject args unks) =
        reject (jaxpr.eval args) split.unks_out ++ split.residuals unks args ∧
      split.jaxpr_staged.eval (split.residuals unks args ++ args) = jaxpr.eval args ∧
      (split.residuals unks args).map NdArray.shape = res_avals := by
  obtain ⟨res, hknown, hstaged⟩ := h.eval args hargs
  have hout : (jaxpr.eval args).length = split.unks_out.length := by
    have hshapes := congrArg List.length (jaxpr.typed args hargs)
    rw [List.length_map] at hshapes
    rw [hshapes, h.unks_out]
  have hres : split.residuals unks args = res := by
    rw [CustomSplit.residuals, hknown, ← length_reject hout, List.drop_left]
  have htyped := split.jaxpr_known.typed (reject args unks) (by
    rw [← reject_map, hargs, h.known_in])
  rw [hknown, h.known_out, List.map_append, ← reject_map, jaxpr.typed args hargs] at htyped
  rw [hres]
  exact ⟨hknown, hstaged, List.append_cancel_left htyped⟩

/-- A mask that marks at least the first elements. -/
theorem below_replicate_true_append {k m : ℕ} {bs : List Bool}
    (h : Below (List.replicate k true ++ List.replicate m false) bs) :
    bs = List.replicate k true ++ bs.drop k ∧ (bs.drop k).length = m := by
  have hlen : bs.length = k + m := by
    rw [← h.length_eq, List.length_append, List.length_replicate, List.length_replicate]
  refine ⟨?_, by rw [List.length_drop, hlen]; omega⟩
  clear hlen
  induction k generalizing bs with
  | zero => rfl
  | succ k ih =>
      cases h with
      | @cons _ b _ bs hb h =>
          obtain rfl : b = true := hb rfl
          rw [List.replicate_succ, List.cons_append, List.drop_succ_cons, ← ih h]

/-- A mask that marks the second of two lists. -/
theorem partition_second {β : Type} {l r : List β} {a b : ℕ} (ha : l.length = a) (hb : r.length = b) :
    reject (l ++ r) (List.replicate a false ++ List.replicate b true) = l ∧
      select (l ++ r) (List.replicate a false ++ List.replicate b true) = r := by
  subst ha hb
  rw [reject_append _ _ (by simp), select_append _ _ (by simp), reject_replicate_false,
    reject_replicate_true, select_replicate_false, select_replicate_true, List.append_nil,
    List.nil_append]
  exact ⟨rfl, rfl⟩

/-- A mask that marks all of the first of two lists. -/
theorem partition_first {β : Type} {l r : List β} {k : ℕ} (bs : List Bool) (hk : l.length = k) :
    reject (l ++ r) (List.replicate k true ++ bs) = reject r bs ∧
      select (l ++ r) (List.replicate k true ++ bs) = l ++ select r bs := by
  subst hk
  rw [reject_append _ _ (by simp), select_append _ _ (by simp), reject_replicate_true,
    select_replicate_true, List.nil_append]
  exact ⟨rfl, rfl⟩

section

variable {pe : PartialEvaluator α} {s : Scan α} {sig : ScanSignature} {split : CustomSplit α}
  {const_uk carry_uk xs_uk ys_uk : List Bool} {res_avals : List (List ℕ)}

/-- The lengths of the masks. -/
structure Masks (sig : ScanSignature) (const_uk carry_uk xs_uk ys_uk : List Bool) : Prop where
  consts : const_uk.length = sig.consts.length
  carry : carry_uk.length = sig.carry.length
  xs : xs_uk.length = sig.xs.length
  ys : ys_uk.length = sig.ys.length

theorem reject_inputs {β : Type} {consts c x : List β} (hc : consts.length = const_uk.length)
    (hk : c.length = carry_uk.length) :
    reject (consts ++ c ++ x) (const_uk ++ carry_uk ++ xs_uk) =
      reject consts const_uk ++ (reject c carry_uk ++ reject x xs_uk) := by
  rw [reject_append _ _ (by simp [hc, hk]), reject_append _ _ hc, List.append_assoc]

/-- The known loop, and what is hoisted out of it. -/
theorem loop_parts (hs : s.Typed sig) (hm : Masks sig const_uk carry_uk xs_uk ys_uk)
    (hsplit : split.Splits s.jaxpr (const_uk ++ carry_uk ++ xs_uk)
      (carry_uk ++ List.replicate (s.jaxpr.out_avals.length - s.num_carry) false) res_avals)
    (hunks : split.unks_out = carry_uk ++ ys_uk) {loop : NounitsSplit α} {lp_avals : List (List ℕ)}
    (hloop : loop.Splits split.jaxpr_known
      (List.replicate (const_uk.count false) false ++
        List.replicate (carry_uk.count false + xs_uk.count false) true)
      (List.replicate (split.unks_out.count false) true ++ List.replicate split.num_res false)
      lp_avals) :
    let loop_dep_res := loop.out_unknowns.drop (split.unks_out.count false)
    loop.out_unknowns.length - split.num_res = split.unks_out.count false ∧
    loop_dep_res.length = res_avals.length ∧
    loop.jaxpr_known.in_avals = reject sig.consts const_uk ∧
    loop.jaxpr_known.out_avals = reject res_avals loop_dep_res ++ lp_avals ∧
    loop.jaxpr_unknown.out_avals =
      reject sig.carry carry_uk ++ (reject sig.ys ys_uk ++ select res_avals loop_dep_res) ∧
    ∀ consts c x, (consts ++ c ++ x).map NdArray.shape = sig.body_in →
      consts.length = const_uk.length → c.length = carry_uk.length →
      (loop.jaxpr_known.eval (reject consts const_uk)).take (loop_dep_res.count false) =
        reject (split.residuals (const_uk ++ carry_uk ++ xs_uk) (consts ++ c ++ x)) loop_dep_res ∧
      loop.jaxpr_unknown.eval
          ((loop.jaxpr_known.eval (reject consts const_uk)).drop (loop_dep_res.count false) ++
            reject c carry_uk ++ reject x xs_uk) =
        reject (s.jaxpr.eval (consts ++ c ++ x)) split.unks_out ++
          select (split.residuals (const_uk ++ carry_uk ++ xs_uk) (consts ++ c ++ x)) loop_dep_res := by
  intro loop_dep_res
  obtain ⟨hmask, hlen⟩ := below_replicate_true_append hloop.instantiated
  have hout : (reject s.jaxpr.out_avals split.unks_out).length = split.unks_out.count false :=
    length_reject hsplit.unks_out.symm
  have hin : split.jaxpr_known.in_avals =
      reject sig.consts const_uk ++ (reject sig.carry carry_uk ++ reject sig.xs xs_uk) := by
    rw [hsplit.known_in, hs.body_in, ScanSignature.body_in, reject_inputs hm.consts.symm hm.carry.symm]
  have hlen_in : ∀ {β : Type} {consts : List β}, consts.length = const_uk.length →
      (reject consts const_uk).length = const_uk.count false := fun h => length_reject h
  have hlen_rest : ∀ {β : Type} {c x : List β}, c.length = carry_uk.length →
      x.length = xs_uk.length → (reject c carry_uk ++ reject x xs_uk).length =
        carry_uk.count false + xs_uk.count false := fun hc hx => by
    rw [List.length_append, length_reject hc, length_reject hx]
  refine ⟨?_, hlen.trans hsplit.num_res, ?_, ?_, ?_, ?_⟩
  · have h := congrArg List.length hmask
    rw [List.length_append, List.length_replicate, hlen] at h
    omega
  · rw [hloop.known_in, hin]
    exact (partition_second (hlen_in hm.consts.symm) (hlen_rest hm.carry.symm hm.xs.symm)).1
  · rw [hloop.known_out, hsplit.known_out, hmask, (partition_first _ hout).1]
  · have hknown : reject s.jaxpr.out_avals split.unks_out =
        reject sig.carry carry_uk ++ reject sig.ys ys_uk := by
      rw [hs.body_out, hunks, reject_append _ _ hm.carry.symm]
    rw [hloop.unknown_out, hsplit.known_out, hmask, (partition_first _ hout).2, hknown,
      List.append_assoc]
  · intro consts c x hargs hc hk
    have hx : x.length = xs_uk.length := by
      have h := congrArg List.length hargs
      rw [ScanSignature.body_in] at h
      simp only [List.length_map, List.length_append] at h
      have := hm.consts
      have := hm.carry
      have := hm.xs
      omega
    obtain ⟨hknown, -, -⟩ := hsplit.residuals_spec (hargs.trans hs.body_in.symm)
    have hshapes : (reject (consts ++ c ++ x) (const_uk ++ carry_uk ++ xs_uk)).map NdArray.shape =
        split.jaxpr_known.in_avals := by
      rw [← reject_map, hargs, hsplit.known_in, hs.body_in]
    obtain ⟨res, hhoist, hlast⟩ := hloop.eval _ hshapes
    have houts : (reject (s.jaxpr.eval (consts ++ c ++ x)) split.unks_out).length =
        split.unks_out.count false := by
      refine length_reject ?_
      have h := congrArg List.length (s.jaxpr.typed _ (hargs.trans hs.body_in.symm))
      rw [List.length_map] at h
      rw [h, hsplit.unks_out]
    obtain ⟨hrej, hsel⟩ := partition_second (hlen_in hc) (hlen_rest hk hx)
    rw [hknown, hmask, (partition_first _ houts).1, reject_inputs hc hk, hrej] at hhoist
    rw [hknown, hmask, (partition_first _ houts).2, reject_inputs hc hk, hsel] at hlast
    have hcount : (reject (split.residuals (const_uk ++ carry_uk ++ xs_uk) (consts ++ c ++ x))
        loop_dep_res).length = loop_dep_res.count false := by
      refine length_reject ?_
      have h := congrArg List.length (hsplit.residuals_spec (hargs.trans hs.body_in.symm)).2.2
      rw [List.length_map] at h
      rw [h, hlen, hsplit.num_res]
    rw [hhoist]
    refine ⟨?_, ?_⟩
    · rw [← hcount]
      exact List.take_left
    · rw [← hcount, List.append_assoc]
      refine Eq.trans ?_ hlast
      congr 2
      exact List.drop_left

/-- The staged body, with its residuals moved. -/
theorem staged_parts (hs : s.Typed sig) {ensure inst_in loop_dep_res : List Bool}
    {unks : List Bool} (hsplit : split.Splits s.jaxpr unks ensure res_avals)
    (hinst : inst_in.length = sig.body_in.length) (hres : loop_dep_res.length = res_avals.length) :
    ∃ back staged, moveBindersToBack split.jaxpr_staged
        (List.replicate split.num_res true ++ List.replicate s.jaxpr.in_avals.length false) =
          .ok back ∧
      moveBindersToFront back
        (List.replicate inst_in.length false ++ loop_dep_res.map fun b => !b) = .ok staged ∧
      staged.out_avals = sig.carry ++ sig.ys ∧
      ∀ args, args.map NdArray.shape = sig.body_in →
        staged.eval (reject (split.residuals unks args) loop_dep_res ++
            (args ++ select (split.residuals unks args) loop_dep_res)) = s.jaxpr.eval args := by
  have hin : split.jaxpr_staged.in_avals.length =
      ((List.replicate split.num_res true ++ List.replicate s.jaxpr.in_avals.length false).map
        fun b => !b).length := by
    rw [hsplit.staged_in, hsplit.num_res]
    simp
  obtain ⟨back, hback, hback_in, hback_out, hback_eval⟩ := moveBindersToFront_ok hin
  have hback_in' : back.in_avals = s.jaxpr.in_avals ++ res_avals := by
    rw [hback_in, hsplit.staged_in, hsplit.num_res, moveToFront_back]
  have hin' : back.in_avals.length =
      (List.replicate inst_in.length false ++ loop_dep_res.map fun b => !b).length := by
    rw [hback_in', hs.body_in, List.length_append, ← hinst, ← hres]
    simp
  obtain ⟨staged, hstaged, -, hstaged_out, hstaged_eval⟩ := moveBindersToFront_ok hin'
  refine ⟨back, staged, hback, hstaged, ?_, fun args hargs => ?_⟩
  · rw [hstaged_out, hback_out, hsplit.staged_out, hs.body_out]
  · obtain ⟨-, heval, hshapes⟩ := hsplit.residuals_spec (hargs.trans hs.body_in.symm)
    have hrlen : (split.residuals unks args).length = res_avals.length := by
      rw [← hshapes, List.length_map]
    have halen : args.length = sig.body_in.length := by rw [← hargs, List.length_map]
    rw [← moveToFront_front, halen, ← hinst, hstaged_eval _ (by
      simp only [List.length_append, List.length_replicate, List.length_map]; omega)]
    have hmove := moveToFront_back (l := split.residuals unks args) (r := args)
    rw [hrlen, halen, ← hsplit.num_res, ← hs.body_in] at hmove
    rw [← hmove, hback_eval _ (by
      simp only [List.length_append, List.length_replicate, List.length_map, hs.body_in,
        hsplit.num_res]
      omega), heval]

end

/-- The rule splits the body in these parts. -/
theorem scanPartialEvalCustom_parts {pe : PartialEvaluator α} (hpe : pe.Lawful) {s : Scan α}
    {sig : ScanSignature} (hs : s.Typed sig) {const_uk init_uk xs_uk inst_in : List Bool}
    (is_var : List Bool) (hc : const_uk.length = sig.consts.length)
    (hi : init_uk.length = sig.carry.length) (hx : xs_uk.length = sig.xs.length)
    (hinst : inst_in.length = sig.body_in.length) :
    ∃ carry_uk ys_uk split hoist loop staged loop_dep_res res_avals,
      scanPartialEvalCustom pe s (const_uk ++ init_uk ++ xs_uk) inst_in is_var = .ok {
        unks_in := const_uk ++ carry_uk ++ xs_uk
        body := split
        loop_dep_res := loop_dep_res
        known := ⟨const_uk.count false, carry_uk.count false, loop_dep_res.count false, hoist, loop,
          s.length, s.reverse⟩
        staged := ⟨loop_dep_res.count false + s.num_consts, s.num_carry, s.length, s.reverse, staged⟩
        unks_out := split.unks_out
        inst_out := split.inst_out
        new_inst := List.zipWith (fun var inst => var && !inst) is_var inst_in } ∧
      Below init_uk carry_uk ∧ carry_uk.length = sig.carry.length ∧
      split.inst_out = List.replicate (sig.carry ++ sig.ys).length true ∧
      Parts s sig const_uk carry_uk xs_uk ys_uk split hoist loop staged loop_dep_res res_avals := by
  obtain ⟨carry_uk, split, res_avals, hfix, hbelow, hcarry, htake, hsplit⟩ :=
    carryFixpoint_ok hpe hs hc hx hi (n := 1 + init_uk.length) (by omega)
  have hunks : split.unks_out = carry_uk ++ split.unks_out.drop s.num_carry := by
    rw [← htake, List.take_append_drop]
  have hys : (split.unks_out.drop s.num_carry).length = sig.ys.length := by
    rw [List.length_drop, hsplit.unks_out, hs.body_out, List.length_append, hs.num_carry]
    omega
  have hm : Masks sig const_uk carry_uk xs_uk (split.unks_out.drop s.num_carry) :=
    ⟨hc, hcarry, hx, hys⟩
  obtain ⟨lp_avals, hloop⟩ := hpe.nounits split.jaxpr_known
    (List.replicate (const_uk.count false) false ++
      List.replicate (carry_uk.count false + xs_uk.count false) true)
    (List.replicate (split.unks_out.count false) true ++ List.replicate split.num_res false)
    (by
      rw [hsplit.known_in, hs.body_in, ScanSignature.body_in, reject_inputs hc.symm hcarry.symm]
      simp only [List.length_append, List.length_replicate, length_reject hc.symm,
        length_reject hcarry.symm, length_reject hx.symm])
    (by
      rw [hsplit.known_out, hsplit.num_res]
      simp only [List.length_append, List.length_replicate, length_reject hsplit.unks_out.symm])
  obtain ⟨hnum, hres, hhoist_in, hhoist_out, hloop_out, heval⟩ :=
    loop_parts hs hm hsplit hunks hloop
  obtain ⟨back, staged, hback, hstaged, hstaged_out, hstaged_eval⟩ :=
    staged_parts hs hsplit hinst hres
  refine ⟨carry_uk, _, split, _, _, staged, _, res_avals, ?_, hbelow, hcarry, ?_, hunks, hys, hres,
    hhoist_in, ⟨lp_avals, hhoist_out⟩, hloop_out, hstaged_out, fun args hargs =>
      (hsplit.residuals_spec (hargs.trans hs.body_in.symm)).2.2,
    fun consts c x hargs hc' hk => (heval consts c x hargs hc' hk).1,
    fun consts c x hargs hc' hk => (heval consts c x hargs hc' hk).2, hstaged_eval⟩
  · have htake' : (const_uk ++ init_uk ++ xs_uk).take s.num_consts = const_uk := by
      rw [hs.num_consts, ← hc, List.append_assoc, List.take_left]
    have htake'' : ((const_uk ++ init_uk ++ xs_uk).drop s.num_consts).take s.num_carry = init_uk := by
      rw [hs.num_consts, ← hc, List.append_assoc, List.drop_left, hs.num_carry, ← hi, List.take_left]
    have hdrop : (const_uk ++ init_uk ++ xs_uk).drop (s.num_consts + s.num_carry) = xs_uk := by
      rw [hs.num_consts, hs.num_carry, ← hc, ← hi, ← List.length_append, List.drop_left]
    unfold scanPartialEvalCustom
    simp only [htake', htake'', hdrop, hfix, ok_bind, hback, hnum, hstaged]
  · rw [hsplit.inst_out, hs.body_out]

end JaxDas.ScanSplit
