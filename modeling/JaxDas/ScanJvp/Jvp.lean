import JaxDas.ScanJvp.Dense

/-!
# The derivative by one scan

`_scan_jvp` runs the body and its derivative in one scan, whose carry is the carry with those of its
tangents that are not left out.
-/

namespace JaxDas.ScanJvp

open ScanSplit

variable {α : Type}

/-! ## Rearranged binders -/

theorem rearrangeBinders_ok {jaxpr : ClosedJaxpr α} {ps ts po dots : List ℕ}
    (h : ps.length = ts.length) (hlen : jaxpr.in_avals.length = ps.sum + ts.sum) :
    ∃ rearranged, rearrangeBinders jaxpr ps ts po dots = .ok rearranged ∧
      rearranged.out_avals = perm po dots jaxpr.out_avals ∧
      ∀ args, args.length = ps.sum + ts.sum →
        rearranged.eval (perm ps ts args) = perm po dots (jaxpr.eval args) := by
  refine ⟨_, dif_pos ⟨h, hlen⟩, rfl, fun args hargs => ?_⟩
  simp only [unperm_perm h hargs]

section Groups

variable {β : Type} {a b c a' b' c' : List β} {p q r p' q' r' : ℕ}

/-- Two groups, each with that of the tangents after it. -/
theorem perm_two (ha : a.length = p) (hb : b.length = q) (ha' : a'.length = p') :
    perm [p, q] [p', q'] (a ++ b ++ (a' ++ b')) = a ++ a' ++ (b ++ b') := by
  have hlen : (a ++ b).length = [p, q].sum := by simp [ha, hb]
  rw [perm, List.take_left' hlen, List.drop_left' hlen]
  subst ha ha'
  simp [splitList, interleave]

theorem perm_three (ha : a.length = p) (hb : b.length = q) (hc : c.length = r)
    (ha' : a'.length = p') (hb' : b'.length = q') :
    perm [p, q, r] [p', q', r'] (a ++ b ++ c ++ (a' ++ b' ++ c')) =
      a ++ a' ++ (b ++ b') ++ (c ++ c') := by
  have hlen : (a ++ b ++ c).length = [p, q, r].sum := by
    simp only [List.length_append, ha, hb, hc, List.sum_cons, List.sum_nil]
    omega
  rw [perm, List.take_left' hlen, List.drop_left' hlen]
  subst ha hb ha' hb'
  simp [splitList, interleave]

/-- The three groups of the operands of a scan. -/
theorem three_parts (ha : a.length = p) (hb : b.length = q) : (a ++ b ++ c).take p = a ∧
    ((a ++ b ++ c).drop p).take q = b ∧ (a ++ b ++ c).drop (p + q) = c := by
  subst ha hb
  refine ⟨?_, ?_, ?_⟩
  · rw [List.append_assoc, List.take_left]
  · rw [List.append_assoc, List.drop_left, List.take_left]
  · rw [← List.length_append, List.drop_left]

/-- The four groups of what the scan returns. -/
theorem four_parts {d : List β} (ha : a.length = p) (hb : b.length = q) (hc : c.length = r) :
    (a ++ b ++ (c ++ d)).take p = a ∧ ((a ++ b ++ (c ++ d)).drop p).take q = b ∧
      ((a ++ b ++ (c ++ d)).drop (p + q)).take r = c ∧ (a ++ b ++ (c ++ d)).drop (p + q + r) = d := by
  obtain ⟨htake, htake', hdrop⟩ := @three_parts _ a b (c ++ d) _ _ ha hb
  refine ⟨htake, htake', ?_, ?_⟩
  · rw [hdrop, List.take_left' hc]
  · rw [← List.drop_drop, hdrop, List.drop_left' hc]

end Groups

theorem select_stackRows {n : ℕ} {avals : List (List ℕ)} {rows : ℕ → List (NdArray α)} {bs : List Bool}
    (h : ∀ i < n, (rows i).length = avals.length) :
    select (stackRows n avals rows) bs =
      stackRows n (select avals bs) fun i => select (rows i) bs := by
  have hreject := @reject_stackRows α n avals rows (bs.map fun b => !b) h
  simpa only [reject, map_not_not] using hreject

/-! ## The scan -/

section Run

variable {zero : α} {derivative : (primals tangents : List (NdArray α)) → List (NdArray α)}
  {s : Scan α} {sig : ScanSignature} {const_nz carry_nz xs_nz ys_nz instantiate : List Bool} {jvp : Jvp α}
  {consts init xs consts_dot init_dot xs_dot : List (NdArray α)}

theorem Jvp.Differentiates.closed
    (hjvp : jvp.Differentiates zero derivative s.jaxpr (const_nz ++ carry_nz ++ xs_nz) instantiate)
    (hinst : instantiate.length = s.jaxpr.out_avals.length)
    (hout : jvp.nonzeros_out = carry_nz ++ ys_nz) :
    Closed zero derivative s const_nz carry_nz xs_nz ys_nz where
  length := by rw [← hout, ← hjvp.instantiated.length_eq, hinst]
  sparse := fun primals ts hprimals hts => hout ▸ (hjvp.eval primals ts hprimals hts).1

/-- One iteration of the scan that `_scan_jvp` binds: the carry and its tangents, and the row and
its tangents. -/
theorem jvp_step (hs : s.Typed sig) (ho : sig.Operands s.length consts init xs)
    (hd : DotOperands zero sig s.length const_nz carry_nz xs_nz consts_dot init_dot xs_dot)
    (hc : Closed zero derivative s const_nz carry_nz xs_nz ys_nz)
    (hjvp : jvp.Differentiates zero derivative s.jaxpr (const_nz ++ carry_nz ++ xs_nz) instantiate)
    (hout : jvp.nonzeros_out = carry_nz ++ ys_nz) {j : ℕ} (hj : j < s.length) :
    jvp.jaxpr.eval (s.argsAt consts init xs (s.position j) ++
        select (dotArgsAt s derivative consts init xs consts_dot init_dot xs_dot (s.position j))
          (const_nz ++ carry_nz ++ xs_nz)) =
      s.carryAfter consts init xs (j + 1) ++
        (s.jaxpr.eval (s.argsAt consts init xs (s.position j))).drop s.num_carry ++
        (select (dotAfter s derivative consts init xs consts_dot init_dot xs_dot (j + 1)) carry_nz ++
          select (dotRow s derivative consts init xs consts_dot init_dot xs_dot (s.position j))
            ys_nz) := by
  have hpos := s.position_lt hj
  have hsparse := dotAfter_sparse hs ho hd hc hj
  have heval := (hjvp.eval _ _ ((hs.argsAt_shapes ho hpos).trans hs.body_in.symm)
    (dotArgsAt_sparse hs ho hd hc hpos)).2
  rw [heval, @dot_step α derivative s consts init xs consts_dot init_dot xs_dot j hj, hout,
    select_append _ _ hsparse.length_tangents]
  exact congrArg (· ++ _) (body_step hj)

theorem operands_length (hs : s.Typed sig) (ho : sig.Operands s.length consts init xs) :
    consts.length = s.num_consts ∧ init.length = s.num_carry ∧ xs.length = sig.xs.length := by
  refine ⟨?_, ?_, ?_⟩
  · rw [hs.num_consts, ← ho.consts, List.length_map]
  · rw [hs.num_carry, ← ho.init, List.length_map]
  · rw [← List.length_map NdArray.shape, ho.xs, stackedAvals, List.length_map]

theorem length_carryAfter (hs : s.Typed sig) (ho : sig.Operands s.length consts init xs) {j : ℕ}
    (hj : j ≤ s.length) : (s.carryAfter consts init xs j).length = s.num_carry := by
  rw [hs.num_carry, ← hs.carryAfter_shapes ho hj, List.length_map]

theorem length_mask (hs : s.Typed sig)
    (hd : DotOperands zero sig s.length const_nz carry_nz xs_nz consts_dot init_dot xs_dot) :
    s.jaxpr.in_avals.length = (const_nz ++ carry_nz ++ xs_nz).length := by
  rw [hs.body_in, ScanSignature.body_in, List.length_append, List.length_append,
    List.length_append, List.length_append, hd.consts.length_mask, hd.init.length_mask,
    hd.xs.length_mask, stackedAvals, List.length_map]

/-- The binders of the derivative, by their groups. -/
theorem length_in_avals (hs : s.Typed sig)
    (hd : DotOperands zero sig s.length const_nz carry_nz xs_nz consts_dot init_dot xs_dot)
    (hjvp : jvp.Differentiates zero derivative s.jaxpr (const_nz ++ carry_nz ++ xs_nz) instantiate) :
    jvp.jaxpr.in_avals.length = [s.num_consts, s.num_carry, sig.xs.length].sum +
      [const_nz.count true, carry_nz.count true, xs_nz.count true].sum := by
  rw [hjvp.in_avals, List.length_append, length_select (length_mask hs hd), List.count_append,
    List.count_append, hs.body_in, ScanSignature.body_in, hs.num_consts, hs.num_carry]
  simp only [List.length_append, List.sum_cons, List.sum_nil]
  omega

/-- The operands of the body are those of the derivative, each group with its tangents. -/
theorem jvp_args (hs : s.Typed sig) (ho : sig.Operands s.length consts init xs)
    (hd : DotOperands zero sig s.length const_nz carry_nz xs_nz consts_dot init_dot xs_dot)
    (hc : Closed zero derivative s const_nz carry_nz xs_nz ys_nz) {j : ℕ} (hj : j < s.length) :
    Scan.bodyArgs (consts ++ select consts_dot const_nz) (xs ++ select xs_dot xs_nz)
        (s.carryAfter consts init xs j ++
          select (dotAfter s derivative consts init xs consts_dot init_dot xs_dot j) carry_nz)
        (s.position j) =
      perm [s.num_consts, s.num_carry, sig.xs.length]
        [const_nz.count true, carry_nz.count true, xs_nz.count true]
        (s.argsAt consts init xs (s.position j) ++ select (dotArgsAt s derivative consts init xs
          consts_dot init_dot xs_dot (s.position j)) (const_nz ++ carry_nz ++ xs_nz)) := by
  obtain ⟨hconsts, -, hxs⟩ := operands_length hs ho
  have hle := Nat.le_of_lt hj
  have hsparse := dotAfter_sparse hs ho hd hc hle
  have hlen : (consts_dot ++ dotAfter s derivative consts init xs consts_dot init_dot xs_dot
      j).length = (const_nz ++ carry_nz).length := by
    rw [List.length_append, List.length_append, hd.consts.length_tangents, hsparse.length_tangents]
  have hargs : s.argsAt consts init xs (s.position j) = consts ++ s.carryAfter consts init xs j ++
      slices (s.position j) xs := by
    rw [Scan.argsAt, s.position_position hj, Scan.bodyArgs]
  have hdots : select (dotArgsAt s derivative consts init xs consts_dot init_dot xs_dot
      (s.position j)) (const_nz ++ carry_nz ++ xs_nz) = select consts_dot const_nz ++
        select (dotAfter s derivative consts init xs consts_dot init_dot xs_dot j) carry_nz ++
          select (slices (s.position j) xs_dot) xs_nz := by
    rw [dotArgsAt, s.position_position hj, Scan.bodyArgs, select_append _ _ hlen,
      select_append _ _ hd.consts.length_tangents]
  have hslices : (slices (s.position j) xs).length = sig.xs.length := by
    rw [slices, List.length_map, hxs]
  have hsliced : slices (s.position j) (select xs_dot xs_nz) =
      select (slices (s.position j) xs_dot) xs_nz := (select_map _ _ _).symm
  have hperm := @perm_three _ _ _ _ _ _ (select (slices (s.position j) xs_dot) xs_nz) _ _ _ _ _
    (xs_nz.count true) hconsts (length_carryAfter hs ho hle) hslices hd.consts.length_select
    hsparse.length_select
  rw [hdots, hargs, hperm, Scan.bodyArgs, slices_append, hsliced]

/-- The scan that `_scan_jvp` binds. -/
theorem jvp_run (hs : s.Typed sig) (ho : sig.Operands s.length consts init xs)
    (hd : DotOperands zero sig s.length const_nz carry_nz xs_nz consts_dot init_dot xs_dot)
    (hc : Closed zero derivative s const_nz carry_nz xs_nz ys_nz)
    (hjvp : jvp.Differentiates zero derivative s.jaxpr (const_nz ++ carry_nz ++ xs_nz) instantiate)
    (hout : jvp.nonzeros_out = carry_nz ++ ys_nz) :
    ∃ rearranged, rearrangeBinders jvp.jaxpr [s.num_consts, s.num_carry, sig.xs.length]
      [const_nz.count true, carry_nz.count true, xs_nz.count true] [s.num_carry, sig.ys.length]
      [carry_nz.count true, ys_nz.count true] = .ok rearranged ∧
    (⟨s.num_consts + const_nz.count true, s.num_carry + carry_nz.count true, s.length, s.reverse,
        rearranged⟩ : Scan α).run (consts ++ select consts_dot const_nz)
          (init ++ select init_dot carry_nz) (xs ++ select xs_dot xs_nz) =
      s.carryAfter consts init xs s.length ++
        select (dotAfter s derivative consts init xs consts_dot init_dot xs_dot s.length) carry_nz ++
        (stackRows s.length sig.ys (fun i =>
            (s.jaxpr.eval (s.argsAt consts init xs i)).drop s.num_carry) ++
          select (stackRows s.length sig.ys
            (dotRow s derivative consts init xs consts_dot init_dot xs_dot)) ys_nz) := by
  have hin := length_in_avals hs hd hjvp
  obtain ⟨rearranged, hre, hout_avals, heval⟩ := @rearrangeBinders_ok α jvp.jaxpr
    [s.num_consts, s.num_carry, sig.xs.length]
    [const_nz.count true, carry_nz.count true, xs_nz.count true] [s.num_carry, sig.ys.length]
    [carry_nz.count true, ys_nz.count true] rfl hin
  refine ⟨rearranged, hre, ?_⟩
  have hmask : sig.carry.length = carry_nz.length := hd.init.length_mask.symm
  have hys_avals : rearranged.out_avals.drop (s.num_carry + carry_nz.count true) =
      sig.ys ++ select sig.ys ys_nz := by
    have hlen : (sig.carry ++ select sig.carry carry_nz).length =
        s.num_carry + carry_nz.count true := by
      rw [List.length_append, length_select hmask, hs.num_carry]
    rw [hout_avals, hjvp.out_avals, hs.body_out, hout, select_append _ _ hmask,
      perm_two hs.num_carry.symm rfl (length_select hmask), List.drop_left' hlen]
  have hdot : ∀ j ≤ s.length, (select (dotAfter s derivative consts init xs consts_dot init_dot xs_dot
      j) carry_nz).length = carry_nz.count true :=
    fun j hj => (dotAfter_sparse hs ho hd hc hj).length_select
  have hrows : ∀ i < s.length,
      ((s.jaxpr.eval (s.argsAt consts init xs i)).drop s.num_carry).length = sig.ys.length := by
    intro i hi
    rw [← hs.rows_shapes ho hi, List.length_map]
  have hdots : ∀ i < s.length, (dotRow s derivative consts init xs consts_dot init_dot xs_dot
      i).length = sig.ys.length := fun i hi =>
    (dotRow_sparse hs ho hd hc hi).length_tangents.trans (ys_length hs hd hc)
  have hstep : ∀ j < s.length, rearranged.eval (Scan.bodyArgs (consts ++ select consts_dot const_nz)
      (xs ++ select xs_dot xs_nz) (s.carryAfter consts init xs j ++
        select (dotAfter s derivative consts init xs consts_dot init_dot xs_dot j) carry_nz)
      (s.position j)) = s.carryAfter consts init xs (j + 1) ++
        select (dotAfter s derivative consts init xs consts_dot init_dot xs_dot (j + 1)) carry_nz ++
        ((s.jaxpr.eval (s.argsAt consts init xs (s.position j))).drop s.num_carry ++
          select (dotRow s derivative consts init xs consts_dot init_dot xs_dot (s.position j))
            ys_nz) := by
    intro j hj
    have hpos := s.position_lt hj
    have hlen : (s.argsAt consts init xs (s.position j) ++ select (dotArgsAt s derivative consts init
        xs consts_dot init_dot xs_dot (s.position j)) (const_nz ++ carry_nz ++ xs_nz)).length =
          [s.num_consts, s.num_carry, sig.xs.length].sum +
            [const_nz.count true, carry_nz.count true, xs_nz.count true].sum := by
      rw [← hin, hjvp.in_avals, List.length_append, List.length_append,
        length_select (length_mask hs hd), (dotArgsAt_sparse hs ho hd hc hpos).length_select,
        hs.body_in, ← hs.argsAt_shapes ho hpos, List.length_map]
    rw [jvp_args hs ho hd hc hj, heval _ hlen, jvp_step hs ho hd hc hjvp hout hj,
      perm_two (length_carryAfter hs ho hj) (hrows _ hpos) (hdot _ hj)]
  refine (@Scan.run_eq α ⟨s.num_consts + const_nz.count true, s.num_carry + carry_nz.count true,
    s.length, s.reverse, rearranged⟩ _ _ _ (fun j => s.carryAfter consts init xs j ++
      select (dotAfter s derivative consts init xs consts_dot init_dot xs_dot j) carry_nz)
    (fun i => (s.jaxpr.eval (s.argsAt consts init xs i)).drop s.num_carry ++
      select (dotRow s derivative consts init xs consts_dot init_dot xs_dot i) ys_nz) rfl
    (fun j hj => by rw [List.length_append, length_carryAfter hs ho hj, hdot j hj]) hstep).trans ?_
  rw [hys_avals, stackRows_append hrows, select_stackRows hdots]

theorem num_xs (hs : s.Typed sig) :
    s.jaxpr.in_avals.length - s.num_carry - s.num_consts = sig.xs.length := by
  rw [hs.body_in, ScanSignature.body_in, hs.num_carry, hs.num_consts, List.length_append,
    List.length_append]
  omega

theorem num_ys (hs : s.Typed sig) : s.jaxpr.out_avals.length - s.num_carry = sig.ys.length := by
  rw [hs.body_out, hs.num_carry, List.length_append]
  omega

end Run

/-! ## The rule -/

theorem symbolic_nonzero : ∀ {avals : List (List ℕ)} {nzs : List Bool} {ts : List (NdArray α)},
    avals.length = nzs.length → ts.length = nzs.length →
      (symbolic avals nzs ts).map Tangent.nonzero = nzs
  | [], [], [], _, _ => rfl
  | _ :: _, true :: _, _ :: _, havals, hts =>
      congrArg (true :: ·) (symbolic_nonzero (Nat.succ.inj havals) (Nat.succ.inj hts))
  | _ :: _, false :: _, _ :: _, havals, hts =>
      congrArg (false :: ·) (symbolic_nonzero (Nat.succ.inj havals) (Nat.succ.inj hts))

/-- The tangents that the scan is given. -/
theorem pruneZeros_parts {zero : α} {cs is xs : List (Tangent α)} {const_nz carry_nz xs_nz : List Bool}
    {p q : ℕ} (hc : Below (cs.map Tangent.nonzero) const_nz)
    (hi : Below (is.map Tangent.nonzero) carry_nz) (hx : Below (xs.map Tangent.nonzero) xs_nz)
    (hp : cs.length = p) (hq : is.length = q) {ts : List (Tangent α)}
    (hts : ts = List.zipWith (fun t nz => if nz then .array (t.instantiateZeros zero) else t)
      (cs ++ is ++ xs) (const_nz ++ carry_nz ++ xs_nz)) :
    pruneZeros (ts.take p) = select (arrays zero cs) const_nz ∧
      pruneZeros ((ts.drop p).take q) = select (arrays zero is) carry_nz ∧
      pruneZeros (ts.drop (p + q)) = select (arrays zero xs) xs_nz := by
  have hclen : cs.length = const_nz.length := by rw [← hc.length_eq, List.length_map]
  have hilen : is.length = carry_nz.length := by rw [← hi.length_eq, List.length_map]
  have hlen : (cs ++ is).length = (const_nz ++ carry_nz).length := by
    rw [List.length_append, List.length_append, hclen, hilen]
  rw [List.zipWith_append hlen, List.zipWith_append hclen] at hts
  have hzip : ∀ {l : List (Tangent α)} {bs : List Bool}, l.length = bs.length → (List.zipWith
      (fun t nz => if nz then .array (t.instantiateZeros zero) else t) l bs).length = l.length := by
    intro l bs h
    rw [List.length_zipWith, ← h, Nat.min_self]
  obtain ⟨h1, h2, h3⟩ := @three_parts _ _ _ (List.zipWith
    (fun t nz => if nz then .array (t.instantiateZeros zero) else t) xs xs_nz) p q
    ((hzip hclen).trans hp) ((hzip hilen).trans hq)
  rw [hts, h1, h2, h3]
  exact ⟨pruneZeros_instantiated hc, pruneZeros_instantiated hi, pruneZeros_instantiated hx⟩

/-- The derivative of the body that `_scan_jvp` makes for a carry. -/
def bodyJvp (jvp_jaxpr : ClosedJaxpr α → (nonzeros instantiate : List Bool) → Jvp α) (s : Scan α)
    (const_nz xs_nz carry_nz : List Bool) : Jvp α :=
  jvp_jaxpr s.jaxpr (const_nz ++ carry_nz ++ xs_nz)
    (carry_nz ++ List.replicate (s.jaxpr.out_avals.length - s.num_carry) false)

/-- `jvp_jaxpr` differentiates the body, whatever the tangents that are not zero. -/
def DifferentiatesBody (jvp_jaxpr : ClosedJaxpr α → (nonzeros instantiate : List Bool) → Jvp α)
    (zero : α) (derivative : (primals tangents : List (NdArray α)) → List (NdArray α))
    (jaxpr : ClosedJaxpr α) : Prop :=
  ∀ nonzeros instantiate, nonzeros.length = jaxpr.in_avals.length →
    instantiate.length = jaxpr.out_avals.length →
    (jvp_jaxpr jaxpr nonzeros instantiate).Differentiates zero derivative jaxpr nonzeros instantiate

section Rule

variable {jvp_jaxpr : ClosedJaxpr α → (nonzeros instantiate : List Bool) → Jvp α} {zero : α}
  {derivative : (primals tangents : List (NdArray α)) → List (NdArray α)} {s : Scan α}
  {sig : ScanSignature} {const_nz init_nz xs_nz : List Bool}

theorem bodyJvp_fixpoint (hs : s.Typed sig)
    (hjvp : DifferentiatesBody jvp_jaxpr zero derivative s.jaxpr)
    (hconsts : const_nz.length = sig.consts.length) (hinit : init_nz.length = sig.carry.length)
    (hxs : xs_nz.length = sig.xs.length) :
    ∃ carry_nz ys_nz, nzFixpoint (bodyJvp jvp_jaxpr s const_nz xs_nz)
        (fun jvp => jvp.nonzeros_out.take s.num_carry) (1 + init_nz.length) init_nz =
          .ok (carry_nz, bodyJvp jvp_jaxpr s const_nz xs_nz carry_nz) ∧
      Below init_nz carry_nz ∧
      (bodyJvp jvp_jaxpr s const_nz xs_nz carry_nz).nonzeros_out = carry_nz ++ ys_nz ∧
      ∃ instantiate, instantiate.length = s.jaxpr.out_avals.length ∧
        (bodyJvp jvp_jaxpr s const_nz xs_nz carry_nz).Differentiates zero derivative s.jaxpr
          (const_nz ++ carry_nz ++ xs_nz) instantiate := by
  have hlen : ∀ {nz : List Bool}, nz.length = s.num_carry →
      (const_nz ++ nz ++ xs_nz).length = s.jaxpr.in_avals.length ∧
        (nz ++ List.replicate (s.jaxpr.out_avals.length - s.num_carry) false).length =
          s.jaxpr.out_avals.length := by
    intro nz hnz
    have hout : s.num_carry ≤ s.jaxpr.out_avals.length := by
      rw [hs.body_out, hs.num_carry, List.length_append]
      omega
    refine ⟨?_, ?_⟩
    · rw [hs.body_in, ScanSignature.body_in, List.length_append, List.length_append,
        List.length_append, List.length_append, hconsts, hnz, hs.num_carry, hxs]
    · rw [List.length_append, List.length_replicate, hnz]
      omega
  have hdiff : ∀ {nz : List Bool}, nz.length = s.num_carry →
      (bodyJvp jvp_jaxpr s const_nz xs_nz nz).Differentiates zero derivative s.jaxpr
        (const_nz ++ nz ++ xs_nz)
        (nz ++ List.replicate (s.jaxpr.out_avals.length - s.num_carry) false) :=
    fun hnz => hjvp _ _ (hlen hnz).1 (hlen hnz).2
  have hpromoted : ∀ nz : List Bool, nz.length = s.num_carry →
      Below nz ((bodyJvp jvp_jaxpr s const_nz xs_nz nz).nonzeros_out.take s.num_carry) := by
    intro nz hnz
    have h := List.forall₂_take s.num_carry (hdiff hnz).instantiated
    rwa [List.take_left' hnz] at h
  have hcarry : init_nz.length = s.num_carry := hinit.trans hs.num_carry.symm
  obtain ⟨carry_nz, hfix, hbelow, hclosed⟩ := @nzFixpoint_ok (Jvp α)
    (bodyJvp jvp_jaxpr s const_nz xs_nz) (fun jvp => jvp.nonzeros_out.take s.num_carry) _ hpromoted
    (1 + init_nz.length) init_nz hcarry (by omega)
  have hnz := hbelow.length_eq.symm.trans hcarry
  refine ⟨carry_nz, (bodyJvp jvp_jaxpr s const_nz xs_nz carry_nz).nonzeros_out.drop s.num_carry, hfix,
    hbelow, ?_, _, (hlen hnz).2, hdiff hnz⟩
  exact (List.take_append_drop s.num_carry _).symm.trans (congrArg (· ++ _) hclosed)

/-- **The derivative of a scan.** The fixpoint closes. The primal outputs are those of the scan, and
the tangents those of its derivative; the tangents of the carry that are no symbolic zeros are those
that promoting the tangents of `init` as often as the carry is long reaches. -/
theorem scanJvp_eq {consts init xs : List (NdArray α)} {consts_dot init_dot xs_dot : List (Tangent α)}
    (hs : s.Typed sig) (ho : sig.Operands s.length consts init xs)
    (hjvp : DifferentiatesBody jvp_jaxpr zero derivative s.jaxpr)
    (hconsts : consts_dot.map Tangent.aval = sig.consts)
    (hinit : init_dot.map Tangent.aval = sig.carry)
    (hxs : xs_dot.map Tangent.aval = stackedAvals s.length sig.xs) :
    ∃ tangents_out, scanJvp jvp_jaxpr zero s (consts ++ init ++ xs) (consts_dot ++ init_dot ++ xs_dot) =
        .ok (s.eval (consts ++ init ++ xs), tangents_out) ∧
      arrays zero tangents_out = scanDot s derivative consts init xs (arrays zero consts_dot)
        (arrays zero init_dot) (arrays zero xs_dot) ∧
      (tangents_out.map Tangent.nonzero).take s.num_carry =
        (promote (bodyJvp jvp_jaxpr s (consts_dot.map Tangent.nonzero) (xs_dot.map Tangent.nonzero))
          (fun jvp => jvp.nonzeros_out.take s.num_carry))^[s.num_carry]
            (init_dot.map Tangent.nonzero) := by
  have hclen : consts_dot.length = s.num_consts := by
    rw [hs.num_consts, ← hconsts, List.length_map]
  have hilen : init_dot.length = s.num_carry := by rw [hs.num_carry, ← hinit, List.length_map]
  have hxlen : xs_dot.length = sig.xs.length := by
    rw [← List.length_map Tangent.aval, hxs, stackedAvals, List.length_map]
  obtain ⟨carry_nz, ys_nz, hfix, hbelow, hout, instantiate, hinst, hdiff⟩ :=
    @bodyJvp_fixpoint α jvp_jaxpr zero derivative s sig (consts_dot.map Tangent.nonzero)
      (init_dot.map Tangent.nonzero) (xs_dot.map Tangent.nonzero) hs hjvp
      (by rw [List.length_map, hclen, hs.num_consts]) (by rw [List.length_map, hilen, hs.num_carry])
      (by rw [List.length_map, hxlen])
  generalize bodyJvp jvp_jaxpr s (consts_dot.map Tangent.nonzero)
    (xs_dot.map Tangent.nonzero) carry_nz = jvp at hfix hout hdiff
  have hd : DotOperands zero sig s.length (consts_dot.map Tangent.nonzero) carry_nz
      (xs_dot.map Tangent.nonzero) (arrays zero consts_dot) (arrays zero init_dot)
        (arrays zero xs_dot) :=
    ⟨hconsts ▸ sparse_arrays _, (hinit ▸ sparse_arrays _ : Sparse _ _ _ _).mono hbelow,
      hxs ▸ sparse_arrays _⟩
  have hc := hdiff.closed hinst hout
  obtain ⟨rearranged, hre, hrun⟩ := jvp_run hs ho hd hc hdiff hout
  obtain ⟨hconsts_len, hinit_len, -⟩ := operands_length hs ho
  obtain ⟨hnz1, hnz2, hnz3⟩ := @three_parts _ (consts_dot.map Tangent.nonzero)
    (init_dot.map Tangent.nonzero) (xs_dot.map Tangent.nonzero) s.num_consts s.num_carry
    (by rw [List.length_map, hclen]) (by rw [List.length_map, hilen])
  obtain ⟨hp1, hp2, hp3⟩ := @three_parts _ consts init xs _ _ hconsts_len hinit_len
  obtain ⟨ht1, ht2, ht3⟩ := @pruneZeros_parts α zero consts_dot init_dot xs_dot _ carry_nz _ _ _
    (Below.refl _) hbelow (Below.refl _) hclen hilen _ rfl
  have hcount : jvp.nonzeros_out.count true - carry_nz.count true = ys_nz.count true := by
    rw [hout, List.count_append]
    omega
  have hrows := (stackRows_spec fun i hi => hs.rows_shapes ho hi).1
  have hcarry := hs.carryAfter_shapes ho (Nat.le_refl s.length)
  have hdot := dotAfter_sparse hs ho hd hc (Nat.le_refl s.length)
  have hdots := scanRows_sparse hs ho hd hc
  have hys_avals : s.jaxpr.out_avals.drop s.num_carry = sig.ys := by
    rw [hs.body_out, hs.num_carry, List.drop_left]
  -- what the scan of both returns, in its four groups
  obtain ⟨hf1, hf2, hf3, hf4⟩ := @four_parts _ (s.carryAfter consts init xs s.length)
    (select (dotAfter s derivative consts init xs (arrays zero consts_dot) (arrays zero init_dot)
      (arrays zero xs_dot) s.length) carry_nz)
    (stackRows s.length sig.ys fun i =>
      (s.jaxpr.eval (s.argsAt consts init xs i)).drop s.num_carry) s.num_carry (carry_nz.count true)
    sig.ys.length
    (select (stackRows s.length sig.ys (dotRow s derivative consts init xs (arrays zero consts_dot)
      (arrays zero init_dot) (arrays zero xs_dot))) ys_nz)
    (length_carryAfter hs ho (Nat.le_refl _)) hdot.length_select
    (by rw [← List.length_map NdArray.shape, hrows, stackedAvals, List.length_map])
  have heval := @Scan.eval_append α ⟨s.num_consts + (consts_dot.map Tangent.nonzero).count true,
    s.num_carry + carry_nz.count true, s.length, s.reverse, rearranged⟩
    (consts ++ select (arrays zero consts_dot) (consts_dot.map Tangent.nonzero))
    (init ++ select (arrays zero init_dot) carry_nz)
    (xs ++ select (arrays zero xs_dot) (xs_dot.map Tangent.nonzero))
    (by rw [List.length_append, hconsts_len, hd.consts.length_select])
    (by rw [List.length_append, hinit_len, hd.init.length_select])
  rw [hrun] at heval
  have hdense := hdot.append hdots
  have hlen : (sig.carry ++ stackedAvals s.length sig.ys).length = (carry_nz ++ ys_nz).length :=
    hdense.length_mask.symm
  have hscan : scanDot s derivative consts init xs (arrays zero consts_dot) (arrays zero init_dot)
      (arrays zero xs_dot) = dotAfter s derivative consts init xs (arrays zero consts_dot)
        (arrays zero init_dot) (arrays zero xs_dot) s.length ++ stackRows s.length sig.ys
          (dotRow s derivative consts init xs (arrays zero consts_dot) (arrays zero init_dot)
            (arrays zero xs_dot)) := by
    rw [scanDot, hys_avals]
  have htangents := tangentsOut_eq [] hlen hdense.length_tangents
  rw [List.append_nil, select_append _ _ hdot.length_tangents] at htangents
  refine ⟨symbolic (sig.carry ++ stackedAvals s.length sig.ys) (carry_nz ++ ys_nz)
    (scanDot s derivative consts init xs (arrays zero consts_dot) (arrays zero init_dot)
      (arrays zero xs_dot)), ?_, ?_, ?_⟩
  · unfold scanJvp
    simp only [List.map_append, hnz1, hnz2, hnz3, hp1, hp2, hp3, num_xs hs]
    refine bind_ok.mpr ⟨_, hfix, ?_⟩
    simp only [num_ys hs, ht1, ht2, ht3, hd.consts.length_select, hd.init.length_select,
      hd.xs.length_select, hcount]
    refine bind_ok.mpr ⟨_, hre, ?_⟩
    simp only [List.append_assoc] at heval hf1 hf2 hf3 hf4 htangents ⊢
    simp only [heval, hf1, hf2, hf3, hf4, hcarry, hrows, hout]
    refine bind_ok.mpr ⟨_, htangents, ?_⟩
    rw [hscan, ← List.append_assoc, Scan.eval_append hconsts_len hinit_len, Scan.run, hys_avals]
  · rw [hscan]
    exact arrays_symbolic hdense
  · rw [hscan, symbolic_nonzero hlen hdense.length_tangents]
    have hnz := hdot.length_mask.trans hs.num_carry.symm
    rw [List.take_left' hnz]
    refine (nzFixpoint_eq_iterate ?_ hfix).symm
    rw [List.length_map, hilen]
    omega

end Rule

/-! ## A running product -/

/-- The number that an argument is. -/
def number (args : List (NdArray ℤ)) (i : ℕ) : ℤ := ((args.getD i (.fill [] 0)).get? []).getD 0

theorem number_zero (t : NdArray ℤ) : number [.fill [] 0, t] 0 = 0 := by
  simp only [number, NdArray.fill, List.getD_cons_zero]
  split <;> rfl

theorem number_zero' (t : NdArray ℤ) : number [t, .fill [] 0] 1 = 0 := by
  simp only [number, NdArray.fill, List.getD_cons_succ, List.getD_cons_zero]
  split <;> rfl

/-- `lambda c, x: (c * x, c)` -/
def product : ClosedJaxpr ℤ where
  in_avals := [[], []]
  out_avals := [[], []]
  eval := fun args => [.fill [] (number args 0 * number args 1), .fill [] (number args 0)]
  typed := fun _ _ => rfl

def productDot (primals tangents : List (NdArray ℤ)) : List (NdArray ℤ) :=
  [.fill [] (number tangents 0 * number primals 1 + number primals 0 * number tangents 1),
    .fill [] (number tangents 0)]

/-- Scalar tangents with the zeros that were left out. -/
def withZeros : List Bool → List (NdArray ℤ) → List (NdArray ℤ)
  | true :: nzs, t :: ts => t :: withZeros nzs ts
  | false :: nzs, ts => .fill [] 0 :: withZeros nzs ts
  | _, _ => []

theorem withZeros_select {nzs : List Bool} {avals : List (List ℕ)} {ts : List (NdArray ℤ)}
    (h : Sparse 0 nzs avals ts) (havals : ∀ aval ∈ avals, aval = []) :
    withZeros nzs (select ts nzs) = ts := by
  induction h with
  | nil => rfl
  | @cons nz _ _ _ _ _ hshape hzero _ ih =>
      obtain ⟨haval, havals⟩ := List.forall_mem_cons.mp havals
      cases nz with
      | true => exact congrArg (_ :: ·) (ih havals)
      | false =>
          rw [hzero rfl, haval]
          exact congrArg (_ :: ·) (ih havals)

/-- `jvp_jaxpr` of the product: a sum is zero if both of its terms are, an output of an input if
that is. -/
def productJvp (_ : ClosedJaxpr ℤ) (nonzeros instantiate : List Bool) : Jvp ℤ where
  nonzeros_out := [nonzeros.getD 0 false || nonzeros.getD 1 false || instantiate.getD 0 false,
    nonzeros.getD 0 false || instantiate.getD 1 false]
  jaxpr :=
    { in_avals := product.in_avals ++ select product.in_avals nonzeros
      out_avals := product.out_avals ++ select product.out_avals
        [nonzeros.getD 0 false || nonzeros.getD 1 false || instantiate.getD 0 false,
          nonzeros.getD 0 false || instantiate.getD 1 false]
      eval := fun args => product.eval (args.take 2) ++
        select (productDot (args.take 2) (withZeros nonzeros (args.drop 2)))
          [nonzeros.getD 0 false || nonzeros.getD 1 false || instantiate.getD 0 false,
            nonzeros.getD 0 false || instantiate.getD 1 false]
      typed := fun args _ => by
        rw [List.map_append, ← select_map]
        rfl }

theorem product_differentiates : DifferentiatesBody productJvp 0 productDot product := by
  intro nonzeros instantiate hin hinst
  obtain ⟨n0, n1, rfl⟩ := List.length_eq_two.mp hin
  obtain ⟨i0, i1, rfl⟩ := List.length_eq_two.mp hinst
  refine ⟨.cons (fun h => ?_) (.cons (fun h => ?_) .nil), rfl, rfl, fun primals ts hprimals hts => ?_⟩
  · simp [h]
  · simp [h]
  have hlen : primals.length = 2 := by simpa [product] using congrArg List.length hprimals
  refine ⟨?_, ?_⟩
  · obtain _ | ⟨hshape, hzero, _ | ⟨hshape', hzero', _ | _⟩⟩ := hts
    refine .cons rfl (fun h => ?_) (.cons rfl (fun h => ?_) .nil)
    · obtain ⟨⟨h0, h1⟩, -⟩ : (n0 = false ∧ n1 = false) ∧ i0 = false := by simpa using h
      rw [hzero h0, hzero' h1, number_zero, number_zero', Int.zero_mul, Int.mul_zero, Int.add_zero]
    · obtain ⟨h0, -⟩ : n0 = false ∧ i1 = false := by simpa using h
      rw [hzero h0, number_zero]
  · have hdots := withZeros_select hts (by simp [product])
    simp only [productJvp, List.take_left' hlen, List.drop_left' hlen, hdots]

/-- The products of the first of three numbers. -/
def runningProduct : Scan ℤ := ⟨0, 1, 3, false, product⟩

/-- With respect to the numbers, and not to what it starts from. -/
theorem runningProduct_jvp : ∃ tangents_out,
    scanJvp productJvp 0 runningProduct [.fill [] 1, .fill [3] 2] [.zero [], .array (.fill [3] 1)] =
        .ok (runningProduct.eval [.fill [] 1, .fill [3] 2], tangents_out) ∧
      arrays 0 tangents_out = scanDot runningProduct productDot [] [.fill [] 1] [.fill [3] 2] []
        [.fill [] 0] [.fill [3] 1] ∧
      (tangents_out.map Tangent.nonzero).take 1 = [true] :=
  @scanJvp_eq ℤ productJvp 0 productDot runningProduct ⟨[], [[]], [[]], [[]]⟩ [] [.fill [] 1]
    [.fill [3] 2] [] [.zero []] [.array (.fill [3] 1)] ⟨rfl, rfl, rfl, rfl⟩ ⟨rfl, rfl, rfl⟩
    product_differentiates rfl rfl rfl

end JaxDas.ScanJvp
