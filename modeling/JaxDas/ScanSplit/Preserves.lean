import JaxDas.ScanSplit.Body
import JaxDas.ScanSplit.Recompute

/-!
# The split scan computes the scan

Iteration by iteration, the carry of the known loop is the known part of the carry, and what it
stacks besides the known outputs are the residuals that depend on the iteration. The staged loop
reads them back at the positions where they were written, so it has the carry and the outputs of the
scan.
-/

namespace JaxDas

variable {α : Type}

/-- What the body of a scan is given at a position, in the run on these operands. -/
def Scan.argsOf (s : Scan α) (args : List (NdArray α)) (i : ℕ) : List (NdArray α) :=
  s.argsAt (args.take s.num_consts) ((args.drop s.num_consts).take s.num_carry)
    (args.drop (s.num_consts + s.num_carry)) i

namespace ScanSplit

/-- The residuals of the body. -/
def Split.residuals (split : Split α) (args : List (NdArray α)) : List (NdArray α) :=
  split.body.residuals split.unks_in args

theorem slices_reject (i : ℕ) (xs : List (NdArray α)) (bs : List Bool) :
    slices i (reject xs bs) = reject (slices i xs) bs := (reject_map _ xs bs).symm

/-- A list of a sum of lengths. -/
theorem exists_append_of_length {β : Type} {l : List β} {m n : ℕ} (h : l.length = m + n) :
    ∃ l₁ l₂, l = l₁ ++ l₂ ∧ l₁.length = m ∧ l₂.length = n :=
  ⟨l.take m, l.drop m, (List.take_append_drop m l).symm, by rw [List.length_take]; omega,
    by rw [List.length_drop]; omega⟩

theorem slices_append (i : ℕ) (xs ys : List (NdArray α)) :
    slices i (xs ++ ys) = slices i xs ++ slices i ys := List.map_append

section

variable {s : Scan α} {sig : ScanSignature} {const_uk carry_uk xs_uk ys_uk loop_dep_res : List Bool}
  {split : CustomSplit α} {hoist loop staged : ClosedJaxpr α} {res_avals : List (List ℕ)}
  (hs : s.Typed sig) (hm : Masks sig const_uk carry_uk xs_uk ys_uk)
  (hp : Parts s sig const_uk carry_uk xs_uk ys_uk split hoist loop staged loop_dep_res res_avals)
  {consts init xs : List (NdArray α)} (ho : sig.Operands s.length consts init xs)

/-- The constants of the known loop, and the residuals that do not depend on the iteration. -/
def hoisted (hoist : ClosedJaxpr α) (const_uk loop_dep_res : List Bool) (consts : List (NdArray α)) :
    List (NdArray α) × List (NdArray α) :=
  ((hoist.eval (reject consts const_uk)).take (loop_dep_res.count false),
    (hoist.eval (reject consts const_uk)).drop (loop_dep_res.count false))

/-- The residuals at a position. -/
def resAt (s : Scan α) (split : CustomSplit α) (unks_in : List Bool)
    (consts init xs : List (NdArray α)) (i : ℕ) : List (NdArray α) :=
  split.residuals unks_in (s.argsAt consts init xs i)

/-- The residuals that depend on the iteration, stacked. -/
def extensive (s : Scan α) (split : CustomSplit α) (unks_in loop_dep_res : List Bool)
    (res_avals : List (List ℕ)) (consts init xs : List (NdArray α)) : List (NdArray α) :=
  stackRows s.length (select res_avals loop_dep_res) fun i =>
    select (resAt s split unks_in consts init xs i) loop_dep_res

include hs hm hp ho

omit hs in
/-- One iteration: the residuals that do not depend on it, and the body of the known loop. -/
theorem known_step {c : List (NdArray α)} (hc : c.map NdArray.shape = sig.carry) {i : ℕ}
    (hi : i < s.length) :
    (hoisted hoist const_uk loop_dep_res consts).1 =
      reject (split.residuals (const_uk ++ carry_uk ++ xs_uk) (Scan.bodyArgs consts xs c i))
        loop_dep_res ∧
    loop.eval (Scan.bodyArgs (hoisted hoist const_uk loop_dep_res consts).2 (reject xs xs_uk)
        (reject c carry_uk) i) =
      reject (s.jaxpr.eval (Scan.bodyArgs consts xs c i)) split.unks_out ++
        select (split.residuals (const_uk ++ carry_uk ++ xs_uk) (Scan.bodyArgs consts xs c i))
          loop_dep_res := by
  have hshapes := Scan.Typed.bodyArgs_shapes ho hc hi
  have hclen : consts.length = const_uk.length := by rw [hm.consts, ← ho.consts, List.length_map]
  have hklen : c.length = carry_uk.length := by rw [hm.carry, ← hc, List.length_map]
  refine ⟨hp.hoist_eval _ _ _ hshapes hclen hklen, ?_⟩
  have h := hp.loop_eval consts c (slices i xs) hshapes hclen hklen
  rwa [Scan.bodyArgs, slices_reject]

/-- The carry of the known loop is the known part of the carry. -/
theorem known_carry {known : Scan α} (hjaxpr : known.jaxpr = loop) (hlength : known.length = s.length)
    (hreverse : known.reverse = s.reverse) (hnum : known.num_carry = carry_uk.count false) :
    ∀ {j : ℕ}, j ≤ s.length →
      known.carryAfter (hoisted hoist const_uk loop_dep_res consts).2 (reject init carry_uk)
          (reject xs xs_uk) j = reject (s.carryAfter consts init xs j) carry_uk
  | 0, _ => rfl
  | j + 1, hj => by
      have hpos : known.position j = s.position j := by
        rw [Scan.position, Scan.position, hlength, hreverse]
      have hshapes := hs.carryAfter_shapes ho (by omega : j ≤ s.length)
      have hlt := s.position_lt (by omega : j < s.length)
      have hstep := (known_step hm hp ho hshapes hlt).2
      rw [Scan.carryAfter, known_carry hjaxpr hlength hreverse hnum (by omega : j ≤ s.length), hpos,
        hjaxpr, hstep, hnum, Scan.carryAfter]
      -- the known outputs begin with the known carry
      have hout := s.jaxpr.typed _
        ((Scan.Typed.bodyArgs_shapes ho hshapes hlt).trans hs.body_in.symm)
      generalize s.jaxpr.eval _ = outs at hout ⊢
      have hlen : (outs.take s.num_carry).length = carry_uk.length := by
        rw [← List.length_map (f := NdArray.shape), List.map_take, hout, hs.body_out, hs.num_carry,
          List.take_left, hm.carry]
      have hsplit : reject outs split.unks_out =
          reject (outs.take s.num_carry) carry_uk ++ reject (outs.drop s.num_carry) ys_uk := by
        rw [hp.unks_out, ← reject_append _ _ hlen, List.take_append_drop]
      rw [hsplit, List.append_assoc, ← length_reject hlen, List.take_left]

/-- What the known loop computes at a position. -/
theorem known_row {known : Scan α} (hjaxpr : known.jaxpr = loop) (hlength : known.length = s.length)
    (hreverse : known.reverse = s.reverse) (hnum : known.num_carry = carry_uk.count false) {i : ℕ}
    (hi : i < s.length) :
    (known.jaxpr.eval (known.argsAt (hoisted hoist const_uk loop_dep_res consts).2
        (reject init carry_uk) (reject xs xs_uk) i)).drop known.num_carry =
      reject ((s.jaxpr.eval (s.argsAt consts init xs i)).drop s.num_carry) ys_uk ++
        select (resAt s split (const_uk ++ carry_uk ++ xs_uk) consts init xs i) loop_dep_res := by
  have hpos : known.position i = s.position i := by
    rw [Scan.position, Scan.position, hlength, hreverse]
  have hle := Nat.le_of_lt (s.position_lt hi)
  have hshapes := hs.carryAfter_shapes ho hle
  have hstep := (known_step hm hp ho hshapes hi).2
  rw [Scan.argsAt, hpos, known_carry hs hm hp ho hjaxpr hlength hreverse hnum hle, hjaxpr, hstep, hnum]
  have hout := s.jaxpr.typed _ ((hs.argsAt_shapes ho hi).trans hs.body_in.symm)
  rw [Scan.argsAt] at hout
  unfold resAt Scan.argsAt
  generalize s.jaxpr.eval _ = outs at hout ⊢
  have hlen : (outs.take s.num_carry).length = carry_uk.length := by
    rw [← List.length_map (f := NdArray.shape), List.map_take, hout, hs.body_out, hs.num_carry,
      List.take_left, hm.carry]
  have hsplit : reject outs split.unks_out =
      reject (outs.take s.num_carry) carry_uk ++ reject (outs.drop s.num_carry) ys_uk := by
    rw [hp.unks_out, ← reject_append _ _ hlen, List.take_append_drop]
  rw [hsplit, List.append_assoc, ← length_reject hlen, List.drop_left]

/-- The known loop has the known outputs, and the residuals that depend on the iteration. -/
theorem known_run (known : Scan α) (hjaxpr : known.jaxpr = loop) (hlength : known.length = s.length)
    (hreverse : known.reverse = s.reverse) (hnum : known.num_carry = carry_uk.count false) :
    known.run (hoisted hoist const_uk loop_dep_res consts).2 (reject init carry_uk)
        (reject xs xs_uk) =
      reject (s.run consts init xs) split.unks_out ++
        extensive s split (const_uk ++ carry_uk ++ xs_uk) loop_dep_res res_avals consts init xs := by
  have hys : known.jaxpr.out_avals.drop known.num_carry =
      reject sig.ys ys_uk ++ select res_avals loop_dep_res := by
    rw [hjaxpr, hp.loop_out, hnum, ← length_reject hm.carry.symm, List.drop_left]
  have hys' : s.jaxpr.out_avals.drop s.num_carry = sig.ys := by
    rw [hs.body_out, hs.num_carry, List.drop_left]
  have hrows : ∀ i < s.length, ((s.jaxpr.eval (s.argsAt consts init xs i)).drop
      s.num_carry).length = sig.ys.length := by
    intro i hi
    rw [← hs.rows_shapes ho hi, List.length_map]
  have hrejected : ∀ i < s.length, (reject ((s.jaxpr.eval (s.argsAt consts init xs i)).drop
      s.num_carry) ys_uk).length = (reject sig.ys ys_uk).length := by
    intro i hi
    rw [length_reject ((hrows i hi).trans hm.ys.symm), length_reject hm.ys.symm]
  have hcarry := hs.carryAfter_shapes ho (Nat.le_refl s.length)
  have hlen : (s.carryAfter consts init xs s.length).length = carry_uk.length := by
    rw [hm.carry, ← hcarry, List.length_map]
  rw [Scan.run, Scan.run, hlength, hys, hys',
    known_carry hs hm hp ho hjaxpr hlength hreverse hnum (Nat.le_refl _),
    stackRows_congr fun i hi => known_row hs hm hp ho hjaxpr hlength hreverse hnum hi,
    stackRows_append hrejected, ← reject_stackRows hrows, hp.unks_out, reject_append _ _ hlen]
  exact (List.append_assoc _ _ _).symm

omit hm in
/-- The residuals that depend on the iteration are read at the position where they were written. -/
theorem slices_extensive {i : ℕ} (hi : i < s.length) :
    slices i (extensive s split (const_uk ++ carry_uk ++ xs_uk) loop_dep_res res_avals consts init xs) =
      select (resAt s split (const_uk ++ carry_uk ++ xs_uk) consts init xs i) loop_dep_res := by
  refine (stackRows_spec fun i hi => ?_).2 i hi
  rw [← select_map, resAt, hp.res_shapes _ (hs.argsAt_shapes ho hi)]

/-- The body of the staged loop, at a position of the run. -/
theorem staged_step {i : ℕ} (hi : i < s.length) :
    staged.eval (Scan.bodyArgs ((hoisted hoist const_uk loop_dep_res consts).1 ++ consts)
        (xs ++ extensive s split (const_uk ++ carry_uk ++ xs_uk) loop_dep_res res_avals consts init xs)
        (s.carryAfter consts init xs (s.position i)) i) =
      s.jaxpr.eval (s.argsAt consts init xs i) := by
  have hcarry := hs.carryAfter_shapes ho (Nat.le_of_lt (s.position_lt hi))
  have h := hp.staged_eval _ (hs.argsAt_shapes ho hi)
  have hintensive := (known_step hm hp ho hcarry hi).1
  rw [← h, Scan.bodyArgs, slices_append, slices_extensive hs hp ho hi, hintensive]
  unfold resAt Scan.argsAt Scan.bodyArgs
  simp only [List.append_assoc]

/-- The staged loop has the carry and the outputs of the scan. -/
theorem staged_run (last : Scan α) (hjaxpr : last.jaxpr = staged) (hlength : last.length = s.length)
    (hreverse : last.reverse = s.reverse) (hnum : last.num_carry = s.num_carry) :
    last.run ((hoisted hoist const_uk loop_dep_res consts).1 ++ consts) init
        (xs ++ extensive s split (const_uk ++ carry_uk ++ xs_uk) loop_dep_res res_avals consts init xs) =
      s.run consts init xs := by
  have hpos : ∀ j, last.position j = s.position j := fun j => by
    rw [Scan.position, Scan.position, hlength, hreverse]
  have hcarry : ∀ {j : ℕ}, j ≤ s.length →
      last.carryAfter ((hoisted hoist const_uk loop_dep_res consts).1 ++ consts) init
        (xs ++ extensive s split (const_uk ++ carry_uk ++ xs_uk) loop_dep_res res_avals consts init xs) j
          = s.carryAfter consts init xs j := by
    intro j
    induction j with
    | zero => exact fun _ => rfl
    | succ j ih =>
        intro hj
        have hlt : j < s.length := hj
        have hstep := staged_step hs hm hp ho (s.position_lt hlt)
        rw [Scan.argsAt, s.position_position hlt] at hstep
        rw [Scan.carryAfter, ih (Nat.le_of_lt hlt), hpos, hjaxpr, hstep, hnum, Scan.carryAfter]
  have hout : last.jaxpr.out_avals.drop last.num_carry = s.jaxpr.out_avals.drop s.num_carry := by
    rw [hjaxpr, hp.staged_out, hnum, hs.body_out]
  rw [Scan.run, Scan.run, hlength, hcarry (Nat.le_refl _), hout]
  congr 1
  refine stackRows_congr fun i hi => ?_
  rw [Scan.argsAt, hpos, hcarry (Nat.le_of_lt (s.position_lt hi)), hjaxpr,
    staged_step hs hm hp ho hi, hnum]

end

/-- The fixpoint closes and the split scan is the scan. The known equation takes no unknown input. It
computes the known outputs, the intensive residuals, which are the same at every iteration, and the
extensive ones, which are those of an iteration at its position; with them the staged equation
computes all outputs. -/
theorem scanPartialEvalCustom_preserves {pe : PartialEvaluator α} (hpe : pe.Lawful) {s : Scan α}
    {sig : ScanSignature} (hs : s.Typed sig) {unks_in inst_in : List Bool} (is_var : List Bool)
    (hunks : unks_in.length = sig.body_in.length) (hinst : inst_in.length = sig.body_in.length) :
    ∃ split, scanPartialEvalCustom pe s unks_in inst_in is_var = .ok split ∧
      Below unks_in split.unks_in ∧
      split.inst_out = List.replicate s.jaxpr.out_avals.length true ∧
      ∀ args, args.map NdArray.shape = sig.consts ++ sig.carry ++ stackedAvals s.length sig.xs →
        ∃ intensive_res extensive_res,
          split.known.eval (reject args split.unks_in) =
            intensive_res ++ reject (s.eval args) split.unks_out ++ extensive_res ∧
          split.staged.eval (intensive_res ++ args ++ extensive_res) = s.eval args ∧
          ∀ i < s.length,
            reject (split.residuals (s.argsOf args i)) split.loop_dep_res = intensive_res ∧
            select (split.residuals (s.argsOf args i)) split.loop_dep_res =
              slices i extensive_res := by
  obtain ⟨ci, xs_uk, rfl, hci, hx⟩ := exists_append_of_length
    (hunks.trans (by rw [ScanSignature.body_in, List.length_append]))
  obtain ⟨const_uk, init_uk, rfl, hc, hi⟩ := exists_append_of_length
    (hci.trans (List.length_append ..))
  obtain ⟨carry_uk, ys_uk, split, hoist, loop, staged, loop_dep_res, res_avals, hrule, hbelow, hcarry,
    hinst_out, hp⟩ := scanPartialEvalCustom_parts hpe hs is_var hc hi hx hinst
  have hm : Masks sig const_uk carry_uk xs_uk ys_uk := ⟨hc, hcarry, hx, hp.ys_length⟩
  refine ⟨_, hrule, ?_, by rw [hinst_out, hs.body_out], fun args hargs => ?_⟩
  · exact List.rel_append (List.rel_append (Below.refl const_uk) hbelow) (Below.refl xs_uk)
  obtain ⟨consts, init, xs, rfl, ho⟩ := Scan.Typed.exists_operands hargs
  have hclen : consts.length = s.num_consts := by
    rw [hs.num_consts, ← ho.consts, List.length_map]
  have hilen : init.length = s.num_carry := by
    rw [hs.num_carry, ← ho.init, List.length_map]
  have hclen' : consts.length = const_uk.length := hclen.trans (hs.num_consts.trans hc.symm)
  have hilen' : init.length = carry_uk.length := hilen.trans (hs.num_carry.trans hcarry.symm)
  obtain ⟨lp_avals, hout⟩ := hp.hoist_out
  have hhoist := hoist.typed (reject consts const_uk) (by
    rw [← reject_map, ho.consts, hp.hoist_in])
  have hintensive : (hoisted hoist const_uk loop_dep_res consts).1.length =
      loop_dep_res.count false := by
    have h := congrArg List.length hhoist
    rw [hout, List.length_map, List.length_append, length_reject hp.res_length.symm] at h
    rw [hoisted, List.length_take, h]
    omega
  refine ⟨(hoisted hoist const_uk loop_dep_res consts).1, extensive s split
    (const_uk ++ carry_uk ++ xs_uk) loop_dep_res res_avals consts init xs, ?_, ?_, ?_⟩
  · have hrun := known_run hs hm hp ho
      ⟨(hoisted hoist const_uk loop_dep_res consts).2.length, carry_uk.count false, s.length,
        s.reverse, loop⟩ rfl rfl rfl rfl
    rw [Scan.eval_append hclen hilen]
    refine Eq.trans ?_ ((congrArg ((hoisted hoist const_uk loop_dep_res consts).1 ++ ·) hrun).trans
      (List.append_assoc _ _ _).symm)
    rw [KnownCall.eval]
    have htake : (reject (consts ++ init ++ xs) (const_uk ++ carry_uk ++ xs_uk)).take
        (const_uk.count false) = reject consts const_uk := by
      rw [reject_inputs hclen' hilen', ← length_reject hclen', List.take_left]
    have hdrop : (reject (consts ++ init ++ xs) (const_uk ++ carry_uk ++ xs_uk)).drop
        (const_uk.count false) = reject init carry_uk ++ reject xs xs_uk := by
      rw [reject_inputs hclen' hilen', ← length_reject hclen', List.drop_left]
    simp only [htake, hdrop]
    congr 1
    rw [← List.append_assoc]
    exact Scan.eval_append rfl (length_reject hilen')
  · have hrun := staged_run hs hm hp ho
      ⟨loop_dep_res.count false + s.num_consts, s.num_carry, s.length, s.reverse, staged⟩
      rfl rfl rfl rfl
    rw [Scan.eval_append hclen hilen, ← hrun]
    refine Eq.trans (congrArg _ ?_) (Scan.eval_append
      (by rw [List.length_append, hintensive, hclen]) hilen)
    simp only [List.append_assoc]
  · intro i hi'
    have hargsOf : s.argsOf (consts ++ init ++ xs) i = s.argsAt consts init xs i := by
      rw [Scan.argsOf, ← hclen, ← hilen]
      simp only [List.append_assoc, List.take_left, List.drop_left]
      rw [← List.append_assoc, ← List.length_append, List.drop_left]
    rw [hargsOf]
    have hshapes := hs.carryAfter_shapes ho (Nat.le_of_lt (s.position_lt hi'))
    exact ⟨(known_step hm hp ho hshapes hi').1.symm, (slices_extensive hs hp ho hi').symm⟩

/-- `lambda c, x: (x + 1, 2 * c)`, three times from the back. -/
def smallScan : Scan ℕ where
  num_consts := 1
  num_carry := 1
  length := 3
  reverse := true
  jaxpr :=
    { in_avals := [[], []]
      out_avals := [[], []]
      eval := fun args =>
        [(args.getD 1 (.fill [] 0)).map (· + 1), (args.getD 0 (.fill [] 0)).map (2 * ·)]
      typed := by
        intro args h
        obtain ⟨c, x, rfl⟩ := List.length_eq_two.mp (by simpa using congrArg List.length h)
        injection h with hc h
        injection h with hx _
        exact congrArg₂ (fun a b => [a, b]) hx hc }

/-- With the constant known and the carry not. -/
theorem smallScan_preserved : ∃ split intensive_res extensive_res,
    scanPartialEvalCustom recompute smallScan [false, true] [false, false] [true, true] = .ok split ∧
      split.known.eval (reject [.fill [] 5, .fill [] 0] split.unks_in) =
        intensive_res ++ reject (smallScan.eval [.fill [] 5, .fill [] 0]) split.unks_out ++
          extensive_res ∧
      split.staged.eval (intensive_res ++ [.fill [] 5, .fill [] 0] ++ extensive_res) =
        smallScan.eval [.fill [] 5, .fill [] 0] := by
  obtain ⟨split, hrule, -, -, hargs⟩ := @scanPartialEvalCustom_preserves _ _
    recompute_lawful smallScan ⟨[[]], [[]], [], [[]]⟩ ⟨rfl, rfl, rfl, rfl⟩ [false, true]
    [false, false] [true, true] rfl rfl
  obtain ⟨intensive_res, extensive_res, hknown, hstaged, -⟩ := hargs [.fill [] 5, .fill [] 0] rfl
  exact ⟨split, intensive_res, extensive_res, hrule, hknown, hstaged⟩

end ScanSplit

end JaxDas
