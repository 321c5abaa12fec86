import JaxDas.ScanTranspose.Rule
import Mathlib.Tactic.LinearCombination

/-!
# The transposed scan is the adjoint

An iteration of the transposed scan undoes the one of the scan at the same position: what the
accumulators and the cotangents of the carry are paired to, and the pairing of the `xs` cotangents,
change by the pairing of the `ys` at that position. Over the run these add up.
-/

namespace JaxDas.ScanTranspose

open Finset

variable {R : Type} [CommRing R] {sig : Avals}

/-! ## Parts of cotangents -/

theorem slice_zeros {n i : ℕ} {aval : List ℕ} (hi : i < n) :
    (NdArray.zeros (n :: aval) : NdArray R).slice 0 i = .zeros aval := by
  have hshape : (NdArray.zeros (n :: aval) : NdArray R).shape = aval.insertIdx 0 n := rfl
  refine NdArray.ext (NdArray.slice_shape hshape (Nat.zero_le _) hi) (funext fun idx => ?_)
  rw [NdArray.slice_get? hshape (Nat.zero_le _) hi, List.insertIdx_zero]
  have hwithin : Within (n :: aval) (i :: idx) ↔ Within aval idx := by
    unfold Within
    rw [List.forall₂_cons, and_iff_right hi]
  by_cases hw : Within aval idx
  · rw [NdArray.zeros, NdArray.zeros, NdArray.ofFn_get? _ hw, NdArray.ofFn_get? _ (hwithin.mpr hw)]
  · have hnone : ¬ Within (n :: aval) (i :: idx) := fun h => hw (hwithin.mp h)
    have hleft : (NdArray.zeros (n :: aval) : NdArray R).get? (i :: idx) = none :=
      NdArray.get?_eq_none hnone
    have hright : (NdArray.zeros aval : NdArray R).get? idx = none := NdArray.get?_eq_none hw
    rw [hleft, hright]

/-- In the body the arrays are replaced by their parts. -/
def sliceCt (i : ℕ) : Ct R → Ct R
  | .zero aval => .zero aval
  | .array x => .array (x.slice 0 i)

omit [CommRing R] in
theorem unflatten_slices (i : ℕ) : ∀ ct_ys : List (Ct R),
    Ct.unflatten ct_ys (slices i (Ct.leaves ct_ys)) = ct_ys.map (sliceCt i)
  | [] => rfl
  | .zero aval :: ct_ys => by
      rw [Ct.leaves, Ct.unflatten, unflatten_slices i ct_ys]
      rfl
  | .array x :: ct_ys => by
      have ih := unflatten_slices i ct_ys
      unfold slices at ih ⊢
      rw [Ct.leaves, List.map_cons, Ct.unflatten, List.tail_cons, ih]
      rfl

/-- A part of the cotangents of `ys` as arrays. -/
theorem values_slices {n i : ℕ} (hi : i < n) : ∀ {ct_ys : List (Ct R)} {avals : List (List ℕ)},
    ct_ys.map Ct.aval = stackedAvals n avals →
    List.zipWith ctValue avals (ct_ys.map (sliceCt i)) = slices i (ct_ys.map Ct.instantiateZeros)
  | [], [], _ => rfl
  | ct :: ct_ys, aval :: avals, h => by
      obtain ⟨hct, h⟩ := List.cons.inj h
      have ih := values_slices hi h
      unfold slices at ih ⊢
      rw [List.map_cons, List.zipWith_cons_cons, ih, List.map_cons, List.map_cons]
      congr 1
      cases ct with
      | zero a =>
          obtain rfl : a = n :: aval := hct
          exact (slice_zeros hi).symm
      | array x => rfl

omit [CommRing R] in
theorem leaves_avals {n : ℕ} : ∀ {ct_ys : List (Ct R)} {avals : List (List ℕ)},
    ct_ys.map Ct.aval = stackedAvals n avals →
    (Ct.leaves ct_ys).map NdArray.shape =
      stackedAvals n ((Ct.leaves ct_ys).map fun x => x.shape.tail)
  | [], [], _ => rfl
  | .zero a :: ct_ys, aval :: avals, h => by
      have ih := leaves_avals (show ct_ys.map Ct.aval = stackedAvals n avals from
        (List.cons.inj h).2)
      rw [Ct.leaves, ih]
  | .array x :: ct_ys, aval :: avals, h => by
      obtain ⟨hx, h⟩ := List.cons.inj h
      have ih := leaves_avals h
      have hshape : x.shape = n :: aval := hx
      rw [Ct.leaves, List.map_cons, List.map_cons, ih, hshape]
      rfl

theorem dotAll_slices {n : ℕ} : ∀ {avals : List (List ℕ)} {xs ys : List (NdArray R)},
    xs.map NdArray.shape = stackedAvals n avals → ys.map NdArray.shape = stackedAvals n avals →
    dotAll xs ys = ∑ i ∈ range n, dotAll (slices i xs) (slices i ys)
  | [], xs, ys, hx, _ => by
      rw [List.map_eq_nil_iff.mp hx]
      simp [slices]
  | aval :: avals, xs, ys, hx, hy => by
      obtain ⟨x, xs, rfl, hx, hxs⟩ := List.map_eq_cons_iff.mp hx
      obtain ⟨y, ys, rfl, hy, hys⟩ := List.map_eq_cons_iff.mp hy
      rw [dotAll_cons, NdArray.dot_slices hx hy, dotAll_slices hxs hys, ← sum_add_distrib]
      rfl

/-! ## One iteration -/

theorem dotAll_addTangents : ∀ {xs : List (NdArray R)} {cts : List (Ct R)} (ys : List (NdArray R)),
    xs.map NdArray.shape = cts.map Ct.aval →
    dotAll (List.zipWith addTangents xs cts) ys =
      dotAll xs ys + dotAll (cts.map Ct.instantiateZeros) ys
  | [], [], ys, _ => by rw [dotAll_nil, zero_add]; rfl
  | x :: xs, ct :: cts, [], _ => by simp [dotAll]
  | x :: xs, ct :: cts, y :: ys, h => by
      obtain ⟨hx, h⟩ := List.cons.inj h
      rw [List.zipWith_cons_cons, List.map_cons, dotAll_cons, dotAll_cons, dotAll_cons,
        dotAll_addTangents ys h]
      cases ct with
      | zero aval =>
          rw [addTangents, Ct.instantiateZeros, NdArray.dot_zeros]
          ring
      | array x' =>
          rw [addTangents, Ct.instantiateZeros, NdArray.dot_add hx]
          ring

theorem values_zero : ∀ {avals : List (List ℕ)} {cts : List (Ct R)}, avals.length = cts.length →
    cts.all Ct.isZero = true → List.zipWith ctValue avals cts = avals.map NdArray.zeros
  | [], [], _, _ => rfl
  | aval :: avals, .zero a :: cts, h, hz => by
      rw [List.zipWith_cons_cons, values_zero (Nat.succ.inj h) hz]
      rfl
  | aval :: avals, .array x :: cts, _, hz => by cases hz

/-- What `backward_pass3` accumulates is the adjoint, also of symbolic zeros. -/
theorem backwardPass3_adjoint {body : Body R sig} (hbody : body.Adjoint)
    {ires lin eres : List (NdArray R)} {cts : List (Ct R)}
    (hi : ires.map NdArray.shape = sig.ires) (hl : lin.map NdArray.shape = sig.linear)
    (he : eres.map NdArray.shape = sig.eres) (hlen : cts.length = body.jaxpr.out_avals.length)
    (hcts : (List.zipWith ctValue body.jaxpr.out_avals cts).map NdArray.shape =
      sig.carry ++ sig.ys) :
    dotAll ((backwardPass3 body ires eres cts).map Ct.instantiateZeros) lin =
      dotAll (List.zipWith ctValue body.jaxpr.out_avals cts)
        (body.jaxpr.eval (ires ++ lin ++ eres)) := by
  unfold backwardPass3
  split
  · next hz =>
      rw [values_zero hlen.symm hz, dotAll_zeros, List.map_map]
      exact dotAll_zeros _ _
  · rw [List.map_map, ← hbody ires lin eres _ hi hl he hcts]
    exact congrArg (dotAll · lin) (List.map_id _)

theorem transposed_adjoint {body : Body R sig} (hbody : body.Adjoint) {n i : ℕ} (hin : i < n)
    (cts : Cotangents R sig n) {ires acc ct_carry eres d c a : List (NdArray R)}
    (hi : ires.map NdArray.shape = sig.ires) (hacc : acc.map NdArray.shape = sig.consts_dot)
    (hct : ct_carry.map NdArray.shape = sig.carry) (he : eres.map NdArray.shape = sig.eres)
    (hd : d.map NdArray.shape = sig.consts_dot) (hc : c.map NdArray.shape = sig.carry)
    (ha : a.map NdArray.shape = sig.xs_dot) :
    dotAll (transposed body cts.ys
        (ires ++ (acc ++ (ct_carry ++ (slices i (Ct.leaves cts.ys) ++ eres))))) (d ++ c ++ a) =
      dotAll acc d + dotAll (ct_carry ++ slices i (cts.ys.map Ct.instantiateZeros))
        (body.jaxpr.eval (ires ++ (d ++ c ++ a) ++ eres)) := by
  have hlen : ∀ {xs : List (NdArray R)} {avals : List (List ℕ)}, xs.map NdArray.shape = avals →
      xs.length = avals.length := fun h => by rw [← h, List.length_map]
  have hlin : (d ++ c ++ a).map NdArray.shape = sig.linear := by
    rw [List.map_append, List.map_append, hd, hc, ha, Avals.linear]
  have hvalues : List.zipWith ctValue body.jaxpr.out_avals
      (ct_carry.map Ct.array ++ cts.ys.map (sliceCt i)) =
      ct_carry ++ slices i (cts.ys.map Ct.instantiateZeros) := by
    rw [body.out_avals, List.zipWith_append (by rw [List.length_map, hlen hct]),
      carry_values (hlen hct), values_slices hin cts.ys_avals]
  have hyslen : cts.ys.length = sig.ys.length := by
    have := congrArg List.length cts.ys_avals
    simpa [stackedAvals] using this
  have hshapes : (List.zipWith ctValue body.jaxpr.out_avals
      (ct_carry.map Ct.array ++ cts.ys.map (sliceCt i))).map NdArray.shape =
      sig.carry ++ sig.ys := by
    have hys : (cts.ys.map Ct.instantiateZeros).map NdArray.shape = stackedAvals n sig.ys := by
      rw [List.map_map, show NdArray.shape ∘ Ct.instantiateZeros = Ct.aval (R := R) from
        funext instantiateZeros_shape, cts.ys_avals]
    rw [hvalues, List.map_append, hct, slices_shapes hin hys]
  have hadj := backwardPass3_adjoint hbody hi hlin he
    (by rw [body.out_avals, List.length_append, List.length_append, List.length_map,
      List.length_map, hlen hct, hyslen]) hshapes
  have havals := backwardPass3_avals body hi he hshapes
  rw [hvalues] at hadj
  rw [transposed_append body (hlen hi) (hlen hacc) (hlen hct) (by simp [slices]), unflatten_slices]
  dsimp only
  generalize backwardPass3 body ires eres (ct_carry.map Ct.array ++ cts.ys.map (sliceCt i)) =
    accums at hadj havals
  rw [← hadj]
  rw [Avals.linear, List.append_assoc] at havals
  have htake : (accums.take sig.consts_dot.length).map Ct.aval = sig.consts_dot := by
    rw [List.map_take, havals, List.take_left]
  have hlens : accums.length = sig.consts_dot.length + (sig.carry.length + sig.xs_dot.length) := by
    simpa using congrArg List.length havals
  have hparts : dotAll (accums.map Ct.instantiateZeros) (d ++ (c ++ a)) =
      dotAll ((accums.take sig.consts_dot.length).map Ct.instantiateZeros) d +
        dotAll ((accums.drop sig.consts_dot.length).map Ct.instantiateZeros) (c ++ a) := by
    conv_lhs => rw [← List.take_append_drop sig.consts_dot.length accums, List.map_append]
    refine dotAll_append _ _ ?_
    rw [List.length_map, List.length_take, hlen hd]
    omega
  rw [List.append_assoc d, hparts, dotAll_append, dotAll_addTangents d (hacc.trans htake.symm)]
  · ring
  · rw [List.length_zipWith, List.length_take, hlen hacc, hlen hd]
    omega

/-! ## The run -/

/-- The scan. -/
def forward (body : Body R sig) (reverse : Bool) (n : ℕ) : Scan R :=
  ⟨sig.ires.length + sig.consts_dot.length, sig.carry.length, n, reverse, body.jaxpr⟩

/-- The transposed scan. -/
def backward (body : Body R sig) (reverse : Bool) {n : ℕ} (cts : Cotangents R sig n) : Scan R :=
  ⟨sig.ires.length, sig.consts_dot.length + sig.carry.length, n, !reverse,
    transposeScanJaxprFancy body cts⟩

/-- Inputs of the scan. -/
structure Inputs (R : Type) [CommRing R] (sig : Avals) (n : ℕ) where
  ires : List (NdArray R)
  consts_dot : List (NdArray R)
  carry : List (NdArray R)
  xs_dot : List (NdArray R)
  eres : List (NdArray R)
  ires_avals : ires.map NdArray.shape = sig.ires
  consts_dot_avals : consts_dot.map NdArray.shape = sig.consts_dot
  carry_avals : carry.map NdArray.shape = sig.carry
  xs_dot_avals : xs_dot.map NdArray.shape = stackedAvals n sig.xs_dot
  eres_avals : eres.map NdArray.shape = stackedAvals n sig.eres

section

variable (body : Body R sig) (reverse : Bool) {n : ℕ} (cts : Cotangents R sig n)

omit [CommRing R] in
theorem forward_typed : (forward body reverse n).Typed
    ⟨sig.ires ++ sig.consts_dot, sig.carry, sig.xs_dot ++ sig.eres, sig.ys⟩ where
  num_consts := (List.length_append).symm
  num_carry := rfl
  body_in := by
    refine body.in_avals.trans ?_
    simp only [Avals.linear, ScanSignature.body_in, List.append_assoc]
  body_out := body.out_avals

theorem backward_typed : (backward body reverse cts).Typed
    ⟨sig.ires, sig.consts_dot ++ sig.carry,
      (Ct.leaves cts.ys).map (fun x => x.shape.tail) ++ sig.eres, sig.xs_dot⟩ where
  num_consts := rfl
  num_carry := (List.length_append).symm
  body_in := by
    change transIn sig cts.ys = _
    simp only [transIn, ScanSignature.body_in, List.append_assoc]
  body_out := rfl

theorem position_backward {k : ℕ} (hk : k < n) : (backward body reverse cts).position k =
    (forward body reverse n).position (n - 1 - k) := by
  cases reverse with
  | false => rfl
  | true =>
      change k = n - 1 - (n - 1 - k)
      omega

/-- The positions of a run are all the positions. -/
theorem sum_position (s : Scan R) (f : ℕ → R) :
    ∑ k ∈ range s.length, f (s.position k) = ∑ i ∈ range s.length, f i := by
  unfold Scan.position
  cases s.reverse with
  | false => rfl
  | true => exact sum_range_reflect f s.length

end

namespace Inputs

variable {body : Body R sig} {n : ℕ} (inputs : Inputs R sig n)

theorem forward_operands : ScanSignature.Operands
    ⟨sig.ires ++ sig.consts_dot, sig.carry, sig.xs_dot ++ sig.eres, sig.ys⟩ n
    (inputs.ires ++ inputs.consts_dot) inputs.carry (inputs.xs_dot ++ inputs.eres) where
  consts := by rw [List.map_append, inputs.ires_avals, inputs.consts_dot_avals]
  init := inputs.carry_avals
  xs := by rw [List.map_append, inputs.xs_dot_avals, inputs.eres_avals, stackedAvals, stackedAvals,
    stackedAvals, List.map_append]

theorem backward_operands (cts : Cotangents R sig n) : ScanSignature.Operands
    ⟨sig.ires, sig.consts_dot ++ sig.carry,
      (Ct.leaves cts.ys).map (fun x => x.shape.tail) ++ sig.eres, sig.xs_dot⟩ n
    inputs.ires (sig.consts_dot.map NdArray.zeros ++ cts.carry.map Ct.instantiateZeros)
    (Ct.leaves cts.ys ++ inputs.eres) where
  consts := inputs.ires_avals
  init := by
    rw [List.map_append, List.map_map, List.map_map, show NdArray.shape ∘ Ct.instantiateZeros =
      Ct.aval (R := R) from funext instantiateZeros_shape, cts.carry_avals]
    exact congrArg (· ++ sig.carry) (List.map_id _)
  xs := by rw [List.map_append, leaves_avals cts.ys_avals, inputs.eres_avals, stackedAvals,
    stackedAvals, stackedAvals, List.map_append]

end Inputs

section

variable (body : Body R sig) (reverse : Bool) {n : ℕ} (cts : Cotangents R sig n)
  (inputs : Inputs R sig n)

/-- The carry of the scan. -/
def carryAt (j : ℕ) : List (NdArray R) :=
  (forward body reverse n).carryAfter (inputs.ires ++ inputs.consts_dot) inputs.carry
    (inputs.xs_dot ++ inputs.eres) j

/-- The `ys` of the scan. -/
def ysAt (i : ℕ) : List (NdArray R) :=
  (body.jaxpr.eval ((forward body reverse n).argsAt (inputs.ires ++ inputs.consts_dot) inputs.carry
    (inputs.xs_dot ++ inputs.eres) i)).drop sig.carry.length

/-- The carry of the transposed scan: what is accumulated for the constants, and the cotangents of
the carry. -/
def ctCarryAt (k : ℕ) : List (NdArray R) :=
  (backward body reverse cts).carryAfter inputs.ires
    (sig.consts_dot.map NdArray.zeros ++ cts.carry.map Ct.instantiateZeros)
    (Ct.leaves cts.ys ++ inputs.eres) k

/-- The cotangents of `xs`. -/
def ctXsAt (i : ℕ) : List (NdArray R) :=
  (transposed body cts.ys ((backward body reverse cts).argsAt inputs.ires
    (sig.consts_dot.map NdArray.zeros ++ cts.carry.map Ct.instantiateZeros)
    (Ct.leaves cts.ys ++ inputs.eres) i)).drop (sig.consts_dot.length + sig.carry.length)

theorem backward_run : (backward body reverse cts).run inputs.ires
    (sig.consts_dot.map NdArray.zeros ++ cts.carry.map Ct.instantiateZeros)
    (Ct.leaves cts.ys ++ inputs.eres) =
    ctCarryAt body reverse cts inputs n ++
      stackRows n sig.xs_dot (ctXsAt body reverse cts inputs) := by
  have hdrop : sig.linear.drop (sig.consts_dot.length + sig.carry.length) = sig.xs_dot := by
    rw [Avals.linear, ← List.length_append, List.drop_left]
  rw [← hdrop]
  rfl

theorem ctCarryAt_shapes {k : ℕ} (hk : k ≤ n) :
    (ctCarryAt body reverse cts inputs k).map NdArray.shape = sig.consts_dot ++ sig.carry :=
  (backward_typed body reverse cts).carryAfter_shapes (inputs.backward_operands cts) hk

theorem ctXsAt_shapes {i : ℕ} (hi : i < n) :
    (ctXsAt body reverse cts inputs i).map NdArray.shape = sig.xs_dot :=
  (backward_typed body reverse cts).rows_shapes (inputs.backward_operands cts) hi

variable {body reverse cts inputs}

/-- An iteration of the transposed scan, and the one of the scan at its position. -/
theorem step_adjoint (hbody : body.Adjoint) {k : ℕ} (hk : k < n) :
    dotAll (ctCarryAt body reverse cts inputs (k + 1))
        (inputs.consts_dot ++ carryAt body reverse inputs (n - 1 - k)) +
      dotAll (ctXsAt body reverse cts inputs ((backward body reverse cts).position k))
        (slices ((backward body reverse cts).position k) inputs.xs_dot) =
    dotAll (ctCarryAt body reverse cts inputs k)
        (inputs.consts_dot ++ carryAt body reverse inputs (n - k)) +
      dotAll (slices ((backward body reverse cts).position k) (cts.ys.map Ct.instantiateZeros))
        (ysAt body reverse inputs ((backward body reverse cts).position k)) := by
  have hlen : ∀ {xs : List (NdArray R)} {avals : List (List ℕ)}, xs.map NdArray.shape = avals →
      xs.length = avals.length := fun h => by rw [← h, List.length_map]
  have hlt : (backward body reverse cts).position k < n :=
    (backward body reverse cts).position_lt hk
  have hpos := position_backward body reverse cts hk
  have hself : (backward body reverse cts).position ((backward body reverse cts).position k) = k :=
    (backward body reverse cts).position_position hk
  have hself' : (forward body reverse n).position ((backward body reverse cts).position k) =
      n - 1 - k := by
    rw [hpos]
    exact (forward body reverse n).position_position (show n - 1 - k < n by omega)
  have hfw := forward_typed body reverse (n := n)
  have hC : (carryAt body reverse inputs (n - 1 - k)).map NdArray.shape = sig.carry :=
    hfw.carryAfter_shapes inputs.forward_operands (show n - 1 - k ≤ n by omega)
  have hT := ctCarryAt_shapes body reverse cts inputs (Nat.le_of_lt hk)
  -- the transposed body at the position
  obtain ⟨acc, ctc, hsplit, hacc, hctc⟩ := List.map_eq_append_iff.mp hT
  unfold ctCarryAt at hsplit
  have hargs : (backward body reverse cts).argsAt inputs.ires
      (sig.consts_dot.map NdArray.zeros ++ cts.carry.map Ct.instantiateZeros)
      (Ct.leaves cts.ys ++ inputs.eres) ((backward body reverse cts).position k) =
      inputs.ires ++ (acc ++ (ctc ++
        (slices ((backward body reverse cts).position k) (Ct.leaves cts.ys) ++
          slices ((backward body reverse cts).position k) inputs.eres))) := by
    rw [Scan.argsAt, hself, hsplit, Scan.bodyArgs, slices, List.map_append]
    simp only [List.append_assoc]
    rfl
  have hargs' : (forward body reverse n).argsAt (inputs.ires ++ inputs.consts_dot) inputs.carry
      (inputs.xs_dot ++ inputs.eres) ((backward body reverse cts).position k) =
      inputs.ires ++ (inputs.consts_dot ++ carryAt body reverse inputs (n - 1 - k) ++
        slices ((backward body reverse cts).position k) inputs.xs_dot) ++
          slices ((backward body reverse cts).position k) inputs.eres := by
    rw [Scan.argsAt, hself', Scan.bodyArgs, slices, List.map_append]
    simp only [List.append_assoc]
    rfl
  have hadj := transposed_adjoint hbody hlt cts inputs.ires_avals hacc hctc
    (slices_shapes hlt inputs.eres_avals) inputs.consts_dot_avals hC
    (slices_shapes hlt inputs.xs_dot_avals)
  rw [← hargs, ← hargs'] at hadj
  have hnext : ctCarryAt body reverse cts inputs (k + 1) =
      (transposed body cts.ys ((backward body reverse cts).argsAt inputs.ires
        (sig.consts_dot.map NdArray.zeros ++ cts.carry.map Ct.instantiateZeros)
        (Ct.leaves cts.ys ++ inputs.eres) ((backward body reverse cts).position k))).take
          (sig.consts_dot.length + sig.carry.length) := by
    rw [ctCarryAt, Scan.carryAfter, Scan.argsAt, hself]
    rfl
  have hlater : carryAt body reverse inputs (n - k) =
      (body.jaxpr.eval ((forward body reverse n).argsAt (inputs.ires ++ inputs.consts_dot)
        inputs.carry (inputs.xs_dot ++ inputs.eres) ((backward body reverse cts).position k))).take
          sig.carry.length := by
    rw [show n - k = n - 1 - k + 1 by omega, carryAt, Scan.carryAfter, Scan.argsAt, hself', hpos]
    rfl
  have hbefore : dotAll (ctCarryAt body reverse cts inputs k)
      (inputs.consts_dot ++ carryAt body reverse inputs (n - k)) =
      dotAll acc inputs.consts_dot + dotAll ctc (carryAt body reverse inputs (n - k)) := by
    rw [ctCarryAt, hsplit]
    exact dotAll_append _ _ ((hlen hacc).trans (hlen inputs.consts_dot_avals).symm)
  have hT' : (ctCarryAt body reverse cts inputs (k + 1)).length =
      (inputs.consts_dot ++ carryAt body reverse inputs (n - 1 - k)).length := by
    rw [hlen (ctCarryAt_shapes body reverse cts inputs hk), List.length_append, List.length_append,
      hlen inputs.consts_dot_avals, hlen hC]
  have hC' : (carryAt body reverse inputs (n - k)).length = ctc.length :=
    (hlen (hfw.carryAfter_shapes inputs.forward_operands (show n - k ≤ n by omega))).trans
      (hlen hctc).symm
  have hleft := dotAll_append (ctXsAt body reverse cts inputs ((backward body reverse cts).position k))
    (slices ((backward body reverse cts).position k) inputs.xs_dot) hT'
  have hright := dotAll_append
    (slices ((backward body reverse cts).position k) (cts.ys.map Ct.instantiateZeros))
    (ysAt body reverse inputs ((backward body reverse cts).position k)) hC'.symm
  rw [hnext, ctXsAt, List.take_append_drop, hadj] at hleft
  rw [hlater, ysAt, List.take_append_drop] at hright
  rw [hbefore, hnext, ctXsAt, ← hleft, hright, hlater, ysAt]
  ring

/-- What the iterations up to one have done. -/
theorem run_adjoint (hbody : body.Adjoint) : ∀ m ≤ n,
    dotAll (ctCarryAt body reverse cts inputs m)
        (inputs.consts_dot ++ carryAt body reverse inputs (n - m)) +
      ∑ k ∈ range m, dotAll (ctXsAt body reverse cts inputs ((backward body reverse cts).position k))
        (slices ((backward body reverse cts).position k) inputs.xs_dot) =
    dotAll (ctCarryAt body reverse cts inputs 0)
        (inputs.consts_dot ++ carryAt body reverse inputs n) +
      ∑ k ∈ range m,
        dotAll (slices ((backward body reverse cts).position k) (cts.ys.map Ct.instantiateZeros))
          (ysAt body reverse inputs ((backward body reverse cts).position k))
  | 0, _ => by rw [sum_range_zero, sum_range_zero, Nat.sub_zero]
  | m + 1, hm => by
      have ih := run_adjoint hbody m (by omega)
      have hstep := @step_adjoint R _ sig body reverse n cts inputs hbody m hm
      rw [sum_range_succ, sum_range_succ, show n - (m + 1) = n - 1 - m by omega]
      linear_combination ih + hstep

/-- The runs of the scan and of the transposed scan. -/
theorem scan_adjoint (hbody : body.Adjoint) :
    dotAll ((backward body reverse cts).run inputs.ires
        (sig.consts_dot.map NdArray.zeros ++ cts.carry.map Ct.instantiateZeros)
        (Ct.leaves cts.ys ++ inputs.eres))
      (inputs.consts_dot ++ inputs.carry ++ inputs.xs_dot) =
    dotAll (cts.carry.map Ct.instantiateZeros ++ cts.ys.map Ct.instantiateZeros)
      ((forward body reverse n).run (inputs.ires ++ inputs.consts_dot) inputs.carry
        (inputs.xs_dot ++ inputs.eres)) := by
  have hfw := forward_typed body reverse (n := n)
  have hys : ∀ i < n, (ysAt body reverse inputs i).map NdArray.shape = sig.ys :=
    fun i hi => hfw.rows_shapes inputs.forward_operands hi
  obtain ⟨hXavals, hX⟩ := stackRows_spec fun i hi => ctXsAt_shapes body reverse cts inputs hi
  obtain ⟨hYavals, hY⟩ := stackRows_spec hys
  have hcts : ∀ l : List (Ct R), (l.map Ct.instantiateZeros).map NdArray.shape = l.map Ct.aval := by
    intro l
    rw [List.map_map]
    exact List.map_congr_left fun ct _ => instantiateZeros_shape ct
  have hT := congrArg List.length (ctCarryAt_shapes body reverse cts inputs (Nat.le_refl n))
  have hC := congrArg List.length
    (hfw.carryAfter_shapes inputs.forward_operands (Nat.le_refl n))
  have hxs : dotAll (stackRows n sig.xs_dot (ctXsAt body reverse cts inputs)) inputs.xs_dot =
      ∑ i ∈ range n, dotAll (ctXsAt body reverse cts inputs i) (slices i inputs.xs_dot) := by
    rw [dotAll_slices hXavals inputs.xs_dot_avals]
    exact sum_congr rfl fun i hi => by rw [hX i (mem_range.mp hi)]
  have hysum : dotAll (cts.ys.map Ct.instantiateZeros) (stackRows n sig.ys (ysAt body reverse inputs)) =
      ∑ i ∈ range n, dotAll (slices i (cts.ys.map Ct.instantiateZeros))
        (ysAt body reverse inputs i) := by
    rw [dotAll_slices ((hcts cts.ys).trans cts.ys_avals) hYavals]
    exact sum_congr rfl fun i hi => by rw [hY i (mem_range.mp hi)]
  have hforward : (forward body reverse n).run (inputs.ires ++ inputs.consts_dot) inputs.carry
      (inputs.xs_dot ++ inputs.eres) =
      carryAt body reverse inputs n ++ stackRows n sig.ys (ysAt body reverse inputs) := by
    have hdrop : body.jaxpr.out_avals.drop sig.carry.length = sig.ys := by
      rw [body.out_avals, List.drop_left]
    rw [← hdrop]
    rfl
  have hzero : dotAll (ctCarryAt body reverse cts inputs 0)
      (inputs.consts_dot ++ carryAt body reverse inputs n) =
      dotAll (cts.carry.map Ct.instantiateZeros) (carryAt body reverse inputs n) := by
    have hlen := congrArg List.length inputs.consts_dot_avals
    rw [List.length_map] at hlen
    rw [ctCarryAt, Scan.carryAfter, dotAll_append _ _ (by rw [List.length_map, hlen]), dotAll_zeros,
      zero_add]
  have hrun := @run_adjoint R _ sig body reverse n cts inputs hbody n (Nat.le_refl n)
  have hreorder := sum_position (backward body reverse cts) fun i =>
    dotAll (ctXsAt body reverse cts inputs i) (slices i inputs.xs_dot)
  have hreorder' := sum_position (backward body reverse cts) fun i =>
    dotAll (slices i (cts.ys.map Ct.instantiateZeros)) (ysAt body reverse inputs i)
  have hinit : carryAt body reverse inputs (n - n) = inputs.carry := by rw [Nat.sub_self]; rfl
  rw [hinit] at hrun
  rw [List.length_map] at hT hC
  have hcarry := congrArg List.length inputs.carry_avals
  have hconsts := congrArg List.length inputs.consts_dot_avals
  have hctlen := congrArg List.length cts.carry_avals
  rw [List.length_map] at hcarry hconsts hctlen
  rw [backward_run, hforward, dotAll_append _ _ (by
      rw [hT, List.length_append, List.length_append, hconsts, hcarry]),
    dotAll_append _ _ (by rw [List.length_map, hctlen, carryAt, hC]), hxs, hysum, ← hzero]
  exact (congrArg (_ + ·) hreorder.symm).trans (hrun.trans (congrArg (_ + ·) hreorder'))

end

/-! ## The rule -/

/-- The cotangents that the rule can transpose: all are `Zero`, or none is of a linear `ys`. -/
def ZerosFit {n : ℕ} (body : Body R sig) (cts : Cotangents R sig n) : Prop :=
  (sig.carry = [] ∧ ∀ ct ∈ cts.ys, ct.isZero = true) ∨
    ∀ p ∈ (body.linear_out.drop sig.carry.length).zip cts.ys, p.1 = true → p.2.isZero = false

theorem ctCheck_carry : ∀ (linear : List Bool) (avals : List (List ℕ)),
    ((linear.zip (avals.zip avals)).all fun p => ctCheck p.1 p.2.1 p.2.2) = true
  | [], _ => rfl
  | _ :: _, [] => rfl
  | l :: linear, aval :: avals => by
      rw [List.zip_cons_cons, List.zip_cons_cons, List.all_cons, ctCheck_carry linear avals]
      simp [ctCheck]

omit [CommRing R] in
/-- A `Zero` has the leading axis that the outputs of the body do not have. -/
theorem ctCheck_ys {n : ℕ} : ∀ {linear : List Bool} {avals : List (List ℕ)} {ct_ys : List (Ct R)},
    ct_ys.map Ct.aval = stackedAvals n avals →
    (((linear.zip (avals.zip (ct_ys.map bodyAval))).all fun p => ctCheck p.1 p.2.1 p.2.2) = true ↔
      ∀ p ∈ linear.zip ct_ys, p.1 = true → p.2.isZero = false)
  | [], _, _, _ => by simp
  | _ :: _, [], [], _ => by simp
  | l :: linear, aval :: avals, ct :: ct_ys, h => by
      obtain ⟨hct, h⟩ := List.cons.inj h
      have hhead : ctCheck l aval (bodyAval ct) = true ↔ (l = true → ct.isZero = false) := by
        cases ct with
        | zero a =>
            obtain rfl : a = n :: aval := hct
            have hne : (n :: aval == aval) = false := by simp
            cases l <;> simp [ctCheck, bodyAval, Ct.isZero, hne]
        | array x =>
            have hx : x.shape.tail = aval := congrArg List.tail hct
            simp [ctCheck, bodyAval, Ct.isZero, hx]
      rw [List.map_cons, List.zip_cons_cons, List.zip_cons_cons, List.zip_cons_cons, List.all_cons,
        Bool.and_eq_true, ctCheck_ys h, hhead, List.forall_mem_cons]

theorem accepts_iff {n : ℕ} (body : Body R sig) (cts : Cotangents R sig n) :
    accepts body ((cts.carry.map Ct.instantiateZeros).map (fun _ => false) ++ cts.ys.map Ct.isZero)
      ((cts.carry.map Ct.instantiateZeros).map NdArray.shape ++ cts.ys.map bodyAval) = true ↔
    ZerosFit body cts := by
  have hcarry : (cts.carry.map Ct.instantiateZeros).map NdArray.shape = sig.carry := by
    rw [List.map_map, ← cts.carry_avals]
    exact List.map_congr_left fun ct _ => instantiateZeros_shape ct
  have hlen : cts.carry.length = sig.carry.length := by
    rw [← cts.carry_avals, List.length_map]
  unfold accepts ZerosFit
  rw [Bool.or_eq_true]
  refine or_congr ?_ ?_
  · rw [List.all_append, Bool.and_eq_true]
    refine and_congr ?_ (by simp)
    rw [← List.length_eq_zero_iff, ← hlen, List.length_eq_zero_iff]
    cases cts.carry <;> simp
  · have htake : (body.linear_out.take sig.carry.length).length = sig.carry.length := by
      rw [List.length_take, body.linear_out_length]
      omega
    rw [hcarry, body.out_avals, List.zip_append rfl,
      ← List.take_append_drop sig.carry.length body.linear_out,
      List.zip_append (by rw [htake, List.length_zip, Nat.min_self]), List.all_append, ctCheck_carry,
      Bool.true_and, ctCheck_ys cts.ys_avals, List.take_append_drop]

/-- The operands of the scan in the backward pass: accumulators where it is linear. -/
def operands (sig : Avals) (n : ℕ) (ires eres : List (NdArray R)) : List (Operand R) :=
  ires.map .array ++ (sig.consts_dot.map .valAccum ++ (sig.carry.map .valAccum ++
    ((stackedAvals n sig.xs_dot).map .valAccum ++ eres.map .array)))

omit [CommRing R] in
theorem count_array (xs : List (NdArray R)) :
    ((xs.map Operand.array).map Operand.isGradAccum).count true = 0 := by
  rw [List.map_map, List.count_eq_zero]
  simp [Operand.isGradAccum]

omit [CommRing R] in
theorem count_valAccum (avals : List (List ℕ)) :
    ((avals.map (Operand.valAccum (R := R))).map Operand.isGradAccum).count true =
      avals.length := by
  induction avals with
  | nil => rfl
  | cons aval avals ih =>
      rw [List.map_cons, List.map_cons, Operand.isGradAccum, List.count_cons_self, ih,
        List.length_cons]

omit [CommRing R] in
theorem filterMap_accums : ∀ {avals : List (List ℕ)} {outs : List (NdArray R)},
    outs.length = avals.length →
    ((avals.map (Operand.valAccum (R := R))).zip outs).filterMap
      (fun p : Operand R × NdArray R => if p.1.isGradAccum then some p.2 else none) = outs
  | [], [], _ => rfl
  | aval :: avals, x :: outs, h => by
      have ih := filterMap_accums (Nat.succ.inj h)
      exact congrArg (x :: ·) ih

theorem map_value_array (xs : List (NdArray R)) :
    (xs.map Operand.array).map Operand.value = xs := by
  rw [List.map_map]
  exact List.map_id _

section

variable {n : ℕ} {ires eres : List (NdArray R)}

omit [CommRing R] in
/-- The number of residuals is found by counting. -/
theorem num_ires_eq (hi : ires.length = sig.ires.length) :
    let consts_lin := ((operands sig n ires eres).map Operand.isGradAccum).take
      (sig.ires.length + sig.consts_dot.length)
    consts_lin.length - consts_lin.count true = sig.ires.length := by
  have htake : ((operands sig n ires eres).map Operand.isGradAccum).take
      (sig.ires.length + sig.consts_dot.length) =
      (ires.map Operand.array).map Operand.isGradAccum ++
        (sig.consts_dot.map (Operand.valAccum (R := R))).map Operand.isGradAccum := by
    rw [operands, List.map_append, List.map_append, ← List.append_assoc,
      List.take_left' (by simp [hi])]
  simp only [htake]
  rw [List.count_append, count_array, count_valAccum]
  simp [hi]

omit [CommRing R] in
theorem num_xs_eq (hi : ires.length = sig.ires.length) :
    (((operands sig n ires eres).map Operand.isGradAccum).drop
      (sig.ires.length + sig.consts_dot.length + sig.carry.length)).count true =
      sig.xs_dot.length := by
  have hdrop : (operands sig n ires eres).drop
      (sig.ires.length + sig.consts_dot.length + sig.carry.length) =
      (stackedAvals n sig.xs_dot).map .valAccum ++ eres.map .array := by
    rw [operands, ← List.append_assoc, ← List.append_assoc,
      List.drop_left' (by simp [hi, Nat.add_assoc])]
  rw [← List.map_drop, hdrop, List.map_append, List.count_append, count_array, count_valAccum,
    stackedAvals, List.length_map, Nat.add_zero]

omit [CommRing R] in
/-- The groups that the operands are split in. -/
theorem split_operands (hi : ires.length = sig.ires.length) :
    (operands sig n ires eres).take sig.ires.length = ires.map .array ∧
    ((operands sig n ires eres).drop sig.ires.length).take sig.consts_dot.length =
      sig.consts_dot.map .valAccum ∧
    ((operands sig n ires eres).drop (sig.ires.length + sig.consts_dot.length)).take
      sig.carry.length = sig.carry.map .valAccum ∧
    ((operands sig n ires eres).drop
      (sig.ires.length + sig.consts_dot.length + sig.carry.length)).take sig.xs_dot.length =
      (stackedAvals n sig.xs_dot).map .valAccum ∧
    (operands sig n ires eres).drop
      (sig.ires.length + sig.consts_dot.length + sig.carry.length + sig.xs_dot.length) =
      eres.map .array := by
  have hI : (ires.map Operand.array).length = sig.ires.length := by rw [List.length_map, hi]
  refine ⟨List.take_left' hI, ?_, ?_, ?_, ?_⟩
  · rw [operands, List.drop_left' hI, List.take_left' (by simp)]
  · rw [operands, ← List.drop_drop, List.drop_left' hI, List.drop_left' (by simp),
      List.take_left' (by simp)]
  · rw [operands, ← List.drop_drop, ← List.drop_drop, List.drop_left' hI, List.drop_left' (by simp),
      List.drop_left' (by simp), List.take_left' (by simp [stackedAvals])]
  · rw [operands, ← List.drop_drop, ← List.drop_drop, ← List.drop_drop, List.drop_left' hI,
      List.drop_left' (by simp), List.drop_left' (by simp), List.drop_left' (by simp [stackedAvals])]

end

theorem length_run (body : Body R sig) (reverse : Bool) {n : ℕ} (cts : Cotangents R sig n)
    (inputs : Inputs R sig n) :
    ((backward body reverse cts).run inputs.ires
      (sig.consts_dot.map NdArray.zeros ++ cts.carry.map Ct.instantiateZeros)
      (Ct.leaves cts.ys ++ inputs.eres)).length =
      (sig.consts_dot ++ sig.carry ++ stackedAvals n sig.xs_dot).length := by
  have hT := congrArg List.length (ctCarryAt_shapes body reverse cts inputs (Nat.le_refl n))
  have hrows := congrArg List.length
    (stackRows_spec fun i hi => ctXsAt_shapes body reverse cts inputs hi).1
  rw [List.length_map] at hT hrows
  rw [backward_run, List.length_append, List.length_append, hT, hrows]

/-- The rule on such operands. -/
theorem scanTransposeFancy_eq (body : Body R sig) (reverse : Bool) {n : ℕ} (cts : Cotangents R sig n)
    (inputs : Inputs R sig n) :
    scanTransposeFancy body reverse n (sig.ires.length + sig.consts_dot.length) sig.carry.length cts
        (operands sig n inputs.ires inputs.eres) =
      if accepts body
          ((cts.carry.map Ct.instantiateZeros).map (fun _ => false) ++ cts.ys.map Ct.isZero)
          ((cts.carry.map Ct.instantiateZeros).map NdArray.shape ++ cts.ys.map bodyAval) then
        .ok ((backward body reverse cts).run inputs.ires
          (sig.consts_dot.map NdArray.zeros ++ cts.carry.map Ct.instantiateZeros)
          (Ct.leaves cts.ys ++ inputs.eres))
      else .error .valueError := by
  have hi : inputs.ires.length = sig.ires.length := by
    rw [← inputs.ires_avals, List.length_map]
  have hcarry : cts.carry.length = sig.carry.length := by
    rw [← cts.carry_avals, List.length_map]
  obtain ⟨htake, hconsts, hC, hxs, heres⟩ := @split_operands R sig n _ inputs.eres hi
  have havals : (body.jaxpr.in_avals.drop sig.ires.length).take sig.consts_dot.length =
      sig.consts_dot := by
    rw [body.in_avals, Avals.linear, List.append_assoc, List.append_assoc, List.append_assoc,
      List.drop_left, List.take_left]
  have hnum := @num_ires_eq R sig n _ inputs.eres hi
  dsimp only at hnum
  unfold scanTransposeFancy
  dsimp only
  rw [hnum, num_xs_eq hi, Nat.add_sub_cancel_left, htake, hconsts, hC, hxs, heres, havals,
    map_value_array, map_value_array, List.length_map, List.length_map, ← List.map_append,
    ← List.map_append]
  refine if_congr Iff.rfl (congrArg Except.ok ?_) rfl
  have heval : (backward body reverse cts).eval (inputs.ires ++ sig.consts_dot.map NdArray.zeros ++
      cts.carry.map Ct.instantiateZeros ++ Ct.leaves cts.ys ++ inputs.eres) =
      (backward body reverse cts).run inputs.ires
        (sig.consts_dot.map NdArray.zeros ++ cts.carry.map Ct.instantiateZeros)
        (Ct.leaves cts.ys ++ inputs.eres) := by
    rw [← Scan.eval_append (s := backward body reverse cts) hi (by simp [backward, hcarry])]
    simp only [List.append_assoc]
  rw [← backward, heval]
  exact filterMap_accums (length_run body reverse cts inputs)

/-- The cotangents that are accumulated in the linear operands are those of the adjoint. -/
def IsAdjoint (body : Body R sig) (reverse : Bool) {n : ℕ} (cts : Cotangents R sig n)
    (ires eres : List (NdArray R)) : Prop :=
  ∃ outs, scanTransposeFancy body reverse n (sig.ires.length + sig.consts_dot.length)
      sig.carry.length cts (operands sig n ires eres) = .ok outs ∧
    ∀ inputs : Inputs R sig n, inputs.ires = ires → inputs.eres = eres →
      dotAll ((cts.carry ++ cts.ys).map Ct.instantiateZeros)
        ((forward body reverse n).eval (inputs.ires ++ inputs.consts_dot ++ inputs.carry ++
          (inputs.xs_dot ++ inputs.eres))) =
      dotAll outs (inputs.consts_dot ++ inputs.carry ++ inputs.xs_dot)

/-- The rule computes the adjoint exactly for the cotangents that it can transpose. -/
theorem isAdjoint_iff {body : Body R sig} (hbody : body.Adjoint) (reverse : Bool) {n : ℕ}
    (cts : Cotangents R sig n) {ires eres : List (NdArray R)}
    (hires : ires.map NdArray.shape = sig.ires)
    (heres : eres.map NdArray.shape = stackedAvals n sig.eres) :
    IsAdjoint body reverse cts ires eres ↔ ZerosFit body cts := by
  have hzeros : ∀ avals : List (List ℕ),
      (avals.map (NdArray.zeros (R := R))).map NdArray.shape = avals := by
    intro avals
    rw [List.map_map]
    exact List.map_id _
  have heq := scanTransposeFancy_eq body reverse cts
    { ires, eres, consts_dot := sig.consts_dot.map .zeros, carry := sig.carry.map .zeros
      xs_dot := (stackedAvals n sig.xs_dot).map .zeros, ires_avals := hires, eres_avals := heres
      consts_dot_avals := hzeros _, carry_avals := hzeros _, xs_dot_avals := hzeros _ }
  dsimp only at heq
  unfold IsAdjoint
  rw [heq, ← accepts_iff body cts]
  constructor
  · rintro ⟨outs, houts, -⟩
    split at houts
    · next h => exact h
    · cases houts
  · intro h
    refine ⟨_, if_pos h, fun inputs hi he => ?_⟩
    subst hi he
    have hconsts : (inputs.ires ++ inputs.consts_dot).length =
        (forward body reverse n).num_consts := by
      have h := congrArg List.length inputs.forward_operands.consts
      rw [List.length_map] at h
      exact h.trans List.length_append
    have hcarry : inputs.carry.length = (forward body reverse n).num_carry := by
      have h := congrArg List.length inputs.carry_avals
      rwa [List.length_map] at h
    rw [Scan.eval_append hconsts hcarry, List.map_append]
    exact (scan_adjoint hbody).symm

/-! The body `c ↦ (c, c)`. -/

def copySignature : Avals := ⟨[], [], [[]], [], [], [[]]⟩

def copyBody : Body ℤ copySignature where
  jaxpr :=
    { in_avals := [[]]
      out_avals := [[], []]
      eval := fun args => args ++ args
      typed := fun args h => by rw [List.map_append, h]; rfl }
  in_avals := rfl
  out_avals := rfl
  linear_out := [true, true]
  linear_out_length := rfl
  pullback _ _ cts := [(cts.getD 0 default).add (cts.getD 1 default)]
  typed _ _ cts _ _ h := by
    obtain ⟨ct, cts, rfl, hct, -⟩ := List.map_eq_cons_iff.mp h
    exact congrArg (· :: []) hct

theorem copyBody_adjoint : copyBody.Adjoint := by
  intro ires lin eres cts hi hl he hcts
  obtain rfl := List.map_eq_nil_iff.mp hi
  obtain rfl := List.map_eq_nil_iff.mp he
  obtain ⟨c, lin, rfl, hc, hl⟩ := List.map_eq_cons_iff.mp hl
  obtain rfl := List.map_eq_nil_iff.mp hl
  obtain ⟨ct, cts, rfl, hct, hcts⟩ := List.map_eq_cons_iff.mp hcts
  obtain ⟨ct', cts, rfl, hct', hcts⟩ := List.map_eq_cons_iff.mp hcts
  obtain rfl := List.map_eq_nil_iff.mp hcts
  change dotAll [ct.add ct'] [c] = dotAll [ct, ct'] [c, c]
  rw [dotAll_cons, dotAll_cons, dotAll_cons, NdArray.dot_add (hct.trans hct'.symm)]
  simp only [dotAll_nil]
  ring

/-- Cotangents of three copies, as arrays. -/
def copyCotangents : Cotangents ℤ copySignature 3 :=
  ⟨[.array (.ofFn [] fun _ => 1)], [.array (.ofFn [3] fun _ => 1)], rfl, rfl⟩

theorem copyBody_isAdjoint : IsAdjoint copyBody false copyCotangents [] [] :=
  (isAdjoint_iff copyBody_adjoint false copyCotangents rfl rfl).mpr (.inr (by
    intro p hp _
    rw [List.mem_singleton.mp hp]
    rfl))

/-- A symbolic zero for `ys` has the aval of the stacked array in the body, and is refused there. -/
theorem zeroYs_not_isAdjoint : ¬ ∀ (sig : Avals) (body : Body ℤ sig), body.Adjoint →
    ∀ (reverse : Bool) (n : ℕ) (cts : Cotangents ℤ sig n) (ires eres : List (NdArray ℤ)),
      ires.map NdArray.shape = sig.ires → eres.map NdArray.shape = stackedAvals n sig.eres →
      IsAdjoint body reverse cts ires eres := by
  intro h
  obtain ⟨outs, houts, -⟩ := h copySignature copyBody copyBody_adjoint false 3
    ⟨[.array (.ofFn [] fun _ => 1)], [.zero [3]], rfl, rfl⟩ [] [] rfl rfl
  cases houts

end JaxDas.ScanTranspose
