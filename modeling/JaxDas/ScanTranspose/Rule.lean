import JaxDas.Lib.Pairing
import JaxDas.Loops.Scan

/-!
# Transposing a scan

`_scan_transpose_fancy` of a scan without refs, so that no binder is moved. The operands are the
intensive residuals, the linear constants, the carry, the linear `xs` and the extensive residuals.
What `backward_pass3` computes of the body is a parameter; how it treats the cotangents that it is
given is modelled.
-/

namespace JaxDas.ScanTranspose

variable {R : Type} [CommRing R]

/-- A cotangent: a symbolic `Zero` with its aval, or an array. -/
inductive Ct (R : Type) where
  | zero (aval : List ℕ)
  | array (x : NdArray R)

namespace Ct

def aval : Ct R → List ℕ
  | zero aval => aval
  | array x => x.shape

def isZero : Ct R → Bool
  | zero _ => true
  | array _ => false

def instantiateZeros : Ct R → NdArray R
  | zero aval => .zeros aval
  | array x => x

/-- The arrays of cotangents, as `tree_flatten` collects them. -/
def leaves : List (Ct R) → List (NdArray R)
  | [] => []
  | zero _ :: cts => leaves cts
  | array x :: cts => x :: leaves cts

/-- `tree_unflatten`: a `Zero` stays as it is. -/
def unflatten : List (Ct R) → List (NdArray R) → List (Ct R)
  | [], _ => []
  | zero aval :: tree, xs => zero aval :: unflatten tree xs
  | array _ :: tree, xs => array (xs.headD default) :: unflatten tree xs.tail

end Ct

/-- An operand of the scan: an array, or an accumulator of cotangents, where the scan is linear. -/
inductive Operand (R : Type) where
  | array (x : NdArray R)
  | valAccum (aval : List ℕ)

namespace Operand

def isGradAccum : Operand R → Bool
  | array _ => false
  | valAccum _ => true

def value : Operand R → NdArray R
  | array x => x
  | valAccum aval => .zeros aval

def aval : Operand R → List ℕ
  | array x => x.shape
  | valAccum aval => aval

end Operand

/-- The avals of the body. -/
structure Avals where
  ires : List (List ℕ)
  consts_dot : List (List ℕ)
  carry : List (List ℕ)
  xs_dot : List (List ℕ)
  eres : List (List ℕ)
  ys : List (List ℕ)

/-- The avals of the linear binders. -/
def Avals.linear (sig : Avals) : List (List ℕ) := sig.consts_dot ++ sig.carry ++ sig.xs_dot

/-- The body of a scan, with what `backward_pass3` finds in it: the outputs that it has accumulators
for, and the cotangents of the linear inputs by those of the outputs. -/
structure Body (R : Type) (sig : Avals) where
  jaxpr : ClosedJaxpr R
  in_avals : jaxpr.in_avals = sig.ires ++ sig.linear ++ sig.eres
  out_avals : jaxpr.out_avals = sig.carry ++ sig.ys
  linear_out : List Bool
  linear_out_length : linear_out.length = sig.carry.length + sig.ys.length
  pullback : (ires eres cts : List (NdArray R)) → List (NdArray R)
  typed : ∀ ires eres cts, ires.map NdArray.shape = sig.ires → eres.map NdArray.shape = sig.eres →
    cts.map NdArray.shape = sig.carry ++ sig.ys →
    (pullback ires eres cts).map NdArray.shape = sig.linear

/-- `backward_pass3` computes the adjoint of the body, for the residuals that it is given. -/
def Body.Adjoint {sig : Avals} (body : Body R sig) : Prop :=
  ∀ ires lin eres cts, ires.map NdArray.shape = sig.ires → lin.map NdArray.shape = sig.linear →
    eres.map NdArray.shape = sig.eres → cts.map NdArray.shape = sig.carry ++ sig.ys →
    dotAll (body.pullback ires eres cts) lin = dotAll cts (body.jaxpr.eval (ires ++ lin ++ eres))

inductive TransposeError where
  /-- `Expected cotangent type ... for primal type ..., but got ...` -/
  | valueError
deriving DecidableEq, Repr

/-! ## The backward pass of the body -/

section

variable {sig : Avals} (body : Body R sig)

/-- `ct_check`, where there is an accumulator. -/
def ctCheck (linear : Bool) (expected ct_aval : List ℕ) : Bool := !linear || ct_aval == expected

/-- Whether `backward_pass3` takes cotangents with such avals. It returns at once when all of them are
`Zero`. -/
def accepts (zeros : List Bool) (ct_avals : List (List ℕ)) : Bool :=
  zeros.all id ||
    (body.linear_out.zip (body.jaxpr.out_avals.zip ct_avals)).all fun p => ctCheck p.1 p.2.1 p.2.2

/-- The cotangent of an output, as an array. -/
def ctValue (aval : List ℕ) : Ct R → NdArray R
  | .zero _ => .zeros aval
  | .array x => x

/-- What `backward_pass3` accumulates for the linear inputs, of cotangents that it takes. -/
def backwardPass3 (ires eres : List (NdArray R)) (cts : List (Ct R)) : List (Ct R) :=
  if cts.all Ct.isZero then sig.linear.map .zero
  else (body.pullback ires eres (List.zipWith ctValue body.jaxpr.out_avals cts)).map .array

/-- `add_tangents` -/
def addTangents (x : NdArray R) : Ct R → NdArray R
  | .zero _ => x
  | .array y => x.add y

/-! ## The transposed body -/

/-- The avals of the cotangents in the body: those of arrays lose the leading axis, a `Zero` is kept. -/
def bodyAval : Ct R → List ℕ
  | .zero aval => aval
  | .array x => x.shape.tail

def transposed (ct_ys : List (Ct R)) (args : List (NdArray R)) : List (NdArray R) :=
  let ires := args.take sig.ires.length
  let args := args.drop sig.ires.length
  let ct_immut_consts := args.take sig.consts_dot.length
  let args := args.drop sig.consts_dot.length
  let ct_carry := args.take sig.carry.length
  let args := args.drop sig.carry.length
  let cts := ct_carry.map .array ++ Ct.unflatten ct_ys (args.take (Ct.leaves ct_ys).length)
  let eres := args.drop (Ct.leaves ct_ys).length
  let accums := backwardPass3 body ires eres cts
  List.zipWith addTangents ct_immut_consts (accums.take sig.consts_dot.length) ++
    (accums.drop sig.consts_dot.length).map Ct.instantiateZeros

/-! ### Its shapes -/

theorem transposed_append {ct_ys : List (Ct R)} {ires consts carry ys : List (NdArray R)}
    (hi : ires.length = sig.ires.length) (hd : consts.length = sig.consts_dot.length)
    (hc : carry.length = sig.carry.length) (hy : ys.length = (Ct.leaves ct_ys).length)
    (eres : List (NdArray R)) :
    transposed body ct_ys (ires ++ (consts ++ (carry ++ (ys ++ eres)))) =
      let accums := backwardPass3 body ires eres (carry.map .array ++ Ct.unflatten ct_ys ys)
      List.zipWith addTangents consts (accums.take sig.consts_dot.length) ++
        (accums.drop sig.consts_dot.length).map Ct.instantiateZeros := by
  unfold transposed
  simp only [List.take_left' hi, List.drop_left' hi, List.take_left' hd, List.drop_left' hd,
    List.take_left' hc, List.drop_left' hc, List.take_left' hy, List.drop_left' hy]

theorem unflatten_values : ∀ {ct_ys : List (Ct R)} {n : ℕ} {avals : List (List ℕ)}
    {ys : List (NdArray R)}, ct_ys.map Ct.aval = stackedAvals n avals →
    ys.map NdArray.shape = (Ct.leaves ct_ys).map (fun x => x.shape.tail) →
    (List.zipWith ctValue avals (Ct.unflatten ct_ys ys)).map NdArray.shape = avals
  | [], n, [], ys, _, _ => rfl
  | .zero a :: ct_ys, n, aval :: avals, ys, h, hy => by
      obtain ⟨-, h⟩ := List.cons.inj h
      rw [Ct.unflatten, List.zipWith_cons_cons, List.map_cons, unflatten_values h hy]
      rfl
  | .array x :: ct_ys, n, aval :: avals, y :: ys, h, hy => by
      obtain ⟨hx, h⟩ := List.cons.inj h
      obtain ⟨hy, hys⟩ := List.cons.inj hy
      have hshape : y.shape = aval := hy.trans (congrArg List.tail hx)
      rw [Ct.unflatten, List.zipWith_cons_cons, List.map_cons, List.tail_cons,
        unflatten_values h hys]
      exact congrArg (· :: avals) hshape

theorem backwardPass3_avals {ires eres : List (NdArray R)} {cts : List (Ct R)}
    (hi : ires.map NdArray.shape = sig.ires) (he : eres.map NdArray.shape = sig.eres)
    (hcts : (List.zipWith ctValue body.jaxpr.out_avals cts).map NdArray.shape =
      sig.carry ++ sig.ys) :
    (backwardPass3 body ires eres cts).map Ct.aval = sig.linear := by
  unfold backwardPass3
  split
  · rw [List.map_map]
    exact List.map_id _
  · rw [List.map_map]
    exact body.typed ires eres _ hi he hcts

theorem addTangents_shapes : ∀ {xs : List (NdArray R)} {cts : List (Ct R)},
    xs.length = cts.length →
    (List.zipWith addTangents xs cts).map NdArray.shape = xs.map NdArray.shape
  | [], [], _ => rfl
  | x :: xs, ct :: cts, h => by
      rw [List.zipWith_cons_cons, List.map_cons, List.map_cons,
        addTangents_shapes (Nat.succ.inj h)]
      cases ct <;> rfl

theorem instantiateZeros_shape (ct : Ct R) : ct.instantiateZeros.shape = ct.aval := by
  cases ct <;> rfl

theorem carry_values : ∀ {avals : List (List ℕ)} {xs : List (NdArray R)},
    xs.length = avals.length →
    List.zipWith ctValue avals (xs.map Ct.array) = xs
  | [], [], _ => rfl
  | aval :: avals, x :: xs, h => by
      rw [List.map_cons, List.zipWith_cons_cons, carry_values (Nat.succ.inj h)]
      rfl

/-! ## The rule -/

/-- Cotangents of the outputs of the scan. -/
structure Cotangents (R : Type) (sig : Avals) (length : ℕ) where
  carry : List (Ct R)
  ys : List (Ct R)
  carry_avals : carry.map Ct.aval = sig.carry
  ys_avals : ys.map Ct.aval = stackedAvals length sig.ys

/-- The avals of the transposed body: constants, carry and extensive operands, and its outputs. -/
def transIn (sig : Avals) (ct_ys : List (Ct R)) : List (List ℕ) :=
  sig.ires ++ (sig.consts_dot ++ (sig.carry ++
    ((Ct.leaves ct_ys).map (fun x => x.shape.tail) ++ sig.eres)))

theorem transposed_typed {length : ℕ} (cts : Cotangents R sig length) {args : List (NdArray R)}
    (h : args.map NdArray.shape = transIn sig cts.ys) :
    (transposed body cts.ys args).map NdArray.shape = sig.linear := by
  obtain ⟨ires, args, rfl, hi, h⟩ := List.map_eq_append_iff.mp h
  obtain ⟨consts, args, rfl, hd, h⟩ := List.map_eq_append_iff.mp h
  obtain ⟨carry, args, rfl, hc, h⟩ := List.map_eq_append_iff.mp h
  obtain ⟨ys, eres, rfl, hy, he⟩ := List.map_eq_append_iff.mp h
  have hlen : carry.length = sig.carry.length := by rw [← hc, List.length_map]
  have hcts : (List.zipWith ctValue body.jaxpr.out_avals (carry.map Ct.array ++
      Ct.unflatten cts.ys ys)).map NdArray.shape = sig.carry ++ sig.ys := by
    rw [body.out_avals, List.zipWith_append (by rw [List.length_map, hlen]), carry_values hlen,
      List.map_append, hc, unflatten_values cts.ys_avals hy]
  have havals := backwardPass3_avals body hi he hcts
  rw [transposed_append body (by rw [← hi, List.length_map]) (by rw [← hd, List.length_map]) hlen
    (by simpa using congrArg List.length hy)]
  dsimp only
  rw [List.map_append, addTangents_shapes, hd, List.map_map,
    show NdArray.shape ∘ Ct.instantiateZeros = Ct.aval (R := R) from funext instantiateZeros_shape,
    List.map_drop, havals]
  · rw [Avals.linear, List.append_assoc, List.drop_left]
  · have hlen := congrArg List.length havals
    have hlen' := congrArg List.length hd
    simp only [Avals.linear, List.length_map, List.length_append] at hlen hlen'
    rw [List.length_take]
    omega

/-- `_transpose_scan_jaxpr_fancy` -/
def transposeScanJaxprFancy {length : ℕ} (cts : Cotangents R sig length) : ClosedJaxpr R where
  in_avals := transIn sig cts.ys
  out_avals := sig.linear
  eval := transposed body cts.ys
  typed _ h := transposed_typed body cts h

/-- `_scan_transpose_fancy`: the cotangents that are accumulated in the operands that are accumulators. -/
def scanTransposeFancy (reverse : Bool) (length num_consts num_carry : ℕ)
    (cts : Cotangents R sig length) (args : List (Operand R)) :
    Except TransposeError (List (NdArray R)) :=
  let linear := args.map Operand.isGradAccum
  let consts_lin := linear.take num_consts
  let xs_lin := linear.drop (num_consts + num_carry)
  let num_ires := consts_lin.length - consts_lin.count true
  let ires := args.take num_ires
  let consts_dot := (args.drop num_ires).take (num_consts - num_ires)
  let carry_dot := (args.drop num_consts).take num_carry
  let xs_dot := (args.drop (num_consts + num_carry)).take (xs_lin.count true)
  let eres := args.drop (num_consts + num_carry + xs_lin.count true)
  let ct_carry := cts.carry.map Ct.instantiateZeros
  let immut_const_avals := (body.jaxpr.in_avals.drop num_ires).take (num_consts - num_ires)
  let ct_immut_consts : List (NdArray R) := immut_const_avals.map NdArray.zeros
  let trans_in := ires.map Operand.value ++ ct_immut_consts ++ ct_carry ++ Ct.leaves cts.ys ++
    eres.map Operand.value
  if accepts body (ct_carry.map (fun _ => false) ++ cts.ys.map Ct.isZero)
      (ct_carry.map NdArray.shape ++ cts.ys.map bodyAval) then
    let scan : Scan R :=
      ⟨num_ires, consts_dot.length + carry_dot.length, length, !reverse,
        transposeScanJaxprFancy body cts⟩
    .ok (((consts_dot ++ carry_dot ++ xs_dot).zip (scan.eval trans_in)).filterMap fun p =>
      if p.1.isGradAccum then some p.2 else none)
  else .error .valueError

end

end JaxDas.ScanTranspose
