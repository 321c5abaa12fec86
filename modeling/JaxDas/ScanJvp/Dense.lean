import JaxDas.ScanJvp.Derivative
import JaxDas.ScanSplit.Preserves

/-!
# The derivative of a scan

The derivative of a scan runs beside it: an iteration takes the tangent of the carry through the
derivative of the body. What the fixpoint leaves out of the carry is zero at every iteration.
-/

namespace JaxDas.ScanJvp

open ScanSplit

variable {α : Type}

section

variable (s : Scan α) (derivative : (primals tangents : List (NdArray α)) → List (NdArray α))
  (consts init xs consts_dot init_dot xs_dot : List (NdArray α))

/-- The tangent of the carry after so many iterations. -/
def dotAfter : ℕ → List (NdArray α)
  | 0 => init_dot
  | j + 1 =>
      (derivative (Scan.bodyArgs consts xs (s.carryAfter consts init xs j) (s.position j))
        (Scan.bodyArgs consts_dot xs_dot (dotAfter j) (s.position j))).take s.num_carry

/-- The tangents that the body is given at a position. -/
def dotArgsAt (i : ℕ) : List (NdArray α) :=
  Scan.bodyArgs consts_dot xs_dot
    (dotAfter s derivative consts init xs consts_dot init_dot xs_dot (s.position i)) i

/-- The tangents of the parts of `ys` at a position. -/
def dotRow (i : ℕ) : List (NdArray α) :=
  (derivative (s.argsAt consts init xs i)
    (dotArgsAt s derivative consts init xs consts_dot init_dot xs_dot i)).drop s.num_carry

/-- The tangents of the outputs of the scan. -/
def scanDot : List (NdArray α) :=
  dotAfter s derivative consts init xs consts_dot init_dot xs_dot s.length ++
    stackRows s.length (s.jaxpr.out_avals.drop s.num_carry)
      (dotRow s derivative consts init xs consts_dot init_dot xs_dot)

end

/-- Tangents of the operands, with their zeros. -/
structure DotOperands (zero : α) (sig : ScanSignature) (n : ℕ) (const_nz carry_nz xs_nz : List Bool)
    (consts_dot init_dot xs_dot : List (NdArray α)) : Prop where
  consts : Sparse zero const_nz sig.consts consts_dot
  init : Sparse zero carry_nz sig.carry init_dot
  xs : Sparse zero xs_nz (stackedAvals n sig.xs) xs_dot

/-- A carry of which the body leaves no more zeros out. -/
structure Closed (zero : α) (derivative : (primals tangents : List (NdArray α)) → List (NdArray α))
    (s : Scan α) (const_nz carry_nz xs_nz ys_nz : List Bool) : Prop where
  length : (carry_nz ++ ys_nz).length = s.jaxpr.out_avals.length
  sparse : ∀ primals ts, primals.map NdArray.shape = s.jaxpr.in_avals →
    Sparse zero (const_nz ++ carry_nz ++ xs_nz) s.jaxpr.in_avals ts →
    Sparse zero (carry_nz ++ ys_nz) s.jaxpr.out_avals (derivative primals ts)

section

variable {zero : α} {derivative : (primals tangents : List (NdArray α)) → List (NdArray α)}
  {s : Scan α} {sig : ScanSignature} {const_nz carry_nz xs_nz ys_nz : List Bool}
  {consts init xs consts_dot init_dot xs_dot : List (NdArray α)}
  (hs : s.Typed sig) (ho : sig.Operands s.length consts init xs)
  (hd : DotOperands zero sig s.length const_nz carry_nz xs_nz consts_dot init_dot xs_dot)
  (hc : Closed zero derivative s const_nz carry_nz xs_nz ys_nz)

include hs hd in
theorem bodyArgs_sparse {c : List (NdArray α)} (h : Sparse zero carry_nz sig.carry c) {i : ℕ}
    (hi : i < s.length) : Sparse zero (const_nz ++ carry_nz ++ xs_nz) s.jaxpr.in_avals
      (Scan.bodyArgs consts_dot xs_dot c i) := by
  rw [hs.body_in, ScanSignature.body_in]
  exact (hd.consts.append h).append (hd.xs.slices hi)

include hs hd hc in
theorem ys_length : ys_nz.length = sig.ys.length := by
  have h := hc.length
  rw [hs.body_out, List.length_append, List.length_append, hd.init.length_mask] at h
  omega

include hs hd hc in
/-- The tangents of the carry and of the parts of `ys`, of one iteration. -/
theorem derivative_split {primals ts : List (NdArray α)}
    (hprimals : primals.map NdArray.shape = s.jaxpr.in_avals)
    (hts : Sparse zero (const_nz ++ carry_nz ++ xs_nz) s.jaxpr.in_avals ts) :
    Sparse zero carry_nz sig.carry ((derivative primals ts).take s.num_carry) ∧
      Sparse zero ys_nz sig.ys ((derivative primals ts).drop s.num_carry) := by
  have h := hc.sparse _ _ hprimals hts
  rw [hs.body_out] at h
  exact h.split (hd.init.length_mask.trans hs.num_carry.symm) hs.num_carry.symm

include hs ho hd hc

theorem dotAfter_sparse : ∀ {j : ℕ}, j ≤ s.length → Sparse zero carry_nz sig.carry
    (dotAfter s derivative consts init xs consts_dot init_dot xs_dot j)
  | 0, _ => hd.init
  | j + 1, hj => by
      have hpos := s.position_lt (by omega : j < s.length)
      have hprimals := Scan.Typed.bodyArgs_shapes ho
        (hs.carryAfter_shapes ho (by omega : j ≤ s.length)) hpos
      have hts := bodyArgs_sparse hs hd (dotAfter_sparse (by omega : j ≤ s.length)) hpos
      exact (derivative_split hs hd hc (hprimals.trans hs.body_in.symm) hts).1

theorem dotArgsAt_sparse {i : ℕ} (hi : i < s.length) :
    Sparse zero (const_nz ++ carry_nz ++ xs_nz) s.jaxpr.in_avals
      (dotArgsAt s derivative consts init xs consts_dot init_dot xs_dot i) :=
  bodyArgs_sparse hs hd (dotAfter_sparse hs ho hd hc (Nat.le_of_lt (s.position_lt hi))) hi

theorem dotRow_sparse {i : ℕ} (hi : i < s.length) : Sparse zero ys_nz sig.ys
    (dotRow s derivative consts init xs consts_dot init_dot xs_dot i) :=
  (derivative_split hs hd hc ((hs.argsAt_shapes ho hi).trans hs.body_in.symm)
    (dotArgsAt_sparse hs ho hd hc hi)).2

theorem scanRows_sparse : Sparse zero ys_nz (stackedAvals s.length sig.ys)
    (stackRows s.length sig.ys (dotRow s derivative consts init xs consts_dot init_dot xs_dot)) :=
  Sparse.stackRows (ys_length hs hd hc) fun _ hi => dotRow_sparse hs ho hd hc hi

end

/-- The carry of one iteration and its row. -/
theorem body_step {s : Scan α} {consts init xs : List (NdArray α)} {j : ℕ} (hj : j < s.length) :
    s.jaxpr.eval (s.argsAt consts init xs (s.position j)) =
      s.carryAfter consts init xs (j + 1) ++
        (s.jaxpr.eval (s.argsAt consts init xs (s.position j))).drop s.num_carry := by
  have hargs : s.argsAt consts init xs (s.position j) =
      Scan.bodyArgs consts xs (s.carryAfter consts init xs j) (s.position j) := by
    rw [Scan.argsAt, s.position_position hj]
  rw [Scan.carryAfter, ← hargs, List.take_append_drop]

/-- The same of the tangents. -/
theorem dot_step {derivative : (primals tangents : List (NdArray α)) → List (NdArray α)} {s : Scan α}
    {consts init xs consts_dot init_dot xs_dot : List (NdArray α)} {j : ℕ} (hj : j < s.length) :
    derivative (s.argsAt consts init xs (s.position j))
        (dotArgsAt s derivative consts init xs consts_dot init_dot xs_dot (s.position j)) =
      dotAfter s derivative consts init xs consts_dot init_dot xs_dot (j + 1) ++
        dotRow s derivative consts init xs consts_dot init_dot xs_dot (s.position j) := by
  have hargs : s.argsAt consts init xs (s.position j) =
      Scan.bodyArgs consts xs (s.carryAfter consts init xs j) (s.position j) := by
    rw [Scan.argsAt, s.position_position hj]
  have hdots : dotArgsAt s derivative consts init xs consts_dot init_dot xs_dot (s.position j) =
      Scan.bodyArgs consts_dot xs_dot
        (dotAfter s derivative consts init xs consts_dot init_dot xs_dot j) (s.position j) := by
    rw [dotArgsAt, s.position_position hj]
  rw [dotAfter, dotRow, ← hargs, ← hdots, List.take_append_drop]

end JaxDas.ScanJvp
