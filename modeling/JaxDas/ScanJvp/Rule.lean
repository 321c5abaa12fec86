import JaxDas.Loops.Depends
import JaxDas.ScanSplit.Rule

/-!
# The derivative of a scan

`_scan_jvp` runs the body and its derivative in one scan. How a jaxpr is differentiated is a
parameter, `jvp_jaxpr`. The body has no effects, so no constant is a `Ref`; of an aval there is the
shape.
-/

namespace JaxDas.ScanJvp

open ScanSplit

variable {α : Type}

inductive JvpError where
  /-- `Fixpoint not reached` -/
  | fixpointNotReached
  /-- The groups of `rearrange_binders` are not those of the binders. -/
  | groups
  /-- `next` of an iterator that is used up. -/
  | stopIteration
deriving DecidableEq, Repr

/-! ## Tangents -/

/-- A tangent: `Zero(aval)`, or an array. -/
inductive Tangent (α : Type) where
  | zero (aval : List ℕ)
  | array (x : NdArray α)

namespace Tangent

def aval : Tangent α → List ℕ
  | zero aval => aval
  | array x => x.shape

def nonzero : Tangent α → Bool
  | zero _ => false
  | array _ => true

/-- `instantiate_zeros` -/
def instantiateZeros (zero : α) : Tangent α → NdArray α
  | .zero aval => .fill aval zero
  | .array x => x

def array? : Tangent α → Option (NdArray α)
  | zero _ => none
  | array x => some x

end Tangent

/-- `_prune_zeros` -/
def pruneZeros (ts : List (Tangent α)) : List (NdArray α) := ts.filterMap Tangent.array?

/-- `[next(ts) if nz else Zero(aval) for aval, nz in zip(avals, nzs)]`, and what is left of `ts`. -/
def tangentsOut : (avals : List (List ℕ)) → (nzs : List Bool) → (ts : List (NdArray α)) →
    Except JvpError (List (Tangent α) × List (NdArray α))
  | _ :: _, true :: _, [] => .error .stopIteration
  | _ :: avals, true :: nzs, t :: ts => do
      let (outs, rest) ← tangentsOut avals nzs ts
      .ok (.array t :: outs, rest)
  | aval :: avals, false :: nzs, ts => do
      let (outs, rest) ← tangentsOut avals nzs ts
      .ok (.zero aval :: outs, rest)
  | _, _, ts => .ok ([], ts)

/-! ## The derivative of the body -/

/-- What `jvp_jaxpr` returns. -/
structure Jvp (α : Type) where
  jaxpr : ClosedJaxpr α
  nonzeros_out : List Bool

/-- `for _ in range(n)`: the carry that is not zero, and what `step` makes of it. -/
def nzFixpoint {β : Type} (step : List Bool → β) (carry_nz_out : β → List Bool) :
    ℕ → List Bool → Except JvpError (List Bool × β)
  | 0, _ => .error .fixpointNotReached
  | n + 1, carry_nz =>
      if carry_nz_out (step carry_nz) = carry_nz then .ok (carry_nz, step carry_nz)
      else nzFixpoint step carry_nz_out n
        (List.zipWith (· || ·) carry_nz (carry_nz_out (step carry_nz)))

/-! ## Rearranged binders -/

/-- `split_list`, with the rest as the last part. -/
def splitList {β : Type} : List ℕ → List β → List (List β)
  | [], l => [l]
  | n :: ns, l => l.take n :: splitList ns (l.drop n)

/-- `_interleave` -/
def interleave {β : Type} : List (List β) → List (List β) → List β
  | x :: xs, y :: ys => x ++ y ++ interleave xs ys
  | _, _ => []

/-- `_perm` -/
def perm {β : Type} (primal_counts tangent_counts : List ℕ) (lst : List β) : List β :=
  interleave (splitList primal_counts.dropLast (lst.take primal_counts.sum))
    (splitList tangent_counts.dropLast (lst.drop primal_counts.sum))

/-- The primal and the tangent groups, from where `_perm` puts them. -/
def ungroup {β : Type} : (primal_counts tangent_counts : List ℕ) → List β → List β × List β
  | p :: ps, t :: ts, l =>
      let groups := ungroup ps ts (l.drop (p + t))
      (l.take p ++ groups.1, (l.drop p).take t ++ groups.2)
  | _, _, _ => ([], [])

/-- What an argument list is before `_perm`. -/
def unperm {β : Type} (primal_counts tangent_counts : List ℕ) (l : List β) : List β :=
  (ungroup primal_counts tangent_counts l).1 ++ (ungroup primal_counts tangent_counts l).2

theorem splitList_map {β γ : Type} (f : β → γ) : ∀ (ns : List ℕ) (l : List β),
    splitList ns (l.map f) = (splitList ns l).map (List.map f)
  | [], _ => rfl
  | n :: ns, l => by
      rw [splitList, splitList, ← List.map_take, ← List.map_drop, splitList_map f ns, List.map_cons]

theorem interleave_map {β γ : Type} (f : β → γ) : ∀ (xs ys : List (List β)),
    interleave (xs.map (List.map f)) (ys.map (List.map f)) = (interleave xs ys).map f
  | [], ys => rfl
  | _ :: _, [] => rfl
  | x :: xs, y :: ys => by
      rw [List.map_cons, List.map_cons, interleave, interleave, interleave_map f xs ys,
        List.map_append, List.map_append]

theorem perm_map {β γ : Type} (f : β → γ) (ps ts : List ℕ) (l : List β) :
    perm ps ts (l.map f) = (perm ps ts l).map f := by
  rw [perm, perm, ← List.map_take, ← List.map_drop, splitList_map, splitList_map, interleave_map]

theorem ungroup_map {β γ : Type} (f : β → γ) : ∀ (ps ts : List ℕ) (l : List β),
    ungroup ps ts (l.map f) = ((ungroup ps ts l).1.map f, (ungroup ps ts l).2.map f)
  | [], _, _ => rfl
  | _ :: _, [], _ => rfl
  | p :: ps, t :: ts, l => by
      simp only [ungroup, ← List.map_drop, ← List.map_take, ungroup_map f ps ts, List.map_append]

theorem unperm_map {β γ : Type} (f : β → γ) (ps ts : List ℕ) (l : List β) :
    unperm ps ts (l.map f) = (unperm ps ts l).map f := by
  rw [unperm, unperm, ungroup_map, List.map_append]

/-- Groups that are put in turn are found again. -/
theorem ungroup_interleave {β : Type} : ∀ {ps ts : List ℕ} {l m : List β}, ps.length = ts.length →
    l.length = ps.sum → m.length = ts.sum →
      ungroup ps ts (interleave (splitList ps.dropLast l) (splitList ts.dropLast m)) = (l, m)
  | [], [], l, m, _, hl, hm => by
      rw [List.eq_nil_of_length_eq_zero hl, List.eq_nil_of_length_eq_zero hm]
      rfl
  | [p], [t], l, m, _, hl, hm => by
      obtain rfl : l.length = p := by simpa using hl
      obtain rfl : m.length = t := by simpa using hm
      simp [splitList, interleave, ungroup]
  | p :: p' :: ps, t :: t' :: ts, l, m, h, hl, hm => by
      have hl' : (l.drop p).length = (p' :: ps).sum := by
        rw [List.length_drop, hl, List.sum_cons]
        omega
      have hm' : (m.drop t).length = (t' :: ts).sum := by
        rw [List.length_drop, hm, List.sum_cons]
        omega
      have hp : (l.take p).length = p := by
        rw [List.length_take, hl, List.sum_cons]
        omega
      have ht : (m.take t).length = t := by
        rw [List.length_take, hm, List.sum_cons]
        omega
      have ih := @ungroup_interleave _ (p' :: ps) (t' :: ts) _ _ (by simpa using h) hl' hm'
      have hfirst : (l.take p ++ m.take t).length = p + t := by rw [List.length_append, hp, ht]
      rw [List.dropLast_cons_cons, List.dropLast_cons_cons, splitList, splitList, interleave, ungroup,
        ← hfirst, List.drop_left, ih, List.append_assoc, List.take_left' hp, List.drop_left' hp,
        List.take_left' ht]
      simp only [List.take_append_drop]

theorem unperm_perm {β : Type} {ps ts : List ℕ} {l : List β} (h : ps.length = ts.length)
    (hl : l.length = ps.sum + ts.sum) : unperm ps ts (perm ps ts l) = l := by
  rw [unperm, perm, ungroup_interleave h (by rw [List.length_take]; omega)
    (by rw [List.length_drop]; omega)]
  exact List.take_append_drop _ _

/-- `rearrange_binders`: an argument goes to the binder that is at its place now. -/
def rearrangeBinders (jaxpr : ClosedJaxpr α) (primals_in tangents_in primals_out tangents_out : List ℕ) :
    Except JvpError (ClosedJaxpr α) :=
  if h : primals_in.length = tangents_in.length ∧
      jaxpr.in_avals.length = primals_in.sum + tangents_in.sum then
    .ok {
      in_avals := perm primals_in tangents_in jaxpr.in_avals
      out_avals := perm primals_out tangents_out jaxpr.out_avals
      eval := fun args =>
        perm primals_out tangents_out (jaxpr.eval (unperm primals_in tangents_in args))
      typed := by
        intro args hargs
        rw [← perm_map, jaxpr.typed _ (by rw [← unperm_map, hargs, unperm_perm h.1 h.2])] }
  else .error .groups

/-! ## The rule -/

/-- `_scan_jvp`: the primal and the tangent outputs. -/
def scanJvp (jvp_jaxpr : ClosedJaxpr α → (nonzeros instantiate : List Bool) → Jvp α) (zero : α)
    (s : Scan α) (primals : List (NdArray α)) (tangents : List (Tangent α)) :
    Except JvpError (List (NdArray α) × List (Tangent α)) := do
  let num_xs := s.jaxpr.in_avals.length - s.num_carry - s.num_consts
  let num_ys := s.jaxpr.out_avals.length - s.num_carry
  let nonzeros := tangents.map Tangent.nonzero
  let const_nz := nonzeros.take s.num_consts
  let init_nz := (nonzeros.drop s.num_consts).take s.num_carry
  let xs_nz := nonzeros.drop (s.num_consts + s.num_carry)
  let (carry_nz, jvp) ← nzFixpoint
    (fun carry_nz => jvp_jaxpr s.jaxpr (const_nz ++ carry_nz ++ xs_nz)
      (carry_nz ++ List.replicate num_ys false))
    (fun jvp => jvp.nonzeros_out.take s.num_carry) (1 + init_nz.length) init_nz
  let tangents := List.zipWith (fun t nz => if nz then .array (t.instantiateZeros zero) else t)
    tangents (const_nz ++ carry_nz ++ xs_nz)
  let consts := primals.take s.num_consts
  let init := (primals.drop s.num_consts).take s.num_carry
  let xs := primals.drop (s.num_consts + s.num_carry)
  let consts_dot := pruneZeros (tangents.take s.num_consts)
  let init_dot := pruneZeros ((tangents.drop s.num_consts).take s.num_carry)
  let xs_dot := pruneZeros (tangents.drop (s.num_consts + s.num_carry))
  let jaxpr_jvp_rearranged ← rearrangeBinders jvp.jaxpr [s.num_consts, s.num_carry, num_xs]
    [consts_dot.length, init_dot.length, xs_dot.length] [s.num_carry, num_ys]
    [init_dot.length, jvp.nonzeros_out.count true - init_dot.length]
  let scan : Scan α := ⟨s.num_consts + consts_dot.length, s.num_carry + init_dot.length, s.length,
    s.reverse, jaxpr_jvp_rearranged⟩
  let out_flat := scan.eval (consts ++ consts_dot ++ init ++ init_dot ++ xs ++ xs_dot)
  let carry := out_flat.take s.num_carry
  let carry_dot := (out_flat.drop s.num_carry).take init_dot.length
  let ys := (out_flat.drop (s.num_carry + init_dot.length)).take num_ys
  let ys_dot := out_flat.drop (s.num_carry + init_dot.length + num_ys)
  let primals_out := carry ++ ys
  let (tangents_out, _) ← tangentsOut (primals_out.map NdArray.shape) jvp.nonzeros_out
    (carry_dot ++ ys_dot)
  .ok (primals_out, tangents_out)

end JaxDas.ScanJvp
