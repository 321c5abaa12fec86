import JaxDas.Lib.Masks
import JaxDas.Loops.ClosedJaxpr

/-!
# Running a scan

Iteration `j` reads the part of every `xs` at position `j`, or from the back if the scan is reversed,
and writes the part of every `ys` at the same position. The outputs are the carry in the end and the
stacked `ys`.
-/

namespace JaxDas

variable {α : Type}

/-! ## Stacking -/

/-- Arrays of one shape along a new first axis. -/
def stackLeading (aval : List ℕ) (n : ℕ) (f : ℕ → NdArray α) : NdArray α :=
  if h : ∀ i < n, (f i).shape = aval then .stack aval 0 n f (Nat.zero_le _) h else default

/-- The rows of a table, column by column. -/
def stackRows (n : ℕ) : List (List ℕ) → (ℕ → List (NdArray α)) → List (NdArray α)
  | [], _ => []
  | aval :: avals, rows =>
      stackLeading aval n (fun i => (rows i).headD default) ::
        stackRows n avals fun i => (rows i).tail

/-- The parts of stacked arrays at a position. -/
def slices (i : ℕ) (xs : List (NdArray α)) : List (NdArray α) := xs.map fun x => x.slice 0 i

/-- The shapes of stacked arrays. -/
def stackedAvals (n : ℕ) (avals : List (List ℕ)) : List (List ℕ) := avals.map (n :: ·)

theorem stackLeading_congr {aval : List ℕ} {n : ℕ} {f g : ℕ → NdArray α}
    (h : ∀ i < n, f i = g i) : stackLeading aval n f = stackLeading aval n g := by
  have hshape : (∀ i < n, (f i).shape = aval) ↔ ∀ i < n, (g i).shape = aval :=
    forall₂_congr fun i hi => by rw [h i hi]
  unfold stackLeading
  by_cases hf : ∀ i < n, (f i).shape = aval
  · rw [dif_pos hf, dif_pos (hshape.mp hf)]
    refine @NdArray.ext_slices _ _ aval 0 n _ rfl rfl (Nat.zero_le _) ?_
    intro b hb
    rw [NdArray.slice_stack _ _ hb, NdArray.slice_stack _ _ hb, h b hb]
  · rw [dif_neg hf, dif_neg fun hg => hf (hshape.mpr hg)]

theorem stackRows_congr {n : ℕ} : ∀ {avals : List (List ℕ)} {rows rows' : ℕ → List (NdArray α)},
    (∀ i < n, rows i = rows' i) → stackRows n avals rows = stackRows n avals rows'
  | [], _, _, _ => rfl
  | aval :: avals, rows, rows', h => by
      rw [stackRows, stackRows, stackLeading_congr fun i hi => by rw [h i hi],
        stackRows_congr fun i hi => by rw [h i hi]]

theorem stackRows_append {n : ℕ} : ∀ {avals avals' : List (List ℕ)}
    {rows rows' : ℕ → List (NdArray α)}, (∀ i < n, (rows i).length = avals.length) →
      stackRows n (avals ++ avals') (fun i => rows i ++ rows' i) =
        stackRows n avals rows ++ stackRows n avals' rows'
  | [], avals', rows, rows', h => by
      rw [List.nil_append, stackRows, List.nil_append]
      refine stackRows_congr fun i hi => ?_
      rw [List.eq_nil_of_length_eq_zero (h i hi), List.nil_append]
  | aval :: avals, avals', rows, rows', h => by
      have hne : ∀ i < n, ∃ x xs, rows i = x :: xs := by
        intro i hi
        have := h i hi
        cases hr : rows i with
        | nil => rw [hr] at this; exact nomatch this
        | cons x xs => exact ⟨x, xs, rfl⟩
      have htail : ∀ i < n, (rows i).tail.length = avals.length := by
        intro i hi
        rw [List.length_tail, h i hi]
        rfl
      rw [List.cons_append, stackRows, stackRows, List.cons_append, ← stackRows_append htail]
      congr 1
      · refine stackLeading_congr fun i hi => ?_
        obtain ⟨x, xs, hx⟩ := hne i hi
        rw [hx]
        rfl
      · refine stackRows_congr fun i hi => ?_
        obtain ⟨x, xs, hx⟩ := hne i hi
        rw [hx]
        rfl

theorem reject_stackRows {n : ℕ} : ∀ {avals : List (List ℕ)} {rows : ℕ → List (NdArray α)}
    {bs : List Bool}, (∀ i < n, (rows i).length = avals.length) →
      reject (stackRows n avals rows) bs =
        stackRows n (reject avals bs) fun i => reject (rows i) bs
  | [], _, bs, _ => by rw [reject_nil, stackRows, reject_nil]; rfl
  | aval :: avals, rows, [], _ => rfl
  | aval :: avals, rows, b :: bs, h => by
      have hne : ∀ i < n, rows i = (rows i).headD default :: (rows i).tail := by
        intro i hi
        have := h i hi
        cases hr : rows i with
        | nil => rw [hr] at this; exact nomatch this
        | cons x xs => rfl
      have htail : ∀ i < n, (rows i).tail.length = avals.length := by
        intro i hi
        rw [List.length_tail, h i hi]
        rfl
      rw [stackRows]
      cases b with
      | true =>
          rw [reject_cons_true, reject_cons_true, reject_stackRows htail]
          refine stackRows_congr fun i hi => ?_
          rw [hne i hi]
          rfl
      | false =>
          rw [reject_cons_false, reject_cons_false, reject_stackRows htail, stackRows]
          congr 1
          · refine stackLeading_congr fun i hi => ?_
            rw [hne i hi]
            rfl
          · refine stackRows_congr fun i hi => ?_
            rw [hne i hi]
            rfl

theorem stackLeading_spec {aval : List ℕ} {n : ℕ} {f : ℕ → NdArray α}
    (h : ∀ i < n, (f i).shape = aval) : (stackLeading aval n f).shape = n :: aval ∧
      ∀ i < n, (stackLeading aval n f).slice 0 i = f i := by
  rw [stackLeading, dif_pos h]
  exact ⟨rfl, fun i hi => NdArray.slice_stack _ _ hi⟩

/-- The rows are the parts of what they are stacked to. -/
theorem stackRows_spec {n : ℕ} : ∀ {avals : List (List ℕ)} {rows : ℕ → List (NdArray α)},
    (∀ i < n, (rows i).map NdArray.shape = avals) →
      (stackRows n avals rows).map NdArray.shape = stackedAvals n avals ∧
        ∀ i < n, slices i (stackRows n avals rows) = rows i
  | [], rows, h => ⟨rfl, fun i hi => (List.map_eq_nil_iff.mp (h i hi)).symm⟩
  | aval :: avals, rows, h => by
      have hne : ∀ i < n, ∃ x xs, rows i = x :: xs ∧ x.shape = aval ∧
          xs.map NdArray.shape = avals := by
        intro i hi
        have := h i hi
        cases hr : rows i with
        | nil => rw [hr] at this; exact nomatch this
        | cons x xs =>
            rw [hr] at this
            injection this with hx hxs
            exact ⟨x, xs, rfl, hx, hxs⟩
      have hhead : ∀ i < n, ((rows i).headD default).shape = aval := by
        intro i hi
        obtain ⟨x, xs, hr, hx, -⟩ := hne i hi
        rw [hr]
        exact hx
      have htails : ∀ i < n, (rows i).tail.map NdArray.shape = avals := by
        intro i hi
        obtain ⟨x, xs, hr, -, hxs⟩ := hne i hi
        rw [hr]
        exact hxs
      obtain ⟨hshape, hslice⟩ := stackLeading_spec hhead
      obtain ⟨hshapes, hslices⟩ := stackRows_spec htails
      refine ⟨?_, fun i hi => ?_⟩
      · rw [stackRows, List.map_cons, hshape, hshapes]
        rfl
      · obtain ⟨x, xs, hr, -, -⟩ := hne i hi
        have htail := hslices i hi
        unfold slices at htail ⊢
        rw [stackRows, List.map_cons, hslice i hi, htail, hr]
        rfl

/-! ## Scans -/

/-- The parameters of a scan equation. -/
structure Scan (α : Type) where
  num_consts : ℕ
  num_carry : ℕ
  length : ℕ
  reverse : Bool
  jaxpr : ClosedJaxpr α

namespace Scan

variable (s : Scan α) (consts init xs : List (NdArray α))

/-- Which position an iteration is at. -/
def position (j : ℕ) : ℕ := if s.reverse then s.length - 1 - j else j

/-- What the body is given at a position. -/
def bodyArgs (carry : List (NdArray α)) (i : ℕ) : List (NdArray α) :=
  consts ++ carry ++ slices i xs

/-- The carry after so many iterations. -/
def carryAfter : ℕ → List (NdArray α)
  | 0 => init
  | j + 1 =>
      (s.jaxpr.eval (bodyArgs consts xs (carryAfter j) (s.position j))).take s.num_carry

/-- What the body is given at a position in the run. Of the positions and the iterations each is
the other of the other. -/
def argsAt (i : ℕ) : List (NdArray α) :=
  bodyArgs consts xs (s.carryAfter consts init xs (s.position i)) i

def run : List (NdArray α) :=
  s.carryAfter consts init xs s.length ++
    stackRows s.length (s.jaxpr.out_avals.drop s.num_carry) fun i =>
      (s.jaxpr.eval (s.argsAt consts init xs i)).drop s.num_carry

/-- The scan on its operands. -/
def eval (args : List (NdArray α)) : List (NdArray α) :=
  s.run (args.take s.num_consts) ((args.drop s.num_consts).take s.num_carry)
    (args.drop (s.num_consts + s.num_carry))

theorem position_lt {j : ℕ} (h : j < s.length) : s.position j < s.length := by
  unfold position
  split <;> omega

theorem position_position {j : ℕ} (h : j < s.length) : s.position (s.position j) = j := by
  unfold position
  split <;> omega

variable {s consts init xs}

theorem eval_append (hc : consts.length = s.num_consts) (hi : init.length = s.num_carry) :
    s.eval (consts ++ init ++ xs) = s.run consts init xs := by
  have htake : (consts ++ init ++ xs).take s.num_consts = consts := by
    rw [← hc, List.append_assoc, List.take_left]
  have htake' : ((consts ++ init ++ xs).drop s.num_consts).take s.num_carry = init := by
    rw [← hc, List.append_assoc, List.drop_left, ← hi, List.take_left]
  have hdrop : (consts ++ init ++ xs).drop (s.num_consts + s.num_carry) = xs := by
    rw [← hc, ← hi, ← List.length_append, List.drop_left]
  rw [eval, htake, htake', hdrop]

/-- The run of a scan, from what its body computes of each carry. -/
theorem run_eq {carries rows : ℕ → List (NdArray α)} (hzero : carries 0 = init)
    (hlen : ∀ j ≤ s.length, (carries j).length = s.num_carry)
    (hstep : ∀ j < s.length, s.jaxpr.eval (bodyArgs consts xs (carries j) (s.position j)) =
      carries (j + 1) ++ rows (s.position j)) :
    s.run consts init xs =
      carries s.length ++ stackRows s.length (s.jaxpr.out_avals.drop s.num_carry) rows := by
  have hcarry : ∀ j ≤ s.length, s.carryAfter consts init xs j = carries j := by
    intro j
    induction j with
    | zero => exact fun _ => hzero.symm
    | succ j ih =>
        intro hj
        rw [carryAfter, ih (by omega), hstep j hj, List.take_left' (hlen (j + 1) hj)]
  rw [run, hcarry _ (Nat.le_refl _)]
  congr 1
  refine stackRows_congr fun i hi => ?_
  have hpos := s.position_lt hi
  have h := hstep _ hpos
  rw [s.position_position hi] at h
  rw [argsAt, hcarry _ (Nat.le_of_lt hpos), h, List.drop_left' (hlen _ hpos)]

end Scan

/-- The shapes of a scan: of its constants, its carry, and of the parts of `xs` and `ys`. -/
structure ScanSignature where
  consts : List (List ℕ)
  carry : List (List ℕ)
  xs : List (List ℕ)
  ys : List (List ℕ)

def ScanSignature.body_in (sig : ScanSignature) : List (List ℕ) := sig.consts ++ sig.carry ++ sig.xs

/-- What `_scan_typecheck` checks of a scan. -/
structure Scan.Typed (s : Scan α) (sig : ScanSignature) : Prop where
  num_consts : s.num_consts = sig.consts.length
  num_carry : s.num_carry = sig.carry.length
  body_in : s.jaxpr.in_avals = sig.body_in
  body_out : s.jaxpr.out_avals = sig.carry ++ sig.ys

/-- Operands of a scan. -/
structure ScanSignature.Operands (sig : ScanSignature) (length : ℕ)
    (consts init xs : List (NdArray α)) : Prop where
  consts : consts.map NdArray.shape = sig.consts
  init : init.map NdArray.shape = sig.carry
  xs : xs.map NdArray.shape = stackedAvals length sig.xs

theorem slices_shapes {n i : ℕ} (hi : i < n) : ∀ {xs : List (NdArray α)} {avals : List (List ℕ)},
    xs.map NdArray.shape = stackedAvals n avals → (slices i xs).map NdArray.shape = avals
  | [], [], _ => rfl
  | x :: xs, aval :: avals, h => by
      injection h with hx h
      have htail := slices_shapes hi h
      have hslice : (x.slice 0 i).shape = aval :=
        NdArray.slice_shape (k := 0) hx (Nat.zero_le _) hi
      unfold slices at htail ⊢
      rw [List.map_cons, List.map_cons, hslice, htail]

namespace Scan.Typed

variable {s : Scan α} {sig : ScanSignature} {consts init xs : List (NdArray α)}
  (hs : s.Typed sig) (ho : sig.Operands s.length consts init xs)
include ho

omit ho in
/-- The operands of every list of the right shapes. -/
theorem exists_operands {n : ℕ} {args : List (NdArray α)}
    (h : args.map NdArray.shape = sig.consts ++ sig.carry ++ stackedAvals n sig.xs) :
    ∃ consts init xs, args = consts ++ init ++ xs ∧ sig.Operands n consts init xs := by
  obtain ⟨ci, xs, rfl, hci, hx⟩ := List.map_eq_append_iff.mp h
  obtain ⟨consts, init, rfl, hc, hi⟩ := List.map_eq_append_iff.mp hci
  exact ⟨consts, init, xs, rfl, hc, hi, hx⟩

omit ho in
theorem bodyArgs_shapes (ho : sig.Operands s.length consts init xs) {carry : List (NdArray α)}
    (hc : carry.map NdArray.shape = sig.carry) {i : ℕ} (hi : i < s.length) :
    (bodyArgs consts xs carry i).map NdArray.shape = sig.body_in := by
  rw [bodyArgs, List.map_append, List.map_append, ho.consts, hc, slices_shapes hi ho.xs,
    ScanSignature.body_in]

include hs

theorem carryAfter_shapes : ∀ {j : ℕ}, j ≤ s.length →
    (s.carryAfter consts init xs j).map NdArray.shape = sig.carry
  | 0, _ => ho.init
  | j + 1, h => by
      have hargs := bodyArgs_shapes ho (carryAfter_shapes (by omega : j ≤ s.length))
        (s.position_lt h)
      have hout := s.jaxpr.typed _ (hargs.trans hs.body_in.symm)
      rw [carryAfter, List.map_take, hout, hs.body_out, hs.num_carry, List.take_left]

theorem argsAt_shapes {i : ℕ} (hi : i < s.length) :
    (s.argsAt consts init xs i).map NdArray.shape = sig.body_in :=
  bodyArgs_shapes ho (hs.carryAfter_shapes ho (Nat.le_of_lt (s.position_lt hi))) hi

theorem rows_shapes {i : ℕ} (hi : i < s.length) :
    ((s.jaxpr.eval (s.argsAt consts init xs i)).drop s.num_carry).map NdArray.shape = sig.ys := by
  have hout := s.jaxpr.typed _ ((hs.argsAt_shapes ho hi).trans hs.body_in.symm)
  rw [List.map_drop, hout, hs.body_out, hs.num_carry, List.drop_left]

end Scan.Typed

end JaxDas
