import JaxDas.CondSplit.Joins
import JaxDas.Lib.Fallible
import Mathlib.Algebra.Ring.Int.Defs

/-!
# The split conditional computes the conditional

The two equations are well typed and compute what the conditional computes, exactly when the slots
that some branch leaves to zeros have types of which there are zeros.
-/

namespace JaxDas.CondSplit

variable {D J : Type} {sem : J → Jaxpr D} {pe : J → List Bool → List Bool → CustomSplit D}
  {eqn : Cond J} {ops_uk : List Bool}

/-! ## What it should return -/

/-- The branches of the known equation have the types of the known operands and outputs and of the
residuals, those of the staged one the types of the residuals, all operands and all outputs, and for
every index both together compute the conditional. -/
structure Split.Preserves (split : Split D) (sem : J → Jaxpr D) (eqn : Cond J)
    (ops_uk unks_out : List Bool) : Prop where
  known_typed : ∀ branch ∈ split.branches_known, branch.WellTyped ∧
    branch.in_avals.map Aval.strong = (reject eqn.in_avals ops_uk).map Aval.strong ∧
    branch.out_avals.map Aval.strong =
      (reject eqn.out_avals unks_out ++ split.res_avals).map Aval.strong
  staged_typed : ∀ branch ∈ split.branches_staged, branch.WellTyped ∧
    branch.in_avals.map Aval.strong = (split.res_avals ++ eqn.in_avals).map Aval.strong ∧
    branch.out_avals.map Aval.strong = eqn.out_avals.map Aval.strong
  eval : ∀ index args, Fits args eqn.in_avals → ∃ res,
    evalCond split.branches_known index (reject args ops_uk) =
      reject (evalCond (eqn.branches.map sem) index args) unks_out ++ res ∧
    evalCond split.branches_staged index (res ++ args) =
      evalCond (eqn.branches.map sem) index args

/-- The outcome for a known index: every output that is unknown in a branch is, all outputs are
instantiated, and the equations are right. -/
structure Outcome.Right (outcome : Outcome D) (sem : J → Jaxpr D)
    (pe : J → List Bool → List Bool → CustomSplit D) (eqn : Cond J) (ops_uk : List Bool) : Prop where
  unks_out : ∀ j ∈ eqn.branches,
    Below (pe j ops_uk (List.replicate eqn.out_avals.length false)).unks_out outcome.unks_out
  inst_out : outcome.inst_out = List.replicate eqn.out_avals.length true
  split : ∃ split, outcome.split = some split ∧ split.Preserves sem eqn ops_uk outcome.unks_out

/-! ## Unknown outputs -/

theorem foldl_or_below {n : ℕ} (f : J → List Bool) : ∀ (js : List J) (acc : List Bool),
    acc.length = n → (∀ j ∈ js, (f j).length = n) →
    (js.foldl (fun acc j => List.zipWith (· || ·) acc (f j)) acc).length = n ∧
      Below acc (js.foldl (fun acc j => List.zipWith (· || ·) acc (f j)) acc) ∧
      ∀ j ∈ js, Below (f j) (js.foldl (fun acc j => List.zipWith (· || ·) acc (f j)) acc)
  | [], acc, hacc, _ => ⟨hacc, Below.refl acc, fun _ h => absurd h List.not_mem_nil⟩
  | j :: js, acc, hacc, hf => by
      have hj : (f j).length = n := hf j List.mem_cons_self
      have hlen : (List.zipWith (· || ·) acc (f j)).length = n := by
        rw [List.length_zipWith]
        omega
      obtain ⟨hn, hbelow, hall⟩ := foldl_or_below f js _ hlen
        fun j' hj' => hf j' (List.mem_cons_of_mem j hj')
      refine ⟨hn, (below_zipWith_or_left (hacc.trans hj.symm)).trans hbelow, fun j' hj' => ?_⟩
      rcases List.mem_cons.mp hj' with rfl | hj'
      · exact (below_zipWith_or_right (hacc.trans hj.symm)).trans hbelow
      · exact hall j' hj'

section

variable (h : Lawful sem pe) (ht : eqn.Typed sem) (hops : ops_uk.length = eqn.in_avals.length)

include ht hops in
theorem Cond.Typed.lengths {j : J} (hj : j ∈ eqn.branches) :
    ops_uk.length = (sem j).in_avals.length ∧ eqn.out_avals.length = (sem j).out_avals.length := by
  constructor
  · rw [hops, ← List.length_map Aval.strong, ← ht.in_avals j hj, List.length_map]
  · rw [← List.length_map Aval.strong, ← ht.out_avals j hj, List.length_map]

include h ht hops

theorem base_length {j : J} (hj : j ∈ eqn.branches) :
    (pe j ops_uk (List.replicate eqn.out_avals.length false)).unks_out.length =
      eqn.out_avals.length := by
  obtain ⟨hin, hout⟩ := Cond.Typed.lengths ht hops hj
  have hlen : (List.replicate eqn.out_avals.length false).length = (sem j).out_avals.length := by
    rw [List.length_replicate, hout]
  rw [(h.splits j ops_uk _ (ht.typed j hj) hin hlen).unks_out, hout]

theorem unknownOuts_spec :
    (unknownOuts pe eqn.branches eqn.out_avals.length ops_uk).length = eqn.out_avals.length ∧
      ∀ j ∈ eqn.branches, Below (pe j ops_uk (List.replicate eqn.out_avals.length false)).unks_out
        (unknownOuts pe eqn.branches eqn.out_avals.length ops_uk) := by
  obtain ⟨hlen, -, hbelow⟩ := foldl_or_below
    (fun j => (pe j ops_uk (List.replicate eqn.out_avals.length false)).unks_out) eqn.branches
    (List.replicate eqn.out_avals.length false) (List.length_replicate ..)
    fun j hj => base_length h ht hops hj
  exact ⟨hlen, hbelow⟩

/-- The split of every branch has the unknown outputs of the conditional. -/
theorem branch_splits {j : J} (hj : j ∈ eqn.branches) :
    (pe j ops_uk (unknownOuts pe eqn.branches eqn.out_avals.length ops_uk)).Splits (sem j) ops_uk ∧
      (pe j ops_uk (unknownOuts pe eqn.branches eqn.out_avals.length ops_uk)).unks_out =
        unknownOuts pe eqn.branches eqn.out_avals.length ops_uk := by
  obtain ⟨hin, hout⟩ := Cond.Typed.lengths ht hops hj
  obtain ⟨hlen, hbelow⟩ := unknownOuts_spec h ht hops
  refine ⟨h.splits j ops_uk _ (ht.typed j hj) hin (hlen.trans hout), ?_⟩
  rw [h.ensured j ops_uk _ (hlen.trans hout), ← hout]
  exact zipWith_or_of_below (hbelow j hj)

end

/-! ## The joined branches -/

section

variable [Zero D] (pe) (eqn) (ops_uk)

def knownBranch (j : J) : Jaxpr D :=
  augmentOutputs ((mergeOccurrences (branchResAvals pe eqn ops_uk)).map Prod.fst)
    ((unknownOuts pe eqn.branches eqn.out_avals.length ops_uk).count false)
    (pe j ops_uk (unknownOuts pe eqn.branches eqn.out_avals.length ops_uk)).jaxpr_known
    (slots (branchResAvals pe eqn ops_uk)
      (pe j ops_uk (unknownOuts pe eqn.branches eqn.out_avals.length ops_uk)).res_avals)

omit [Zero D] in
def stagedBranch (j : J) : Jaxpr D :=
  augmentInputs ((mergeOccurrences (branchResAvals pe eqn ops_uk)).map Prod.fst)
    (pe j ops_uk (unknownOuts pe eqn.branches eqn.out_avals.length ops_uk)).jaxpr_staged
    (slots (branchResAvals pe eqn ops_uk)
      (pe j ops_uk (unknownOuts pe eqn.branches eqn.out_avals.length ops_uk)).res_avals)

/-- The split that is returned when the assertion holds. -/
def joined : Split D :=
  ⟨eqn.branches.map (knownBranch pe eqn ops_uk), eqn.branches.map (stagedBranch pe eqn ops_uk),
    (mergeOccurrences (branchResAvals pe eqn ops_uk)).map Prod.fst⟩

/-- The types of the first branch are those of all. -/
def Agrees (branches : List (Jaxpr D)) : Prop :=
  ∀ b ∈ branches, ∀ b' ∈ branches,
    b.out_avals.map Aval.strong = b'.out_avals.map Aval.strong

omit [Zero D] in
theorem zipWith_maps {A B C E : Type} (f : A → B → C) (g : E → A) (g' : E → B) : ∀ l : List E,
    List.zipWith f (l.map g) (l.map g') = l.map fun x => f (g x) (g' x)
  | [] => rfl
  | x :: l => by
      rw [List.map_cons, List.map_cons, List.zipWith_cons_cons, zipWith_maps f g g' l,
        List.map_cons]

end

/-- The assertion, on branches with one number of outputs. -/
theorem agrees_iff {branches : List (Jaxpr D)} {n : ℕ}
    (hlen : ∀ b ∈ branches, b.out_avals.length = n) :
    (branches.tail.all fun j => match branches.head? with
      | some first => (List.zipWith typematch j.out_avals first.out_avals).all id
      | none => true) = true ↔ Agrees branches := by
  cases branches with
  | nil => simp [Agrees]
  | cons first rest =>
      have hfirst := hlen first List.mem_cons_self
      simp only [List.tail_cons, List.head?_cons, List.all_eq_true]
      constructor
      · intro hall
        have hsame : ∀ b ∈ first :: rest,
            b.out_avals.map Aval.strong = first.out_avals.map Aval.strong := by
          intro b hb
          rcases List.mem_cons.mp hb with rfl | hb
          · rfl
          · have hb' := hlen b (List.mem_cons_of_mem first hb)
            refine (all_typematch_iff (hb'.trans hfirst.symm)).mp ?_
            rw [List.all_eq_true]
            exact hall b hb
        exact fun b hb b' hb' => (hsame b hb).trans (hsame b' hb').symm
      · intro hagrees b hb
        have hb' := hlen b (List.mem_cons_of_mem first hb)
        have hsame := hagrees b (List.mem_cons_of_mem first hb) first List.mem_cons_self
        have hall := (all_typematch_iff (hb'.trans hfirst.symm)).mpr hsame
        rwa [List.all_eq_true] at hall

section

variable [Zero D] (h : Lawful sem pe) (ht : eqn.Typed sem)
  (hops : ops_uk.length = eqn.in_avals.length)

include h ht hops

omit [Zero D] in
theorem known_outs_length {j : J} (hj : j ∈ eqn.branches) :
    (reject (sem j).out_avals (unknownOuts pe eqn.branches eqn.out_avals.length ops_uk)).length =
      (unknownOuts pe eqn.branches eqn.out_avals.length ops_uk).count false := by
  refine length_reject ?_
  rw [(unknownOuts_spec h ht hops).1, (Cond.Typed.lengths ht hops hj).2]

/-- The outputs of a known branch: the known ones, and the slots. -/
theorem knownBranch_out_avals {j : J} (hj : j ∈ eqn.branches) :
    (knownBranch pe eqn ops_uk j).out_avals =
      reject (sem j).out_avals (unknownOuts pe eqn.branches eqn.out_avals.length ops_uk) ++
        filled (branchResAvals pe eqn ops_uk)
          (pe j ops_uk (unknownOuts pe eqn.branches eqn.out_avals.length ops_uk)).res_avals := by
  obtain ⟨hs, hunks⟩ := branch_splits h ht hops hj
  have hout := hs.known_out
  rw [hunks] at hout
  rw [knownBranch, ← known_outs_length h ht hops hj]
  exact augmentOutputs_out_avals hout

theorem knownBranch_length {j : J} (hj : j ∈ eqn.branches) :
    (knownBranch pe eqn ops_uk j).out_avals.length =
      (unknownOuts pe eqn.branches eqn.out_avals.length ops_uk).count false +
        (mergeOccurrences (branchResAvals pe eqn ops_uk)).length := by
  rw [knownBranch_out_avals h ht hops hj, List.length_append, known_outs_length h ht hops hj, filled,
    length_subvals, List.length_map, List.length_map]

theorem condPartialEvalCustom_ok {inst_in is_var : List Bool} {outcome : Outcome D} :
    condPartialEvalCustom pe eqn false ops_uk inst_in is_var = .ok outcome ↔
      Agrees (eqn.branches.map (knownBranch pe eqn ops_uk)) ∧
        outcome = ⟨some (joined pe eqn ops_uk),
          unknownOuts pe eqn.branches eqn.out_avals.length ops_uk,
          List.replicate eqn.out_avals.length true,
          List.zipWith (fun var inst => var && !inst) is_var inst_in⟩ := by
  have hlen : ∀ b ∈ eqn.branches.map (knownBranch pe eqn ops_uk), b.out_avals.length =
      (unknownOuts pe eqn.branches eqn.out_avals.length ops_uk).count false +
        (mergeOccurrences (branchResAvals pe eqn ops_uk)).length := by
    intro b hb
    obtain ⟨j, hj, rfl⟩ := List.mem_map.mp hb
    exact knownBranch_length h ht hops hj
  have hinst : ((eqn.branches.map fun j =>
      pe j ops_uk (unknownOuts pe eqn.branches eqn.out_avals.length ops_uk)).getLast?.map
        CustomSplit.inst_out).getD [] = List.replicate eqn.out_avals.length true := by
    rw [List.getLast?_map, List.getLast?_eq_some_getLast ht.branches]
    have hmem := List.getLast_mem ht.branches
    rw [Option.map_some, Option.map_some, Option.getD_some,
      (branch_splits h ht hops hmem).1.inst_out, ← (Cond.Typed.lengths ht hops hmem).2]
  have hres : (eqn.branches.map fun j =>
      pe j ops_uk (unknownOuts pe eqn.branches eqn.out_avals.length ops_uk)).map
        CustomSplit.res_avals = branchResAvals pe eqn ops_uk := List.map_map
  have hslots : (branchResAvals pe eqn ops_uk).map (slots (branchResAvals pe eqn ops_uk)) =
      eqn.branches.map fun j => slots (branchResAvals pe eqn ops_uk)
        (pe j ops_uk (unknownOuts pe eqn.branches eqn.out_avals.length ops_uk)).res_avals :=
    List.map_map
  rw [← agrees_iff hlen]
  unfold condPartialEvalCustom mergeBranchResiduals
  dsimp only
  rw [if_neg Bool.false_ne_true, hinst, hres, hslots, List.map_map, List.map_map, zipWith_maps,
    zipWith_maps]
  constructor
  · intro hok
    rcases ite_ok hok with ⟨hagrees, hok⟩ | ⟨-, herr⟩
    · exact ⟨hagrees, (Except.ok.inj hok).symm⟩
    · cases herr
  · rintro ⟨hagrees, rfl⟩
    exact if_pos hagrees

/-! ## The condition -/

/-- A type that some branch has more residuals of than another has zeros. -/
def Fillable (branch_res_avals : List (List Aval)) : Prop :=
  ∀ aval, ∀ res ∈ branch_res_avals, ∀ res' ∈ branch_res_avals,
    res.count aval < res'.count aval → aval.Fillable

omit [Zero D] h ht hops in
theorem filled_eq_of_fillable {xss : List (List Aval)} (hfill : Fillable xss) {xs : List Aval}
    (hxs : xs ∈ xss) : (filled xss xs).map Aval.strong =
      ((mergeOccurrences xss).map Prod.fst).map Aval.strong := by
  refine List.ext_getElem? fun p => ?_
  rw [List.getElem?_map, List.getElem?_map, List.getElem?_map]
  by_cases hp : p < (mergeOccurrences xss).length
  · rw [getElem?_filled hxs hp, List.getElem?_eq_getElem hp, Option.map_some, Option.map_some,
      Option.map_some]
    split
    · rfl
    · next hle =>
        obtain ⟨xs', hxs', hlt⟩ := mem_mergeOccurrences.mp (List.getElem_mem hp)
        have hcount := Nat.lt_of_le_of_lt (Nat.not_lt.mp hle) hlt
        rw [(strong_zerosAval_iff _).mpr (hfill _ xs hxs xs' hxs' hcount)]
  · have hlen : (filled xss xs).length = (mergeOccurrences xss).length := by
      rw [filled, length_subvals, List.length_map, List.length_map]
    rw [List.getElem?_eq_none (by omega), List.getElem?_eq_none (by omega)]
    rfl

omit [Zero D] h ht hops in
/-- When two branches have the same types in the slot that one of them leaves to zeros, there are
zeros of the type. -/
theorem fillable_of_filled_eq {xss : List (List Aval)} {xs xs' : List Aval} (hxs : xs ∈ xss)
    (hxs' : xs' ∈ xss)
    (heq : (filled xss xs).map Aval.strong = (filled xss xs').map Aval.strong) {aval : Aval}
    (hcount : xs.count aval < xs'.count aval) : aval.Fillable := by
  have hmem : (aval, xs.count aval) ∈ mergeOccurrences xss :=
    mem_mergeOccurrences.mpr ⟨xs', hxs', hcount⟩
  obtain ⟨p, hp, htag⟩ := List.getElem_of_mem hmem
  have hget := congrArg (fun l => l[p]?) heq
  simp only [List.getElem?_map, getElem?_filled hxs hp, getElem?_filled hxs' hp, htag,
    if_pos hcount, if_neg (Nat.lt_irrefl _), Option.map_some, Option.some.injEq] at hget
  exact (strong_zerosAval_iff aval).mp hget

variable (pe ops_uk) in
omit [Zero D] h ht hops in
theorem mem_branchResAvals {j : J} (hj : j ∈ eqn.branches) :
    (pe j ops_uk (unknownOuts pe eqn.branches eqn.out_avals.length ops_uk)).res_avals ∈
      branchResAvals pe eqn ops_uk := List.mem_map_of_mem hj

omit [Zero D] h hops in
theorem reject_out_avals_strong {j : J} (hj : j ∈ eqn.branches) (mask : List Bool) :
    (reject (sem j).out_avals mask).map Aval.strong =
      (reject eqn.out_avals mask).map Aval.strong := by
  rw [← reject_map, ← reject_map, ht.out_avals j hj]

theorem agrees_iff_fillable :
    Agrees (eqn.branches.map (knownBranch pe eqn ops_uk)) ↔
      Fillable (branchResAvals pe eqn ops_uk) := by
  constructor
  · intro hagrees aval res hres res' hres' hcount
    obtain ⟨j, hj, rfl⟩ := List.mem_map.mp hres
    obtain ⟨j', hj', rfl⟩ := List.mem_map.mp hres'
    have heq := hagrees _ (List.mem_map_of_mem hj) _ (List.mem_map_of_mem hj')
    rw [knownBranch_out_avals h ht hops hj, knownBranch_out_avals h ht hops hj', List.map_append,
      List.map_append, reject_out_avals_strong ht hj,
      reject_out_avals_strong ht hj'] at heq
    exact fillable_of_filled_eq hres hres' (List.append_cancel_left heq) hcount
  · intro hfill b hb b' hb'
    obtain ⟨j, hj, rfl⟩ := List.mem_map.mp hb
    obtain ⟨j', hj', rfl⟩ := List.mem_map.mp hb'
    rw [knownBranch_out_avals h ht hops hj, knownBranch_out_avals h ht hops hj', List.map_append,
      List.map_append, reject_out_avals_strong ht hj, reject_out_avals_strong ht hj',
      filled_eq_of_fillable hfill (mem_branchResAvals pe ops_uk hj),
      filled_eq_of_fillable hfill (mem_branchResAvals pe ops_uk hj')]

/-! ## The equations -/

omit [Zero D] h hops in
/-- The branch of an index. -/
theorem exists_branch (index : ℤ) : ∃ j ∈ eqn.branches, ∀ (f : J → Jaxpr D) (args : List (Val D)),
    evalCond (eqn.branches.map f) index args = (f j).eval args := by
  have hpos : 0 < eqn.branches.length := List.length_pos_of_ne_nil ht.branches
  have hlt : caseOf index eqn.branches.length < eqn.branches.length := by
    unfold caseOf
    split <;> omega
  refine ⟨eqn.branches[caseOf index eqn.branches.length], List.getElem_mem hlt, fun f args => ?_⟩
  rw [evalCond, List.length_map, List.getElem?_map, List.getElem?_eq_getElem hlt, Option.map_some]

theorem joined_known_typed {j : J} (hj : j ∈ eqn.branches)
    (hfill : Fillable (branchResAvals pe eqn ops_uk)) :
    (knownBranch pe eqn ops_uk j).WellTyped ∧
      (knownBranch pe eqn ops_uk j).in_avals.map Aval.strong =
        (reject eqn.in_avals ops_uk).map Aval.strong ∧
      (knownBranch pe eqn ops_uk j).out_avals.map Aval.strong =
        (reject eqn.out_avals (unknownOuts pe eqn.branches eqn.out_avals.length ops_uk) ++
          (joined pe eqn ops_uk).res_avals).map Aval.strong := by
  obtain ⟨hs, hunks⟩ := branch_splits h ht hops hj
  have hout := hs.known_out
  rw [hunks] at hout
  refine ⟨?_, ?_, ?_⟩
  · rw [knownBranch, ← known_outs_length h ht hops hj]
    exact augmentOutputs_wellTyped hout hs.known_typed
  · have hin : (knownBranch pe eqn ops_uk j).in_avals = reject (sem j).in_avals ops_uk := hs.known_in
    rw [hin, ← reject_map, ← reject_map, ht.in_avals j hj]
  · rw [knownBranch_out_avals h ht hops hj, List.map_append, List.map_append,
      reject_out_avals_strong ht hj, filled_eq_of_fillable hfill (mem_branchResAvals pe ops_uk hj)]
    rfl

theorem joined_staged_typed {j : J} (hj : j ∈ eqn.branches) :
    (stagedBranch pe eqn ops_uk j).WellTyped ∧
      (stagedBranch pe eqn ops_uk j).in_avals.map Aval.strong =
        ((joined pe eqn ops_uk).res_avals ++ eqn.in_avals).map Aval.strong ∧
      (stagedBranch pe eqn ops_uk j).out_avals.map Aval.strong = eqn.out_avals.map Aval.strong := by
  obtain ⟨hs, -⟩ := branch_splits h ht hops hj
  have hmem := mem_branchResAvals pe ops_uk hj
  refine ⟨augmentInputs_wellTyped hmem hs.staged_in hs.staged_typed, ?_, ?_⟩
  · rw [stagedBranch, augmentInputs_in_avals hmem hs.staged_in, List.map_append, ht.in_avals j hj,
      List.map_append]
    rfl
  · have hout : (stagedBranch pe eqn ops_uk j).out_avals = (sem j).out_avals := hs.staged_out
    rw [hout, ht.out_avals j hj]

/-- What the known branch puts in the slots, the staged one takes from them. -/
theorem joined_eval {j : J} (hj : j ∈ eqn.branches) {args : List (Val D)}
    (hargs : Fits args eqn.in_avals) : ∃ res,
    (knownBranch pe eqn ops_uk j).eval (reject args ops_uk) =
      reject ((sem j).eval args) (unknownOuts pe eqn.branches eqn.out_avals.length ops_uk) ++ res ∧
    (stagedBranch pe eqn ops_uk j).eval (res ++ args) = (sem j).eval args := by
  obtain ⟨hs, hunks⟩ := branch_splits h ht hops hj
  have hmem := mem_branchResAvals pe ops_uk hj
  have hfits : Fits args (sem j).in_avals := hargs.congr (ht.in_avals j hj).symm
  obtain ⟨res, hknown, hstaged⟩ := hs.eval args hfits
  rw [hunks] at hknown
  have houts := (ht.typed j hj args hfits).reject
    (unknownOuts pe eqn.branches eqn.out_avals.length ops_uk)
  -- the residuals of the branch are as many as its slots
  have hres : res.length =
      (pe j ops_uk (unknownOuts pe eqn.branches eqn.out_avals.length ops_uk)).res_avals.length := by
    have hall := hs.known_typed (reject args ops_uk) (by
      rw [hs.known_in]
      exact hfits.reject ops_uk)
    rw [hknown, hs.known_out, hunks] at hall
    have hlen := hall.length
    rw [List.length_append, List.length_append, houts.length] at hlen
    omega
  have hlen := length_fillSlots (branchResAvals pe eqn ops_uk)
    (pe j ops_uk (unknownOuts pe eqn.branches eqn.out_avals.length ops_uk)).res_avals res
  refine ⟨fillSlots (branchResAvals pe eqn ops_uk)
    (pe j ops_uk (unknownOuts pe eqn.branches eqn.out_avals.length ops_uk)).res_avals res, ?_, ?_⟩
  · rw [knownBranch, ← known_outs_length h ht hops hj]
    exact augmentOutputs_eval hknown houts.length
  · rw [stagedBranch, augmentInputs_eval hmem, readAt_append, readAt_fillSlots hmem hres, ← hlen,
      List.drop_left, hstaged]
    intro p hp
    rw [hlen]
    exact slots_lt hmem hp

theorem joined_preserves (hfill : Fillable (branchResAvals pe eqn ops_uk)) :
    (joined pe eqn ops_uk).Preserves sem eqn ops_uk
      (unknownOuts pe eqn.branches eqn.out_avals.length ops_uk) where
  known_typed := by
    intro b hb
    obtain ⟨j, hj, rfl⟩ := List.mem_map.mp hb
    exact joined_known_typed h ht hops hj hfill
  staged_typed := by
    intro b hb
    obtain ⟨j, hj, rfl⟩ := List.mem_map.mp hb
    exact joined_staged_typed h ht hops hj
  eval := by
    intro index args hargs
    obtain ⟨j, hj, hcase⟩ := exists_branch ht index
    obtain ⟨res, hknown, hstaged⟩ := joined_eval h ht hops hj hargs
    refine ⟨res, ?_, ?_⟩
    · rw [joined, hcase, hcase, hknown]
    · rw [joined, hcase, hcase, hstaged]

end

/-! ## A residual on the host -/

def f32 : Aval := ⟨[], .numeric .float 32, false, .device⟩

def f32Host : Aval := { f32 with memory_space := .host }

/-- `-x * z` and `z`. -/
inductive Prog where
  | scaled
  | second
deriving DecidableEq

def Prog.jaxpr (p : Prog) : Jaxpr ℤ where
  in_avals := [f32, f32]
  out_avals := [f32]
  eval args := [⟨f32, match p, args with
    | .scaled, [x, z] => -x.data * z.data
    | .second, [_, z] => z.data
    | _, _ => 0⟩]

/-- A policy that offloads `-x`, and what it does when only `x` is known. -/
def offloadNeg (p : Prog) (in_unknowns _ensure_out_unknowns : List Bool) : CustomSplit ℤ :=
  if p = .scaled ∧ in_unknowns = [false, true] then
    { jaxpr_known := ⟨[f32], [f32Host], fun args => [⟨f32Host, match args with
        | [x] => -x.data
        | _ => 0⟩]⟩
      jaxpr_staged := ⟨[f32Host, f32, f32], [f32], fun args => [⟨f32, match args with
        | [y, _, z] => y.data * z.data
        | _ => 0⟩]⟩
      unks_out := [true]
      inst_out := [true]
      num_res := 1 }
  else
    { jaxpr_known := ⟨reject [f32, f32] in_unknowns, [], fun _ => []⟩
      jaxpr_staged := p.jaxpr
      unks_out := [true]
      inst_out := [true]
      num_res := 0 }

theorem Prog.wellTyped (p : Prog) : p.jaxpr.WellTyped := fun _ _ => rfl

theorem exists_pair {args : List (Val ℤ)} (h : Fits args [f32, f32]) : ∃ x z, args = [x, z] := by
  have hlen : args.length = 2 := h.length
  exact List.length_eq_two.mp hlen

theorem offloadNeg_lawful : Lawful Prog.jaxpr offloadNeg where
  splits := by
    intro p in_unknowns ensure_out_unknowns _ _ _
    unfold offloadNeg
    split
    · next hp =>
        obtain ⟨rfl, rfl⟩ := hp
        refine ⟨by decide, rfl, rfl, rfl, rfl, fun _ _ => rfl, rfl, rfl, fun _ _ => rfl, ?_⟩
        intro args hargs
        obtain ⟨x, z, rfl⟩ := exists_pair hargs
        exact ⟨[⟨f32Host, -x.data⟩], rfl, rfl⟩
    · refine ⟨Nat.zero_le _, rfl, rfl, rfl, rfl, fun _ _ => rfl, rfl, rfl, p.wellTyped, ?_⟩
      exact fun args _ => ⟨[], rfl, rfl⟩
  ensured := by
    intro p in_unknowns ensure_out_unknowns hlen
    obtain ⟨b, rfl⟩ := List.length_eq_one_iff.mp hlen
    unfold offloadNeg
    split <;> rfl

theorem scaledOrSecond_typed : Cond.Typed Prog.jaxpr ⟨[.scaled, .second], [f32, f32], [f32]⟩ :=
  ⟨List.cons_ne_nil _ _, fun p _ => p.wellTyped, fun _ _ => rfl, fun _ _ => rfl⟩

example : condPartialEvalCustom offloadNeg ⟨[.scaled, .second], [f32, f32], [f32]⟩ false
    [false, true] [true, true, true] [true, true, true] = .error .mismatch := rfl

end JaxDas.CondSplit
