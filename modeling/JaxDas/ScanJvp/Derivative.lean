import JaxDas.ScanJvp.Rule

/-!
# The derivative of the body

`jvp_jaxpr` differentiates the body if what it makes of it computes one function, `derivative`, of
the inputs and all tangents. A mask says which tangents it is given; the others are zeros.
-/

namespace JaxDas.ScanJvp

open ScanSplit

variable {α : Type} {zero : α}

/-! ## Zeros -/

theorem slice_fill {n i : ℕ} (hi : i < n) (aval : List ℕ) :
    (NdArray.fill (n :: aval) zero).slice 0 i = .fill aval zero := by
  have hshape : (NdArray.fill (n :: aval) zero).shape = aval.insertIdx 0 n := rfl
  refine NdArray.ext (NdArray.slice_shape hshape (Nat.zero_le _) hi) (funext fun idx => ?_)
  rw [NdArray.slice_get? hshape (Nat.zero_le _) hi]
  have hwithin : Within (n :: aval) (idx.insertIdx 0 i) ↔ Within aval idx :=
    within_insertIdx hi (Nat.zero_le _)
  simp only [NdArray.fill, hwithin]

/-- Stacked zeros. -/
theorem stackLeading_fill {aval : List ℕ} {n : ℕ} {f : ℕ → NdArray α}
    (h : ∀ i < n, f i = .fill aval zero) : stackLeading aval n f = .fill (n :: aval) zero := by
  have hshape : ∀ i < n, (f i).shape = aval := fun i hi => by rw [h i hi]; rfl
  obtain ⟨hstack, hslice⟩ := stackLeading_spec hshape
  refine @NdArray.ext_slices _ _ aval 0 n _ hstack rfl (Nat.zero_le _) fun i hi => ?_
  rw [hslice i hi, h i hi, slice_fill hi]

/-! ## Tangents with zeros -/

/-- Tangents that are zeros where the mask does not mark. -/
inductive Sparse (zero : α) : List Bool → List (List ℕ) → List (NdArray α) → Prop where
  | nil : Sparse zero [] [] []
  | cons {nz : Bool} {nzs : List Bool} {aval : List ℕ} {avals : List (List ℕ)} {t : NdArray α}
      {ts : List (NdArray α)} (hshape : t.shape = aval) (hzero : nz = false → t = .fill aval zero)
      (h : Sparse zero nzs avals ts) : Sparse zero (nz :: nzs) (aval :: avals) (t :: ts)

namespace Sparse

variable {nzs nzs' : List Bool} {avals avals' : List (List ℕ)} {ts ts' : List (NdArray α)}

theorem shapes (h : Sparse zero nzs avals ts) : ts.map NdArray.shape = avals := by
  induction h with
  | nil => rfl
  | cons hshape _ _ ih => rw [List.map_cons, hshape, ih]

theorem length_mask (h : Sparse zero nzs avals ts) : nzs.length = avals.length := by
  induction h with
  | nil => rfl
  | cons _ _ _ ih => rw [List.length_cons, List.length_cons, ih]

theorem length_tangents (h : Sparse zero nzs avals ts) : ts.length = nzs.length := by
  rw [h.length_mask, ← h.shapes, List.length_map]

theorem mono (h : Sparse zero nzs avals ts) (hbelow : Below nzs nzs') : Sparse zero nzs' avals ts := by
  induction h generalizing nzs' with
  | nil =>
      cases hbelow
      exact .nil
  | @cons nz _ _ _ _ _ hshape hzero _ ih =>
      cases hbelow with
      | @cons _ nz' _ _ hnz hbelow =>
          refine .cons hshape (fun hfalse => hzero ?_) (ih hbelow)
          cases nz with
          | false => rfl
          | true => exact absurd (hnz rfl) (by simp [hfalse])

theorem append (h : Sparse zero nzs avals ts) (h' : Sparse zero nzs' avals' ts') :
    Sparse zero (nzs ++ nzs') (avals ++ avals') (ts ++ ts') := by
  induction h with
  | nil => exact h'
  | cons hshape hzero _ ih => exact .cons hshape hzero ih

theorem split {n : ℕ} : ∀ {nzs : List Bool} {avals : List (List ℕ)} {ts : List (NdArray α)},
    nzs.length = n → avals.length = n → Sparse zero (nzs ++ nzs') (avals ++ avals') ts →
      Sparse zero nzs avals (ts.take n) ∧ Sparse zero nzs' avals' (ts.drop n)
  | [], [], ts, hn, _, h => by
      obtain rfl : 0 = n := hn
      exact ⟨.nil, h⟩
  | [], _ :: _, _, hn, havals, _ => by
      rw [List.length_nil] at hn
      rw [List.length_cons] at havals
      omega
  | _ :: _, [], _, hn, havals, _ => by
      rw [List.length_cons] at hn
      rw [List.length_nil] at havals
      omega
  | nz :: nzs, aval :: avals, _, hn, havals, .cons hshape hzero h => by
      rw [List.length_cons] at hn havals
      obtain ⟨n, rfl⟩ : ∃ m, n = m + 1 := ⟨n - 1, by omega⟩
      obtain ⟨htake, hdrop⟩ := split (Nat.succ.inj hn) (Nat.succ.inj havals) h
      exact ⟨.cons hshape hzero htake, hdrop⟩

theorem length_select (h : Sparse zero nzs avals ts) : (select ts nzs).length = nzs.count true :=
  JaxDas.length_select h.length_tangents

/-- The parts of stacked tangents at a position. -/
theorem slices {n i : ℕ} (hi : i < n) : ∀ {nzs : List Bool} {avals : List (List ℕ)}
    {ts : List (NdArray α)}, Sparse zero nzs (stackedAvals n avals) ts →
      Sparse zero nzs avals (JaxDas.slices i ts)
  | [], [], _, .nil => .nil
  | nz :: nzs, aval :: avals, t :: ts, .cons hshape hzero h => by
      have hslice : (t.slice 0 i).shape = aval :=
        NdArray.slice_shape (k := 0) hshape (Nat.zero_le _) hi
      refine .cons hslice (fun hnz => ?_) (slices hi h)
      exact (congrArg (·.slice 0 i) (hzero hnz)).trans (slice_fill hi aval)

theorem stackRows {n : ℕ} : ∀ {nzs : List Bool} {avals : List (List ℕ)}
    {rows : ℕ → List (NdArray α)}, nzs.length = avals.length →
      (∀ i < n, Sparse zero nzs avals (rows i)) →
      Sparse zero nzs (stackedAvals n avals) (JaxDas.stackRows n avals rows)
  | [], [], _, _, _ => .nil
  | nz :: nzs, aval :: avals, rows, hlen, h => by
      have hrow : ∀ i < n, ∃ t ts, rows i = t :: ts ∧ t.shape = aval ∧
          (nz = false → t = .fill aval zero) ∧ Sparse zero nzs avals ts := by
        intro i hi
        have hi := h i hi
        generalize rows i = row at hi
        cases hi with
        | cons hshape hzero h => exact ⟨_, _, rfl, hshape, hzero, h⟩
      refine .cons (stackLeading_spec fun i hi => ?_).1 (fun hnz => stackLeading_fill fun i hi => ?_)
        (stackRows (Nat.succ.inj hlen) fun i hi => ?_)
      · obtain ⟨t, ts, hr, hshape, -, -⟩ := hrow i hi
        rw [hr]
        exact hshape
      · obtain ⟨t, ts, hr, -, hzero, -⟩ := hrow i hi
        rw [hr]
        exact hzero hnz
      · obtain ⟨t, ts, hr, -, -, h⟩ := hrow i hi
        rw [hr]
        exact h

end Sparse

/-! ## Symbolic zeros -/

/-- A tangent as an array. -/
def arrays (zero : α) (ts : List (Tangent α)) : List (NdArray α) :=
  ts.map (Tangent.instantiateZeros zero)

theorem sparse_arrays : ∀ (ts : List (Tangent α)),
    Sparse zero (ts.map Tangent.nonzero) (ts.map Tangent.aval) (arrays zero ts)
  | [] => .nil
  | .zero _ :: ts => .cons rfl (fun _ => rfl) (sparse_arrays ts)
  | .array _ :: ts => .cons rfl nofun (sparse_arrays ts)

/-- The tangents that are instantiated are those that are not pruned. -/
theorem pruneZeros_instantiated : ∀ {ts : List (Tangent α)} {nzs : List Bool},
    Below (ts.map Tangent.nonzero) nzs →
      pruneZeros (List.zipWith
        (fun t nz => if nz then .array (t.instantiateZeros zero) else t) ts nzs) =
      select (arrays zero ts) nzs
  | [], [], _ => rfl
  | _ :: _, true :: _, .cons _ h => congrArg (_ :: ·) (pruneZeros_instantiated h)
  | .zero _ :: ts, false :: _, .cons _ h => @pruneZeros_instantiated ts _ h
  | .array _ :: _, false :: _, .cons hnz _ => absurd (hnz rfl) Bool.false_ne_true

/-- Tangents of which only those that the mask marks are arrays. -/
def symbolic : List (List ℕ) → List Bool → List (NdArray α) → List (Tangent α)
  | _ :: avals, true :: nzs, t :: ts => .array t :: symbolic avals nzs ts
  | aval :: avals, false :: nzs, _ :: ts => .zero aval :: symbolic avals nzs ts
  | _, _, _ => []

theorem tangentsOut_eq (rest : List (NdArray α)) : ∀ {avals : List (List ℕ)} {nzs : List Bool}
    {ts : List (NdArray α)}, avals.length = nzs.length → ts.length = nzs.length →
      tangentsOut avals nzs (select ts nzs ++ rest) = .ok (symbolic avals nzs ts, rest)
  | [], [], [], _, _ => rfl
  | aval :: avals, true :: nzs, t :: ts, havals, hts => by
      rw [select_cons_true, List.cons_append, tangentsOut,
        tangentsOut_eq rest (Nat.succ.inj havals) (Nat.succ.inj hts)]
      rfl
  | aval :: avals, false :: nzs, t :: ts, havals, hts => by
      rw [select_cons_false, tangentsOut,
        tangentsOut_eq rest (Nat.succ.inj havals) (Nat.succ.inj hts)]
      rfl

/-- With the shapes of the tangents, the zeros are the tangents. -/
theorem arrays_symbolic {avals : List (List ℕ)} {nzs : List Bool} {ts : List (NdArray α)}
    (h : Sparse zero nzs avals ts) : arrays zero (symbolic avals nzs ts) = ts := by
  induction h with
  | nil => rfl
  | @cons nz _ _ _ _ _ hshape hzero _ ih =>
      cases nz with
      | true => exact congrArg (_ :: ·) ih
      | false => exact congrArg₂ (· :: ·) (hzero rfl).symm ih

/-! ## What `jvp_jaxpr` returns -/

/-- The outputs of the body, and those of the tangents that are not zero. -/
structure Jvp.Differentiates (zero : α)
    (derivative : (primals tangents : List (NdArray α)) → List (NdArray α)) (jvp : Jvp α)
    (jaxpr : ClosedJaxpr α) (nonzeros instantiate : List Bool) : Prop where
  instantiated : Below instantiate jvp.nonzeros_out
  in_avals : jvp.jaxpr.in_avals = jaxpr.in_avals ++ select jaxpr.in_avals nonzeros
  out_avals : jvp.jaxpr.out_avals = jaxpr.out_avals ++ select jaxpr.out_avals jvp.nonzeros_out
  eval : ∀ primals ts, primals.map NdArray.shape = jaxpr.in_avals →
    Sparse zero nonzeros jaxpr.in_avals ts →
    Sparse zero jvp.nonzeros_out jaxpr.out_avals (derivative primals ts) ∧
      jvp.jaxpr.eval (primals ++ select ts nonzeros) =
        jaxpr.eval primals ++ select (derivative primals ts) jvp.nonzeros_out

/-! ## The fixpoint -/

/-- The fixpoint closes: what is not zero stays so. -/
theorem nzFixpoint_ok {β : Type} {step : List Bool → β} {carry_nz_out : β → List Bool} {k : ℕ}
    (h : ∀ nz, nz.length = k → Below nz (carry_nz_out (step nz))) : ∀ {n : ℕ} {init_nz : List Bool},
      init_nz.length = k → init_nz.length < n + init_nz.count true →
        ∃ carry_nz, nzFixpoint step carry_nz_out n init_nz = .ok (carry_nz, step carry_nz) ∧
          Below init_nz carry_nz ∧ carry_nz_out (step carry_nz) = carry_nz
  | 0, init_nz, _, hn => by
      have := List.count_le_length (a := true) (l := init_nz)
      omega
  | n + 1, init_nz, hlen, hn => by
      have hbelow := h init_nz hlen
      rw [nzFixpoint]
      rcases hbelow.eq_or_count_lt with heq | hlt
      · exact ⟨init_nz, if_pos heq.symm, Below.refl _, heq.symm⟩
      · have hne : carry_nz_out (step init_nz) ≠ init_nz := by
          intro heq
          rw [heq] at hlt
          omega
        have hlength := hbelow.length_eq
        rw [if_neg hne, zipWith_or_of_below hbelow]
        obtain ⟨carry_nz, hfix, hbelow', hclosed⟩ :=
          @nzFixpoint_ok _ _ _ _ h n (carry_nz_out (step init_nz)) (by omega) (by omega)
        exact ⟨carry_nz, hfix, Below.trans hbelow hbelow', hclosed⟩

/-- A carry with what `step` finds to be not zero. -/
def promote {β : Type} (step : List Bool → β) (carry_nz_out : β → List Bool) (nz : List Bool) :
    List Bool := List.zipWith (· || ·) nz (carry_nz_out (step nz))

/-- It is reached by promoting the carry as often as it is long. -/
theorem nzFixpoint_eq_iterate {β : Type} {step : List Bool → β} {carry_nz_out : β → List Bool}
    {carry_nz : List Bool} {out : β} : ∀ {n m : ℕ} {init_nz : List Bool}, n ≤ m + 1 →
      nzFixpoint step carry_nz_out n init_nz = .ok (carry_nz, out) →
        (promote step carry_nz_out)^[m] init_nz = carry_nz
  | 0, _, _, _, h => by rw [nzFixpoint] at h; cases h
  | n + 1, m, init_nz, hm, h => by
      rw [nzFixpoint] at h
      split at h
      · next hclosed =>
          cases h
          refine Function.iterate_fixed ?_ m
          rw [promote, hclosed]
          exact zipWith_or_of_below (Below.refl _)
      · cases m with
        | zero =>
            obtain rfl : n = 0 := by omega
            rw [nzFixpoint] at h
            cases h
        | succ m =>
            rw [Function.iterate_succ_apply]
            exact nzFixpoint_eq_iterate (by omega) h

end JaxDas.ScanJvp
