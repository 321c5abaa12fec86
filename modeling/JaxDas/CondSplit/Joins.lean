import JaxDas.CondSplit.Rule

/-!
# Joined branches

Every residual of a branch has a slot of its own and of its type. The slots that a branch does not
have are zero-filled in its known part and ignored in its staged one, so what the known part puts in
the slots is what the staged part takes from them.
-/

namespace JaxDas.CondSplit

variable {D : Type}

/-! ## Types up to weak types -/

theorem typematch_iff (t1 t2 : Aval) : typematch t1 t2 = true ↔ t1.strong = t2.strong := by
  cases t1
  cases t2
  simp only [typematch, Aval.strong, Bool.and_eq_true, beq_iff_eq, Aval.mk.injEq]
  tauto

theorem all_typematch_iff : ∀ {l1 l2 : List Aval}, l1.length = l2.length →
    ((List.zipWith typematch l1 l2).all id = true ↔ l1.map Aval.strong = l2.map Aval.strong)
  | [], [], _ => by simp
  | t1 :: l1, t2 :: l2, h => by
      rw [List.zipWith_cons_cons, List.all_cons, Bool.and_eq_true, id_eq, typematch_iff,
        all_typematch_iff (Nat.succ.inj h), List.map_cons, List.map_cons, List.cons.injEq]

/-- `zeros_like_aval` gives a value of the type. -/
def Aval.Fillable (aval : Aval) : Prop :=
  (∀ impl, aval.dtype ≠ .key impl) ∧ aval.memory_space = .device

theorem strong_zerosAval_iff (aval : Aval) :
    (zerosAval aval).strong = aval.strong ↔ aval.Fillable := by
  obtain ⟨shape, dtype, weak_type, memory_space⟩ := aval
  cases dtype with
  | key impl => simp [zerosAval, Aval.strong, Aval.Fillable]
  | numeric kind bits => simp [zerosAval, Aval.strong, Aval.Fillable, eq_comm]
  | float0 => simp [zerosAval, Aval.strong, Aval.Fillable, eq_comm]

theorem fits_append {args args' : List (Val D)} {avals avals' : List Aval} (h : Fits args avals)
    (h' : Fits args' avals') : Fits (args ++ args') (avals ++ avals') := by
  unfold Fits at *
  rw [List.map_append, List.map_append, h, h']

theorem Fits.length {args : List (Val D)} {avals : List Aval} (h : Fits args avals) :
    args.length = avals.length := by
  rw [← List.length_map (fun x : Val D => x.aval.strong), h, List.length_map]

theorem Fits.reject {args : List (Val D)} {avals : List Aval} (h : Fits args avals)
    (mask : List Bool) : Fits (reject args mask) (reject avals mask) := by
  unfold Fits at *
  rw [← reject_map, ← reject_map, h]

theorem Fits.congr {args : List (Val D)} {avals avals' : List Aval} (h : Fits args avals)
    (heq : avals.map Aval.strong = avals'.map Aval.strong) : Fits args avals' := h.trans heq

/-- Of two lists of values, by the lengths of their types. -/
theorem Fits.split {args : List (Val D)} {avals avals' : List Aval}
    (h : Fits args (avals ++ avals')) :
    Fits (args.take avals.length) avals ∧ Fits (args.drop avals.length) avals' := by
  unfold Fits at *
  rw [List.map_append] at h
  rw [List.map_take, List.map_drop, h]
  constructor
  · rw [← List.length_map Aval.strong, List.take_left]
  · rw [← List.length_map Aval.strong, List.drop_left]

/-! ## Slots -/

section

variable {xss : List (List Aval)} {xs : List Aval}

/-- The types of the slots when a branch with these residuals has filled its own. -/
def filled (xss : List (List Aval)) (xs : List Aval) : List Aval :=
  subvals (((mergeOccurrences xss).map Prod.fst).map zerosAval) ((slots xss xs).zip xs)

theorem subvals_slots (h : xs ∈ xss) :
    subvals ((mergeOccurrences xss).map Prod.fst) ((slots xss xs).zip xs) =
      (mergeOccurrences xss).map Prod.fst :=
  subvals_eq_self (nodup_slots h) (getElem?_slots h)

/-- A slot has its type, or that of the zeros where the branch has fewer residuals of the type. -/
theorem getElem?_filled (h : xs ∈ xss) {p : ℕ} (hp : p < (mergeOccurrences xss).length) :
    (filled xss xs)[p]? = some
      (if (mergeOccurrences xss)[p].2 < xs.count (mergeOccurrences xss)[p].1 then
        (mergeOccurrences xss)[p].1
      else zerosAval (mergeOccurrences xss)[p].1) := by
  by_cases hmem : p ∈ slots xss xs
  · have hlt : (mergeOccurrences xss)[p].2 < xs.count (mergeOccurrences xss)[p].1 :=
      Nat.lt_of_not_le fun hle => (not_mem_slots hp).mpr hle hmem
    obtain ⟨j, hj, rfl⟩ := List.getElem_of_mem hmem
    have hbound : ∀ q ∈ slots xss xs,
        q < (((mergeOccurrences xss).map Prod.fst).map zerosAval).length := by
      intro q hq
      rw [List.length_map, List.length_map]
      exact slots_lt h hq
    have hself := getElem?_of_map_eq (getElem?_slots h) hj
    rw [List.getElem?_map, List.getElem?_eq_getElem hp, Option.map_some] at hself
    rw [filled, getElem?_subvals_zip (nodup_slots h) length_slots hbound hj, ← hself, if_pos hlt]
  · have hle := (not_mem_slots hp).mp hmem
    rw [filled, getElem?_subvals_zip_of_not_mem length_slots hmem, if_neg (Nat.not_lt.mpr hle),
      List.getElem?_map, List.getElem?_map, List.getElem?_eq_getElem hp]
    rfl

theorem exists_max_count (aval : Aval) : ∀ {xss : List (List Aval)}, xss ≠ [] →
    ∃ xs ∈ xss, ∀ xs' ∈ xss, xs'.count aval ≤ xs.count aval
  | [], h => absurd rfl h
  | [xs], _ => ⟨xs, List.mem_singleton_self xs, fun xs' h => List.mem_singleton.mp h ▸ Nat.le_refl _⟩
  | xs :: ys :: xss, _ => by
      obtain ⟨zs, hzs, hmax⟩ := exists_max_count aval (List.cons_ne_nil ys xss)
      rcases Nat.le_total (zs.count aval) (xs.count aval) with hle | hle
      · refine ⟨xs, List.mem_cons_self, fun xs' h => ?_⟩
        rcases List.mem_cons.mp h with rfl | h
        · exact Nat.le_refl _
        · exact Nat.le_trans (hmax xs' h) hle
      · refine ⟨zs, List.mem_cons_of_mem xs hzs, fun xs' h => ?_⟩
        rcases List.mem_cons.mp h with rfl | h
        · exact hle
        · exact hmax xs' h

/-- `_merge_branch_residuals` gives the residuals of every branch distinct slots of their types, and
has no more slots of a type than the branch with the most residuals of it needs. -/
theorem mergeBranchResiduals_spec (branch_res_avals : List (List Aval)) :
    List.Forall₂ (fun res indices => indices.Nodup ∧
      indices.map (fun p => (mergeBranchResiduals branch_res_avals).1[p]?) = res.map some)
      branch_res_avals (mergeBranchResiduals branch_res_avals).2 ∧
    ∀ aval ∈ (mergeBranchResiduals branch_res_avals).1, ∃ res ∈ branch_res_avals,
      (mergeBranchResiduals branch_res_avals).1.count aval = res.count aval := by
  constructor
  · refine List.forall₂_map_right_iff.mpr (List.forall₂_same.mpr fun res hres => ?_)
    exact ⟨nodup_slots hres, getElem?_slots hres⟩
  · intro aval haval
    have hne : branch_res_avals ≠ [] := by
      rintro rfl
      exact List.not_mem_nil haval
    obtain ⟨res, hres, hmax⟩ := exists_max_count aval hne
    exact ⟨res, hres, count_mergeOccurrences hres hmax⟩

/-! ## The known part -/

theorem slots_bound (h : xs ∈ xss) :
    ∀ p ∈ slots xss xs, p < ((mergeOccurrences xss).map Prod.fst).length := by
  intro p hp
  rw [List.length_map]
  exact slots_lt h hp

section

variable [Zero D] {jaxpr : Jaxpr D} {outs : List Aval}

/-- The slots when a branch has put its residuals in its own. -/
def fillSlots (xss : List (List Aval)) (xs : List Aval) (res : List (Val D)) : List (Val D) :=
  subvals (((mergeOccurrences xss).map Prod.fst).map zerosLikeAval) ((slots xss xs).zip res)

theorem length_fillSlots (xss : List (List Aval)) (xs : List Aval) (res : List (Val D)) :
    (fillSlots xss xs res).length = (mergeOccurrences xss).length := by
  rw [fillSlots, length_subvals, List.length_map, List.length_map]

theorem readAt_fillSlots (h : xs ∈ xss) {res : List (Val D)} (hres : res.length = xs.length) :
    readAt (fillSlots xss xs res) (slots xss xs) = res := by
  refine readAt_subvals (nodup_slots h) (length_slots.trans hres.symm) fun p hp => ?_
  rw [List.length_map]
  exact slots_bound h p hp

theorem augmentOutputs_out_avals (hout : jaxpr.out_avals = outs ++ xs) :
    (augmentOutputs ((mergeOccurrences xss).map Prod.fst) outs.length jaxpr (slots xss xs)).out_avals
      = outs ++ filled xss xs := by
  rw [augmentOutputs, hout, List.take_left, List.drop_left]
  rfl

theorem augmentOutputs_eval {args known res : List (Val D)}
    (heval : jaxpr.eval args = known ++ res) (hlen : known.length = outs.length) :
    (augmentOutputs ((mergeOccurrences xss).map Prod.fst) outs.length jaxpr (slots xss xs)).eval args
      = known ++ fillSlots xss xs res := by
  rw [augmentOutputs]
  dsimp only
  rw [heval, ← hlen, List.take_left, List.drop_left]
  rfl

theorem augmentOutputs_wellTyped (hout : jaxpr.out_avals = outs ++ xs) (htyped : jaxpr.WellTyped) :
    (augmentOutputs ((mergeOccurrences xss).map Prod.fst) outs.length jaxpr
      (slots xss xs)).WellTyped := by
  intro args hargs
  have hfits := htyped args hargs
  rw [hout] at hfits
  obtain ⟨hknown, hres⟩ := hfits.split
  rw [augmentOutputs_out_avals hout,
    augmentOutputs_eval (List.take_append_drop outs.length _).symm hknown.length]
  refine fits_append hknown ?_
  unfold Fits filled fillSlots
  unfold Fits at hres
  have hzeros : ∀ avals : List Aval,
      (avals.map zerosLikeAval).map (fun x : Val D => x.aval.strong) =
        (avals.map zerosAval).map Aval.strong := by
    intro avals
    rw [List.map_map, List.map_map]
    rfl
  rw [map_subvals, map_subvals, hzeros]
  refine congrArg (subvals _) ?_
  have hzip := congrArg ((slots xss xs).zip) hres
  rwa [List.zip_map_right, List.zip_map_right] at hzip

end

/-! ## The staged part -/

section

variable {jaxpr : Jaxpr D} {ins : List Aval}

theorem augmentInputs_in_avals (h : xs ∈ xss) (hin : jaxpr.in_avals = xs ++ ins) :
    (augmentInputs ((mergeOccurrences xss).map Prod.fst) jaxpr (slots xss xs)).in_avals =
      (mergeOccurrences xss).map Prod.fst ++ ins := by
  rw [augmentInputs]
  dsimp only
  rw [hin, length_slots, List.take_left, List.drop_left, subvals_slots h]

/-- The staged part reads the residuals of the branch in its slots. -/
theorem augmentInputs_eval (h : xs ∈ xss) {args : List (Val D)} :
    (augmentInputs ((mergeOccurrences xss).map Prod.fst) jaxpr (slots xss xs)).eval args =
      jaxpr.eval (readAt args (slots xss xs) ++ args.drop (mergeOccurrences xss).length) := by
  have hread : (List.range (slots xss xs).length).filterMap (fun v =>
      args[(subvals (List.replicate ((mergeOccurrences xss).map Prod.fst).length none)
        ((slots xss xs).zip ((List.range (slots xss xs).length).map some))).idxOf (some v)]?) =
      readAt args (slots xss xs) := by
    conv_rhs => rw [← readAt_range (slots xss xs)]
    rw [readAt, readAt, List.filterMap_filterMap]
    refine List.filterMap_congr fun v hv => ?_
    have hv := List.mem_range.mp hv
    rw [idxOf_subvals_range (nodup_slots h) (slots_bound h) hv, List.getElem?_eq_getElem hv,
      Option.bind_some]
  rw [augmentInputs]
  dsimp only
  rw [hread, List.length_map]

theorem augmentInputs_wellTyped (h : xs ∈ xss) (hin : jaxpr.in_avals = xs ++ ins)
    (htyped : jaxpr.WellTyped) :
    (augmentInputs ((mergeOccurrences xss).map Prod.fst) jaxpr (slots xss xs)).WellTyped := by
  intro args hargs
  rw [augmentInputs_in_avals h hin] at hargs
  rw [augmentInputs_eval h]
  refine htyped _ ?_
  rw [hin]
  refine fits_append ?_ ?_
  · unfold Fits at *
    rw [map_readAt, hargs, ← map_readAt, readAt_append _ (slots_bound h),
      readAt_of_map_eq (getElem?_slots h)]
  · have hrest := hargs.split.2
    rwa [List.length_map] at hrest

end

end

end JaxDas.CondSplit
