import JaxDas.Sharding.Superdims

/-!
# Lists with several strides

An array with given sizes and strides, the most minor dimension first, has the elements `strided`.
Two dimensions of which the second takes up where the first ends are one dimension; what
`unflattenSuperdims` finds are the dimensions after all such pairs are merged, and
`explodeSuperdims` undoes the merging.
-/

namespace JaxDas.Sharding

/-- The elements of an array of these sizes and strides, the most minor dimension first. -/
def strided : List (ℕ × ℕ) → List ℕ
  | [] => [0]
  | (n, st) :: dims => (strided dims).flatMap fun v => (List.range n).map fun i => v + i * st

theorem length_strided : ∀ dims : List (ℕ × ℕ), (strided dims).length = size (dims.map Prod.fst)
  | [] => rfl
  | (n, st) :: dims => by
      rw [strided, length_flatMap_const (n := n) fun _ _ => by simp, length_strided dims,
        List.map_cons, size, Nat.mul_comm]

theorem getElem?_strided_cons {n i v k : ℕ} (st : ℕ) {dims : List (ℕ × ℕ)} (hi : i < n)
    (hv : (strided dims)[k]? = some v) : (strided ((n, st) :: dims))[k * n + i]? = some (v + i * st) := by
  rw [strided, getElem?_flatMap_const hi (fun _ _ => by simp) hv, List.getElem?_map,
    List.getElem?_range hi]
  rfl

theorem strided_head (dims : List (ℕ × ℕ)) (hpos : ∀ d ∈ dims, 0 < d.1) :
    (strided dims)[0]? = some 0 := by
  induction dims with
  | nil => rfl
  | cons d dims ih =>
      have h0 := ih fun e he => hpos e (List.mem_cons_of_mem _ he)
      have h := getElem?_strided_cons d.2 (hpos d List.mem_cons_self) h0
      simpa using h

theorem range_mul (m n : ℕ) :
    List.range (m * n) = (List.range m).flatMap fun j => (List.range n).map fun i => j * n + i := by
  induction m with
  | zero => simp
  | succ m ih =>
      rw [Nat.succ_mul, List.range_add, ih, List.range_succ, List.flatMap_append]
      simp

/-- Two dimensions that are one. -/
theorem strided_merge (n m st : ℕ) (dims : List (ℕ × ℕ)) :
    strided ((n, st) :: (m, n * st) :: dims) = strided ((n * m, st) :: dims) := by
  rw [strided, strided, strided, List.flatMap_assoc]
  congr 1
  funext v
  rw [Nat.mul_comm n m, range_mul, List.map_flatMap, List.flatMap_map]
  congr 1
  funext j
  rw [List.map_map]
  refine List.map_congr_left fun i _ => ?_
  simp only [Function.comp_apply]
  ring

/-- Dimensions that follow each other, and the one dimension that they are. -/
inductive Chain : List (ℕ × ℕ) → ℕ → ℕ → Prop
  | one (n st : ℕ) : Chain [(n, st)] n st
  | cons {dims : List (ℕ × ℕ)} {n m st : ℕ} : Chain dims m (n * st) →
      Chain ((n, st) :: dims) (n * m) st

theorem Chain.strided {chain : List (ℕ × ℕ)} {n st : ℕ} (h : Chain chain n st)
    (dims : List (ℕ × ℕ)) : strided (chain ++ dims) = strided ((n, st) :: dims) := by
  induction h with
  | one n st => rfl
  | @cons chain n m st _ ih =>
      rw [← strided_merge, List.cons_append, Sharding.strided, ih, ← Sharding.strided]

theorem Chain.one_lt {chain : List (ℕ × ℕ)} {n st : ℕ} (h : Chain chain n st)
    (hpos : ∀ d ∈ chain, 1 < d.1) : 1 < n := by
  induction h with
  | one n st => exact hpos _ List.mem_cons_self
  | @cons chain n m st _ ih =>
      have hm := ih fun d hd => hpos d (List.mem_cons_of_mem _ hd)
      have hn : 1 < n := hpos _ List.mem_cons_self
      have hle : 2 * 1 ≤ n * m := Nat.mul_le_mul hn (by omega)
      omega

theorem Chain.head {chain : List (ℕ × ℕ)} {n st : ℕ} (h : Chain chain n st) :
    ∃ k rest, chain = (k, st) :: rest := by
  cases h with
  | one => exact ⟨n, [], rfl⟩
  | cons => exact ⟨_, _, rfl⟩

/-- Dimensions, and the superdims that they merge into: chains that are as long as they can be. -/
inductive Merges : List (ℕ × ℕ) → List (ℕ × ℕ) → Prop
  | nil : Merges [] []
  | cons {chain dims superdims : List (ℕ × ℕ)} {n st : ℕ} : Chain chain n st →
      Merges dims superdims → (∀ m t rest, dims = (m, t) :: rest → t ≠ n * st) →
      Merges (chain ++ dims) ((n, st) :: superdims)

theorem exists_merges : ∀ dims : List (ℕ × ℕ), ∃ superdims, Merges dims superdims
  | [] => ⟨[], .nil⟩
  | (n, st) :: dims => by
      obtain ⟨superdims, h⟩ := exists_merges dims
      cases h with
      | nil => exact ⟨_, @Merges.cons [(n, st)] [] [] n st (.one n st) .nil nofun⟩
      | @cons chain dims superdims m t hc hrest hne =>
          by_cases hst : t = n * st
          · subst hst
            refine ⟨_, .cons (.cons hc) hrest fun m' t' rest h heq => hne m' t' rest h ?_⟩
            rw [heq]
            ring
          · obtain ⟨k, rest, rfl⟩ := hc.head
            refine ⟨_, .cons (.one n st) (.cons hc hrest hne) ?_⟩
            intro m' t' rest' heq
            injection heq with heq
            injection heq with _ ht
            exact ht ▸ hst

/-! ## What `unflattenSuperdims` finds -/

theorem runLength_eq {st n : ℕ} : ∀ {l : List ℕ} {i : ℕ}, (∀ j < n, l[j]? = some ((i + j) * st)) →
    l[n]? ≠ some ((i + n) * st) → runLength st i l = i + n := by
  induction n with
  | zero =>
      intro l i _ hend
      cases l with
      | nil => rfl
      | cons x l =>
          have hx : x ≠ i * st := by simpa using hend
          rw [runLength, if_pos hx]
          rfl
  | succ n ih =>
      intro l i hrun hend
      cases l with
      | nil => exact absurd (hrun 0 (by omega)) (by simp)
      | cons x l =>
          have hx : x = i * st := by simpa using hrun 0 (by omega)
          rw [runLength, if_neg (not_not.mpr hx), ih]
          · omega
          · intro j hj
            have h := hrun (j + 1) (by omega)
            rw [List.getElem?_cons_succ] at h
            rw [h, show i + 1 + j = i + (j + 1) by omega]
          · rw [List.getElem?_cons_succ] at hend
            rwa [Nat.add_assoc i 1 n, Nat.add_comm 1 n]

theorem everyNth_strided {n st : ℕ} (hn : 0 < n) (dims : List (ℕ × ℕ)) :
    everyNth n (strided ((n, st) :: dims)) = strided dims := by
  have hlen : (strided ((n, st) :: dims)).length = (strided dims).length * n := by
    rw [length_strided, length_strided, List.map_cons, size, Nat.mul_comm]
  have hcount : ((strided dims).length * n + (n - 1)) / n = (strided dims).length := by
    rw [Nat.mul_comm, Nat.mul_add_div hn, Nat.div_eq_of_lt (by omega), Nat.add_zero]
  rw [everyNth, hlen, hcount]
  refine List.ext_getElem (by simp) fun k hk hk' => ?_
  have h := getElem?_strided_cons st hn (List.getElem?_eq_getElem hk')
  rw [List.getElem_map, List.getElem_range, List.getD_eq_getElem?_getD,
    show k * n = k * n + 0 from rfl, h]
  simp

theorem unflattenLoop_cons {n st : ℕ} {dims superdims : List (ℕ × ℕ)} (hn : 1 < n)
    (hpos : ∀ d ∈ dims, 1 < d.1) (hne : ∀ m t rest, dims = (m, t) :: rest → t ≠ n * st)
    (hrest : unflattenLoop (strided dims) = .ok superdims) :
    unflattenLoop (strided ((n, st) :: dims)) = .ok ((n, st) :: superdims) := by
  have h0 := strided_head dims fun d hd => Nat.lt_trans Nat.one_pos (hpos d hd)
  have hrun : ∀ j < n, (strided ((n, st) :: dims))[j]? = some ((0 + j) * st) := by
    intro j hj
    have h := getElem?_strided_cons st hj h0
    simpa using h
  have hone := hrun 1 hn
  obtain ⟨hlen, hget⟩ := List.getElem?_eq_some_iff.mp hone
  have hend : (strided ((n, st) :: dims))[n]? ≠ some ((0 + n) * st) := by
    cases dims with
    | nil =>
        have : (strided [(n, st)]).length = n := by
          rw [length_strided]
          simp [size]
        rw [List.getElem?_eq_none (by omega)]
        exact (Option.some_ne_none _).symm
    | cons d dims =>
        -- the next element is the stride of the next dimension
        have hd := hpos d List.mem_cons_self
        have h1 := getElem?_strided_cons d.2 hd
          (strided_head dims fun e he => Nat.lt_trans Nat.one_pos
            (hpos e (List.mem_cons_of_mem _ he)))
        have h := getElem?_strided_cons st (n := n) (by omega : 0 < n) h1
        have hnext : (strided ((n, st) :: d :: dims))[n]? = some d.2 := by simpa using h
        rw [hnext]
        intro heq
        exact hne d.1 d.2 dims rfl (by simpa using heq)
  have hlength : runLength st 0 (strided ((n, st) :: dims)) = n := by
    rw [runLength_eq hrun hend, Nat.zero_add]
  have hstride : (strided ((n, st) :: dims))[1] = st := by simpa using hget
  rw [unflattenLoop, dif_pos hlen]
  simp only [hstride, hlength, dif_pos hn, everyNth_strided (Nat.lt_trans Nat.one_pos hn), hrest]
  rfl

/-- The superdims are found, the most minor first. -/
theorem unflattenLoop_strided {dims superdims : List (ℕ × ℕ)} (h : Merges dims superdims)
    (hpos : ∀ d ∈ dims, 1 < d.1) : unflattenLoop (strided dims) = .ok superdims := by
  induction h with
  | nil =>
      rw [unflattenLoop]
      rfl
  | @cons chain dims superdims n st hc _ hne ih =>
      have hdims : ∀ d ∈ dims, 1 < d.1 := fun d hd => hpos d (List.mem_append_right _ hd)
      have hn := hc.one_lt fun d hd => hpos d (List.mem_append_left _ hd)
      rw [hc.strided]
      exact unflattenLoop_cons hn hdims hne (ih hdims)

theorem unflattenSuperdims_strided {dims superdims : List (ℕ × ℕ)} (h : Merges dims superdims)
    (hpos : ∀ d ∈ dims, 1 < d.1) : unflattenSuperdims (strided dims) = .ok superdims := by
  have h0 := strided_head dims fun d hd => Nat.lt_trans Nat.one_pos (hpos d hd)
  have hloop := unflattenLoop_strided h hpos
  cases hs : strided dims with
  | nil => rw [hs] at h0; exact nomatch h0
  | cons x l =>
      rw [hs] at h0 hloop
      obtain rfl : x = 0 := by simpa using h0
      rw [unflattenSuperdims, if_pos rfl, hloop]

/-! ## What `explodeSuperdims` makes of them -/

/-- A chain is split into what it is made of, if the strides tell the sizes. -/
theorem explodeDim_chain {items chain : List (ℕ × ℕ)} {n st : ℕ} (hc : Chain chain n st)
    (hpos : ∀ d ∈ chain, 1 < d.1) (hitem : ∀ d ∈ chain, getItem items d.2 = .ok d.1) :
    explodeDim items n st = .ok chain := by
  induction hc with
  | one n st =>
      rw [explodeDim, hitem _ List.mem_cons_self]
      simp
  | @cons chain n m st hc ih =>
      have hm := hc.one_lt fun d hd => hpos d (List.mem_cons_of_mem _ hd)
      have hn : 1 < n := hpos _ List.mem_cons_self
      have hlt : n < n * m := by
        have : n * 2 ≤ n * m := Nat.mul_le_mul_left _ hm
        omega
      have hih := ih (fun d hd => hpos d (List.mem_cons_of_mem _ hd))
        fun d hd => hitem d (List.mem_cons_of_mem _ hd)
      rw [explodeDim, hitem (n, st) List.mem_cons_self]
      simp only [hlt, if_true]
      rw [dif_pos ⟨hn, Nat.mul_mod_right n m⟩, Nat.mul_div_cancel_left m (by omega), Nat.mul_comm st n,
        hih]
      rfl

theorem explodeLoop_append {items l m : List (ℕ × ℕ)} {r : List (ℕ × ℕ)}
    (hl : explodeLoop items l = .ok r) {r' : List (ℕ × ℕ)} (hm : explodeLoop items m = .ok r') :
    explodeLoop items (l ++ m) = .ok (r ++ r') := by
  induction l generalizing r with
  | nil =>
      injection hl with hl
      subst hl
      exact hm
  | cons d l ih =>
      obtain ⟨new, hnew, hl⟩ := bind_ok.mp hl
      obtain ⟨final, hfinal, hl⟩ := bind_ok.mp hl
      injection hl with hl
      subst hl
      rw [List.cons_append, explodeLoop, hnew, ok_bind, ih hfinal, ok_bind, List.append_assoc]

/-- The dimensions come back, the most major first. -/
theorem explodeLoop_merges {items dims superdims : List (ℕ × ℕ)} (h : Merges dims superdims)
    (hpos : ∀ d ∈ dims, 1 < d.1) (hitem : ∀ d ∈ dims, getItem items d.2 = .ok d.1) :
    explodeLoop items superdims.reverse = .ok dims.reverse := by
  induction h with
  | nil => rfl
  | @cons chain dims superdims n st hc _ _ ih =>
      have hih := ih (fun d hd => hpos d (List.mem_append_right _ hd))
        fun d hd => hitem d (List.mem_append_right _ hd)
      have hone : explodeLoop items [(n, st)] = .ok chain.reverse := by
        rw [explodeLoop, explodeDim_chain hc (fun d hd => hpos d (List.mem_append_left _ hd))
          fun d hd => hitem d (List.mem_append_left _ hd), ok_bind]
        simp [explodeLoop, ok_bind]
      rw [List.reverse_cons, List.reverse_append]
      exact explodeLoop_append hih hone

end JaxDas.Sharding
