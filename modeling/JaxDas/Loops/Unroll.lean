import JaxDas.Loops.Depends
import JaxDas.Loops.Leading

/-!
# Unrolling a scan

`_scan_impl` cuts the positions into blocks of `unroll` and runs a block in every trip of a loop. What
does not fill a block is run after the loop: the last positions, or the first ones if the scan is
reversed.
-/

namespace JaxDas

variable {α : Type}

/-- Positions and iterations of `n` steps, each of the other. -/
def flipIf (reverse : Bool) (n i : ℕ) : ℕ := if reverse then n - i - 1 else i

/-- `num_trips` and `remainder`. -/
def tripCounts (length unroll : ℕ) : ℕ × ℕ :=
  let (num_trips, remainder) := if unroll = 0 then (0, length) else (length / unroll, length % unroll)
  if unroll ≠ 1 ∧ num_trips = 1 ∧ remainder = 0 then (0, length) else (num_trips, remainder)

namespace Scan

variable (s : Scan α)

/-- What the stacked outputs have at each position. -/
def yAvals : List (List ℕ) := s.jaxpr.out_avals.drop s.num_carry

/-- The loop of `inner` after so many of `n` steps: the carry and `ys`. -/
def innerAfter (consts : List (NdArray α)) (n : ℕ) (carry xs : List (NdArray α)) :
    ℕ → List (NdArray α) × List (List (NdArray α))
  | 0 => (carry, [])
  | i_ + 1 =>
      let before := innerAfter consts n carry xs i_
      let i := flipIf s.reverse n i_
      let carry_y := s.jaxpr.eval (consts ++ before.1 ++ slices i xs)
      (carry_y.take s.num_carry, before.2 ++ [carry_y.drop s.num_carry])

/-- `inner`: `n` steps of the body on parts of `xs`. -/
def inner (consts : List (NdArray α)) (unroll n : ℕ) (carry xs : List (NdArray α)) :
    List (NdArray α) × List (NdArray α) :=
  if unroll = 1 then
    let carry_y := s.jaxpr.eval (consts ++ carry ++ xs)
    (carry_y.take s.num_carry, carry_y.drop s.num_carry)
  else
    let last := s.innerAfter consts n carry xs n
    let ys := if s.reverse then last.2.reverse else last.2
    (last.1, stackRows ys.length s.yAvals fun i => ys.getD i [])

/-- The while loop after so many trips: the carry and `yss`. -/
def tripsAfter (consts : List (NdArray α)) (unroll num_trips : ℕ) (xss carry yss : List (NdArray α)) :
    ℕ → List (NdArray α) × List (NdArray α)
  | 0 => (carry, yss)
  | i_ + 1 =>
      let before := tripsAfter consts unroll num_trips xss carry yss i_
      let i := flipIf s.reverse num_trips i_
      let after := s.inner consts unroll unroll before.1 (slices i xss)
      (after.1, List.zipWith (fun y upd => y.updateIndex upd i) before.2 after.2)

/-- `xs_` and `xs_rem`. -/
def splitXs (unroll num_trips remainder : ℕ) (xs : List (NdArray α)) :
    List (NdArray α) × List (NdArray α) :=
  if unroll ≠ 1 ∧ remainder ≠ 0 then
    if s.reverse then
      (xs.map fun x => x.sliceInDim remainder (x.shape.headD 0),
        xs.map fun x => x.sliceInDim 0 remainder)
    else
      (xs.map fun x => x.sliceInDim 0 (num_trips * unroll),
        xs.map fun x => x.sliceInDim (num_trips * unroll) (x.shape.headD 0))
  else (xs, [])

/-- The carry and `ys` after the loop. -/
def blockedLoop (empty : List ℕ → NdArray α) (consts : List (NdArray α)) (unroll num_trips : ℕ)
    (carry xs : List (NdArray α)) : List (NdArray α) × List (NdArray α) :=
  if unroll = 1 then
    s.tripsAfter consts unroll num_trips xs carry (s.yAvals.map fun aval => empty (s.length :: aval))
      num_trips
  else if num_trips = 0 then
    (carry, s.yAvals.map fun aval => empty (num_trips * unroll :: aval))
  else
    let after := s.tripsAfter consts unroll num_trips (xs.map (NdArray.blocks num_trips unroll)) carry
      (s.yAvals.map fun aval => empty (num_trips :: unroll :: aval)) num_trips
    (after.1, after.2.map (NdArray.unblocks num_trips unroll))

/-- `_scan_impl`. What is in an empty array before it is written to is not known. -/
def scanImpl (empty : List ℕ → NdArray α) (unroll : ℕ) (args : List (NdArray α)) :
    List (NdArray α) :=
  let consts := args.take s.num_consts
  let carry := (args.drop s.num_consts).take s.num_carry
  let xs := args.drop (s.num_consts + s.num_carry)
  let (num_trips, remainder) := tripCounts s.length unroll
  let (xs_, xs_rem) := s.splitXs unroll num_trips remainder xs
  let after := s.blockedLoop empty consts unroll num_trips carry xs_
  if remainder = 0 then after.1 ++ after.2
  else
    let rem := s.inner consts unroll remainder after.1 xs_rem
    if s.reverse then rem.1 ++ List.zipWith NdArray.concat rem.2 after.2
    else rem.1 ++ List.zipWith NdArray.concat after.2 rem.2

/-! ## Iterations -/

variable {s} {sig : ScanSignature} {consts init xs : List (NdArray α)}

/-- The row of `ys` that an iteration computes. -/
def row (s : Scan α) (consts init xs : List (NdArray α)) (j : ℕ) : List (NdArray α) :=
  (s.jaxpr.eval (bodyArgs consts xs (s.carryAfter consts init xs j) (s.position j))).drop s.num_carry

theorem flipIf_lt (reverse : Bool) {n i : ℕ} (h : i < n) : flipIf reverse n i < n := by
  unfold flipIf
  split <;> omega

theorem flipIf_flipIf {reverse : Bool} {n i : ℕ} (h : i < n) :
    flipIf reverse n (flipIf reverse n i) = i := by
  unfold flipIf
  split <;> omega

theorem position_eq_flipIf (s : Scan α) (j : ℕ) : s.position j = flipIf s.reverse s.length j := by
  unfold position flipIf
  split <;> omega

theorem Typed.yAvals (hs : s.Typed sig) : s.yAvals = sig.ys := by
  rw [Scan.yAvals, hs.body_out, hs.num_carry, List.drop_left]

theorem row_position {i : ℕ} (hi : i < s.length) : row s consts init xs (s.position i) =
    (s.jaxpr.eval (s.argsAt consts init xs i)).drop s.num_carry := by
  rw [row, argsAt, s.position_position hi]

theorem Typed.row_shapes (hs : s.Typed sig) (ho : sig.Operands s.length consts init xs) {j : ℕ}
    (hj : j < s.length) : (row s consts init xs j).map NdArray.shape = sig.ys := by
  rw [← s.position_position hj, row_position (s.position_lt hj)]
  exact hs.rows_shapes ho (s.position_lt hj)

/-! ## A block -/

section block

variable {n j₀ : ℕ} {block : List (NdArray α)}
  (hblock : ∀ t < n, slices (flipIf s.reverse n t) block = slices (s.position (j₀ + t)) xs)
include hblock

theorem innerAfter_eq : ∀ {t : ℕ}, t ≤ n →
    s.innerAfter consts n (s.carryAfter consts init xs j₀) block t =
      (s.carryAfter consts init xs (j₀ + t),
        (List.range t).map fun t => row s consts init xs (j₀ + t))
  | 0, _ => rfl
  | t + 1, ht => by
      have ih := innerAfter_eq (Nat.le_of_succ_le ht)
      rw [innerAfter, ih]
      simp only [hblock t ht]
      rw [List.range_succ, List.map_append]
      rfl

/-- A block goes on with the iterations, and stacks their rows by position. -/
theorem inner_spec (hs : s.Typed sig) (ho : sig.Operands s.length consts init xs) {unroll : ℕ}
    (hunroll : unroll ≠ 1) (hn : j₀ + n ≤ s.length) :
    (s.inner consts unroll n (s.carryAfter consts init xs j₀) block).1 =
        s.carryAfter consts init xs (j₀ + n) ∧
      Stacked n sig.ys (s.inner consts unroll n (s.carryAfter consts init xs j₀) block).2 ∧
      ∀ k < n, slices k (s.inner consts unroll n (s.carryAfter consts init xs j₀) block).2 =
        row s consts init xs (j₀ + flipIf s.reverse n k) := by
  have hlast : s.innerAfter consts n (s.carryAfter consts init xs j₀) block n =
      (s.carryAfter consts init xs (j₀ + n),
        (List.range n).map fun t => row s consts init xs (j₀ + t)) :=
    innerAfter_eq hblock (Nat.le_refl n)
  have hys : ∀ k < n, ((if s.reverse = true then
      ((List.range n).map fun t => row s consts init xs (j₀ + t)).reverse
      else (List.range n).map fun t => row s consts init xs (j₀ + t)).getD k []) =
        row s consts init xs (j₀ + flipIf s.reverse n k) := by
    intro k hk
    unfold flipIf
    split
    · rw [List.getD_eq_getElem?_getD, List.getElem?_reverse (by simpa using hk)]
      have hlt : n - k - 1 < n := by omega
      rw [List.length_map, List.length_range, show n - 1 - k = n - k - 1 by omega,
        List.getElem?_map, List.getElem?_range hlt]
      rfl
    · rw [List.getD_eq_getElem?_getD]
      simp [hk]
  have hlen : (if s.reverse = true then
      ((List.range n).map fun t => row s consts init xs (j₀ + t)).reverse
      else (List.range n).map fun t => row s consts init xs (j₀ + t)).length = n := by
    split <;> simp
  simp only [inner, if_neg hunroll, hlast, hlen, hs.yAvals]
  have hshapes : ∀ k < n, ((if s.reverse = true then
      ((List.range n).map fun t => row s consts init xs (j₀ + t)).reverse
      else (List.range n).map fun t => row s consts init xs (j₀ + t)).getD k []).map
        NdArray.shape = sig.ys := by
    intro k hk
    have hlt := flipIf_lt s.reverse hk
    rw [hys k hk]
    exact hs.row_shapes ho (by omega)
  obtain ⟨hstacked, hslices⟩ := stackRows_spec hshapes
  exact ⟨trivial, hstacked, fun k hk => (hslices k hk).trans (hys k hk)⟩

end block

/-! ## The loop -/

/-- The loop runs the blocks and writes what each of them stacks at its place. -/
theorem tripsAfter_spec {unroll num_trips : ℕ} {xss carry yss : List (NdArray α)}
    {avals : List (List ℕ)} (carries upds : ℕ → List (NdArray α)) (hcarry : carries 0 = carry)
    (hyss : Stacked num_trips avals yss)
    (htrip : ∀ i_ < num_trips, s.inner consts unroll unroll (carries i_)
      (slices (flipIf s.reverse num_trips i_) xss) = (carries (i_ + 1), upds i_) ∧
        (upds i_).map NdArray.shape = avals) : ∀ {t : ℕ}, t ≤ num_trips →
      (s.tripsAfter consts unroll num_trips xss carry yss t).1 = carries t ∧
        Stacked num_trips avals (s.tripsAfter consts unroll num_trips xss carry yss t).2 ∧
        ∀ i_ < t, slices (flipIf s.reverse num_trips i_)
          (s.tripsAfter consts unroll num_trips xss carry yss t).2 = upds i_
  | 0, _ => ⟨hcarry.symm, hyss, fun i_ hi => absurd hi (Nat.not_lt_zero _)⟩
  | t + 1, ht => by
      obtain ⟨hbefore, hstacked, hslices⟩ :=
        tripsAfter_spec carries upds hcarry hyss htrip (Nat.le_of_succ_le ht)
      obtain ⟨hinner, hshapes⟩ := htrip t ht
      obtain ⟨hstacked', hslices'⟩ :=
        hstacked.updateIndex (flipIf s.reverse num_trips t) hshapes
      simp only [tripsAfter, hbefore, hinner]
      refine ⟨trivial, hstacked', fun i_ hi => ?_⟩
      rw [hslices' _ (flipIf_lt _ (by omega))]
      rcases Nat.lt_succ_iff_lt_or_eq.mp hi with hlt | rfl
      · -- the other trips have other places
        have hne : flipIf s.reverse num_trips i_ ≠ flipIf s.reverse num_trips t := by
          intro heq
          have := congrArg (flipIf s.reverse num_trips) heq
          rw [flipIf_flipIf (by omega), flipIf_flipIf ht] at this
          omega
        rw [if_neg hne, hslices i_ hlt]
      · rw [if_pos rfl]

/-- Where the positions of the loop begin. -/
def offset (s : Scan α) (remainder : ℕ) : ℕ := if s.reverse then remainder else 0

theorem stacked_empty {empty : List ℕ → NdArray α} (hempty : ∀ shape, (empty shape).shape = shape)
    (n : ℕ) (avals : List (List ℕ)) : Stacked n avals (avals.map fun aval => empty (n :: aval)) := by
  rw [Stacked, List.map_map, stackedAvals]
  exact List.map_congr_left fun aval _ => hempty _

/-- What the loop computes, at its positions. -/
theorem blockedLoop_spec {empty : List ℕ → NdArray α} (hempty : ∀ shape, (empty shape).shape = shape)
    (hs : s.Typed sig) (ho : sig.Operands s.length consts init xs) {unroll num_trips remainder : ℕ}
    (hlength : s.length = num_trips * unroll + remainder) {xs_ : List (NdArray α)}
    (hxs : Stacked (num_trips * unroll) sig.xs xs_)
    (hslices : ∀ p < num_trips * unroll, slices p xs_ = slices (s.offset remainder + p) xs)
    (hone : unroll = 1 → remainder = 0) :
    (s.blockedLoop empty consts unroll num_trips init xs_).1 =
        s.carryAfter consts init xs (num_trips * unroll) ∧
      Stacked (num_trips * unroll) sig.ys (s.blockedLoop empty consts unroll num_trips init xs_).2 ∧
      ∀ p < num_trips * unroll,
        slices p (s.blockedLoop empty consts unroll num_trips init xs_).2 =
          row s consts init xs (s.position (s.offset remainder + p)) := by
  unfold blockedLoop
  by_cases hunroll : unroll = 1
  · -- one step a trip
    subst hunroll
    obtain rfl := hone rfl
    obtain rfl : s.length = num_trips := by omega
    have hoff : s.offset 0 = 0 := by
      unfold offset
      split <;> rfl
    have htrip : ∀ i_ < s.length, s.inner consts 1 1 (s.carryAfter consts init xs i_)
        (slices (flipIf s.reverse s.length i_) xs_) =
          (s.carryAfter consts init xs (i_ + 1), row s consts init xs i_) ∧
            (row s consts init xs i_).map NdArray.shape = sig.ys := by
      intro i_ hi
      have hlt := flipIf_lt s.reverse hi
      refine ⟨?_, hs.row_shapes ho hi⟩
      rw [hslices _ (by omega), hoff, Nat.zero_add, ← s.position_eq_flipIf]
      rfl
    rw [if_pos rfl, hs.yAvals, Nat.mul_one]
    have hinit : s.carryAfter consts init xs 0 = init := rfl
    obtain ⟨hcarry, hstacked, hrows⟩ := tripsAfter_spec _ _ hinit
      (stacked_empty hempty s.length sig.ys) htrip (Nat.le_refl _)
    refine ⟨hcarry, hstacked, fun p hp => ?_⟩
    rw [hoff, Nat.zero_add, s.position_eq_flipIf, ← hrows _ (flipIf_lt _ hp), flipIf_flipIf hp]
  rw [if_neg hunroll]
  by_cases htrips : num_trips = 0
  · subst htrips
    rw [if_pos rfl, Nat.zero_mul, hs.yAvals]
    exact ⟨rfl, stacked_empty hempty 0 sig.ys, fun p hp => absurd hp (Nat.not_lt_zero _)⟩
  rw [if_neg htrips, hs.yAvals]
  obtain ⟨hxss, hblocks⟩ := hxs.blocks
  -- the place of a trip's step in its block is the position of its iteration
  have hplace : ∀ i_ < num_trips, ∀ t < unroll,
      s.offset remainder + (flipIf s.reverse num_trips i_ * unroll + flipIf s.reverse unroll t) =
        s.position (i_ * unroll + t) ∧ i_ * unroll + t < num_trips * unroll := by
    intro i_ hi t ht
    have hlt := NdArray.block_lt hi ht
    refine ⟨?_, hlt⟩
    unfold offset flipIf position
    cases s.reverse with
    | false => simp
    | true =>
        obtain ⟨c, rfl⟩ : ∃ c, num_trips = c + i_ + 1 := ⟨num_trips - i_ - 1, by omega⟩
        have hc : c + i_ + 1 - i_ - 1 = c := by omega
        have hmul : (c + i_ + 1) * unroll = c * unroll + i_ * unroll + unroll := by
          rw [Nat.succ_mul, Nat.add_mul]
        simp only [if_true, hc]
        omega
  have hinner : ∀ i_ < num_trips, ∃ upd,
      s.inner consts unroll unroll (s.carryAfter consts init xs (i_ * unroll))
        (slices (flipIf s.reverse num_trips i_) (xs_.map (NdArray.blocks num_trips unroll))) =
          (s.carryAfter consts init xs ((i_ + 1) * unroll), upd) ∧ Stacked unroll sig.ys upd ∧
            ∀ k < unroll, slices k upd =
              row s consts init xs (i_ * unroll + flipIf s.reverse unroll k) := by
    intro i_ hi
    have hblock : ∀ t < unroll, slices (flipIf s.reverse unroll t)
        (slices (flipIf s.reverse num_trips i_) (xs_.map (NdArray.blocks num_trips unroll))) =
          slices (s.position (i_ * unroll + t)) xs := by
      intro t ht
      have hi' := flipIf_lt s.reverse hi
      have ht' := flipIf_lt s.reverse ht
      rw [hblocks _ hi' _ ht', hslices _ (NdArray.block_lt hi' ht'), (hplace i_ hi t ht).1]
    have hn : i_ * unroll + unroll ≤ s.length := by
      have hle := Nat.mul_le_mul_right unroll hi
      rw [Nat.succ_mul] at hle
      omega
    obtain ⟨hcarry, hstacked, hrows⟩ := inner_spec hblock hs ho hunroll hn
    exact ⟨_, Prod.ext (by rw [hcarry, Nat.succ_mul]) rfl, hstacked, hrows⟩
  choose! upds hupds using hinner
  have hinit : s.carryAfter consts init xs (0 * unroll) = init := by
    rw [Nat.zero_mul]
    rfl
  have hyss : Stacked num_trips (stackedAvals unroll sig.ys)
      (sig.ys.map fun aval => empty (num_trips :: unroll :: aval)) := by
    rw [Stacked, stackedAvals, stackedAvals, List.map_map, List.map_map]
    exact List.map_congr_left fun aval _ => hempty _
  obtain ⟨hcarry, hstacked, hrows⟩ := tripsAfter_spec
    (fun i_ => s.carryAfter consts init xs (i_ * unroll)) upds hinit hyss
    (fun i_ hi => ⟨(hupds i_ hi).1, (hupds i_ hi).2.1⟩) (Nat.le_refl num_trips)
  obtain ⟨hflat, hslices'⟩ := hstacked.unblocks
  refine ⟨hcarry, hflat, fun p hp => ?_⟩
  have hpos : 0 < unroll := by
    rcases Nat.eq_zero_or_pos unroll with h | h
    · rw [h, Nat.mul_zero] at hp
      omega
    · exact h
  have hb : p / unroll < num_trips := (Nat.div_lt_iff_lt_mul hpos).mpr hp
  have hk : p % unroll < unroll := Nat.mod_lt p hpos
  have hb' := flipIf_lt s.reverse hb
  have hk' := flipIf_lt s.reverse hk
  have hp' : s.offset remainder + p = s.position (flipIf s.reverse num_trips (p / unroll) * unroll +
      flipIf s.reverse unroll (p % unroll)) := by
    rw [← (hplace _ hb' _ hk').1, flipIf_flipIf hb, flipIf_flipIf hk, Nat.div_add_mod']
  have hrow := hrows _ hb'
  rw [flipIf_flipIf hb] at hrow
  refine (hslices' p hp).trans ?_
  rw [hrow, (hupds _ hb').2.2 _ hk, hp', s.position_position]
  have := (hplace _ hb' _ hk').2
  omega

/-! ## The result -/

theorem tripCounts_spec (length unroll : ℕ) :
    length = (tripCounts length unroll).1 * unroll + (tripCounts length unroll).2 ∧
      (unroll = 1 → (tripCounts length unroll).2 = 0) := by
  unfold tripCounts
  by_cases hzero : unroll = 0
  · subst hzero
    simp
  have hdiv := Nat.div_add_mod' length unroll
  simp only [if_neg hzero]
  split
  · rename_i h
    exact ⟨by simp, fun hone => absurd hone h.1⟩
  · refine ⟨hdiv.symm, fun hone => ?_⟩
    subst hone
    exact Nat.mod_one _

/-- The parts of `xs` that the loop and the steps after it are given. -/
theorem splitXs_spec {unroll num_trips remainder : ℕ}
    (hlength : s.length = num_trips * unroll + remainder) (hone : unroll = 1 → remainder = 0)
    (hxs : Stacked s.length sig.xs xs) :
    Stacked (num_trips * unroll) sig.xs (s.splitXs unroll num_trips remainder xs).1 ∧
      (∀ p < num_trips * unroll, slices p (s.splitXs unroll num_trips remainder xs).1 =
        slices (s.offset remainder + p) xs) ∧
      ∀ t < remainder, slices (flipIf s.reverse remainder t)
        (s.splitXs unroll num_trips remainder xs).2 =
          slices (s.position (num_trips * unroll + t)) xs := by
  by_cases hrem : remainder = 0
  · subst hrem
    have hoff : s.offset 0 = 0 := by
      unfold offset
      split <;> rfl
    have hnot : ¬ (unroll ≠ 1 ∧ (0 : ℕ) ≠ 0) := fun h => h.2 rfl
    rw [splitXs, if_neg hnot, hoff]
    refine ⟨?_, fun p _ => by rw [Nat.zero_add], fun t ht => absurd ht (Nat.not_lt_zero _)⟩
    rwa [hlength] at hxs
  have hcond : unroll ≠ 1 ∧ remainder ≠ 0 := ⟨fun h => hrem (hone h), hrem⟩
  have hhead : ∀ start, (xs.map fun x => x.sliceInDim start (x.shape.headD 0)) =
      xs.map fun x => x.sliceInDim start s.length := by
    intro start
    refine List.map_congr_left fun x hx => ?_
    have hmem : x.shape ∈ stackedAvals s.length sig.xs := hxs ▸ List.mem_map_of_mem hx
    obtain ⟨aval, _, haval⟩ := List.mem_map.mp hmem
    rw [← haval, List.headD_cons]
  rw [splitXs, if_pos hcond]
  cases hrev : s.reverse with
  | true =>
      have hoff : s.offset remainder = remainder := by rw [offset, hrev, if_pos rfl]
      obtain ⟨hmain, hmain'⟩ := hxs.sliceInDim remainder (Nat.le_refl s.length)
      obtain ⟨_, hlast⟩ := hxs.sliceInDim 0 (by omega : remainder ≤ s.length)
      have hsize : s.length - remainder = num_trips * unroll := by omega
      rw [hsize] at hmain hmain'
      simp only [if_true, hhead, hoff]
      refine ⟨hmain, hmain', fun t ht => ?_⟩
      have ht' := flipIf_lt true ht
      rw [hlast _ (by omega), Nat.zero_add, position, if_pos hrev]
      congr 1
      unfold flipIf
      simp only [if_true]
      omega
  | false =>
      have hoff : s.offset remainder = 0 := by rw [offset, hrev]; rfl
      obtain ⟨hmain, hmain'⟩ := hxs.sliceInDim 0 (by omega : num_trips * unroll ≤ s.length)
      obtain ⟨_, hlast⟩ := hxs.sliceInDim (num_trips * unroll) (Nat.le_refl s.length)
      rw [Nat.sub_zero] at hmain hmain'
      simp only [Bool.false_eq_true, if_false, hhead, hoff]
      refine ⟨hmain, hmain', fun t ht => ?_⟩
      have hpos : s.position (num_trips * unroll + t) = num_trips * unroll + t := by
        rw [position, hrev]
        rfl
      rw [flipIf, if_neg (by simp), hlast _ (by omega), hpos]

/-- The blocked loop computes the scan, whatever `unroll` is. -/
theorem scanImpl_eq_eval {empty : List ℕ → NdArray α} (hempty : ∀ shape, (empty shape).shape = shape)
    (hs : s.Typed sig) (unroll : ℕ) {args : List (NdArray α)}
    (hargs : args.map NdArray.shape = sig.consts ++ sig.carry ++ stackedAvals s.length sig.xs) :
    s.scanImpl empty unroll args = s.eval args := by
  obtain ⟨consts, init, xs, rfl, ho⟩ := Typed.exists_operands hargs
  have hc : consts.length = s.num_consts := by
    rw [hs.num_consts, ← ho.consts, List.length_map]
  have hi : init.length = s.num_carry := by
    rw [hs.num_carry, ← ho.init, List.length_map]
  have htake : (consts ++ init ++ xs).take s.num_consts = consts := by
    rw [← hc, List.append_assoc, List.take_left]
  have htake' : ((consts ++ init ++ xs).drop s.num_consts).take s.num_carry = init := by
    rw [← hc, List.append_assoc, List.drop_left, ← hi, List.take_left]
  have hdrop : (consts ++ init ++ xs).drop (s.num_consts + s.num_carry) = xs := by
    rw [← hc, ← hi, ← List.length_append, List.drop_left]
  obtain ⟨hlength, hone⟩ := tripCounts_spec s.length unroll
  rw [eval_append hc hi]
  unfold scanImpl
  simp only [htake, htake', hdrop]
  generalize htrips : (tripCounts s.length unroll).1 = num_trips at *
  generalize hrem : (tripCounts s.length unroll).2 = remainder at *
  obtain ⟨hxs, hslices, hlast⟩ := splitXs_spec hlength hone ho.xs
  obtain ⟨hcarry, hys, hrows⟩ := blockedLoop_spec hempty hs ho hlength hxs hslices hone
  -- what the scan stacks
  have hshapes : ∀ i < s.length, ((s.jaxpr.eval (s.argsAt consts init xs i)).drop
      s.num_carry).map NdArray.shape = sig.ys := fun i hi => hs.rows_shapes ho hi
  obtain ⟨hstacked, hscan⟩ := stackRows_spec hshapes
  have hrun : s.run consts init xs = s.carryAfter consts init xs s.length ++
      stackRows s.length sig.ys fun i =>
        (s.jaxpr.eval (s.argsAt consts init xs i)).drop s.num_carry := by
    rw [run, ← hs.yAvals]
    rfl
  rw [hrun]
  by_cases hzero : remainder = 0
  · subst hzero
    have hoff : s.offset 0 = 0 := by
      unfold offset
      split <;> rfl
    have hsize : num_trips * unroll = s.length := by omega
    rw [hsize] at hys hrows hcarry
    rw [if_pos rfl, hcarry]
    congr 1
    refine hys.ext hstacked fun i hi => ?_
    rw [hrows i hi, hoff, Nat.zero_add, hscan i hi, row_position hi]
  · rw [if_neg hzero]
    obtain ⟨hcarry', hys', hrows'⟩ := inner_spec hlast hs ho
      (fun h => hzero (hone h)) (by omega)
    rw [← hcarry] at hcarry' hys' hrows'
    cases hrev : s.reverse with
    | true =>
        have hoff : s.offset remainder = remainder := by rw [offset, hrev, if_pos rfl]
        obtain ⟨hcat, hcat'⟩ := hys'.concat hys
        have hsize : remainder + num_trips * unroll = s.length := by omega
        rw [hsize] at hcat hcat'
        simp only [if_true]
        rw [hcarry', ← hlength]
        congr 1
        refine hcat.ext hstacked fun i hi => ?_
        rw [hcat' i hi, hscan i hi, ← row_position hi]
        split
        · rename_i hlt
          rw [hrows' i hlt, position, if_pos hrev, flipIf, hrev, if_pos rfl]
          congr 1
          omega
        · rw [hrows _ (by omega), hoff]
          congr 2
          omega
    | false =>
        have hoff : s.offset remainder = 0 := by rw [offset, hrev]; rfl
        have hpos : ∀ i, s.position i = i := by
          intro i
          rw [position, hrev]
          rfl
        obtain ⟨hcat, hcat'⟩ := hys.concat hys'
        rw [← hlength] at hcat hcat'
        simp only [Bool.false_eq_true, if_false]
        rw [hcarry', ← hlength]
        congr 1
        refine hcat.ext hstacked fun i hi => ?_
        rw [hcat' i hi, hscan i hi, ← row_position hi]
        split
        · rw [hrows i ‹_›, hoff, Nat.zero_add]
        · rw [hrows' _ (by omega), flipIf, hrev, if_neg (by simp), hpos]
          congr 1
          omega

/-- `lambda c, x: (c + x, c)`, from the back. -/
def runningSum : Scan ℕ where
  num_consts := 0
  num_carry := 1
  length := 3
  reverse := true
  jaxpr :=
    { in_avals := [[], []]
      out_avals := [[], []]
      eval := fun args =>
        [.fill [] ((((args.getD 0 default).get? []).getD 0) + (((args.getD 1 default).get? []).getD 0)),
          .fill [] (((args.getD 0 default).get? []).getD 0)]
      typed := fun _ _ => rfl }

/-- In blocks of two. -/
theorem runningSum_unrolled :
    runningSum.scanImpl (NdArray.fill · 7) 2 [.fill [] 1, .fill [3] 1] =
      runningSum.eval [.fill [] 1, .fill [3] 1] :=
  @scanImpl_eq_eval _ runningSum ⟨[], [[]], [[]], [[]]⟩ (NdArray.fill · 7) (fun _ => rfl)
    ⟨rfl, rfl, rfl, rfl⟩ 2 [.fill [] 1, .fill [3] 1] rfl

end Scan

end JaxDas
