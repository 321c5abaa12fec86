import JaxDas.ReentrantHash.Invariant

/-!
# What a probe finds

`FrameOk` is the invariant of the loops of `FindInternal`: no group passed so far shows an
empty byte, and no slot compared so far is equal to the key. Where the probe ends it has
passed the group that shows the key, if the key is there, so the key is not there; and the
first free byte it saw is that of a slot which a later probe for the key gets to.
-/

namespace JaxDas.ReentrantHash

variable {Key : Type} {W : ℕ} {hash : Key → ℕ} {eqv : Key → Key → Bool} {T : Table Key}

/-- The functor agrees with the hash. -/
def Query.Consistent (hash : Key → ℕ) (q : Query Key) : Prop :=
  ∀ k, q.eq k = true → hash k = q.hash

/-! ## Groups -/

theorem mem_groupMatch {curr b o : ℕ} :
    o ∈ T.groupMatch W curr b ↔ o < W ∧ T.ctrl (curr + o) = .full b := by
  rw [Table.groupMatch, List.mem_filter, List.mem_range, decide_eq_true_iff]

theorem length_groupMatch_le (curr b : ℕ) : (T.groupMatch W curr b).length ≤ W := by
  have h := List.length_filter_le (fun i => decide (T.ctrl (curr + i) = .full b)) (List.range W)
  rwa [List.length_range] at h

theorem groupEmpty_iff {curr : ℕ} :
    T.groupEmpty W curr = true ↔ ∃ o < W, T.ctrl (curr + o) = .empty := by
  simp only [Table.groupEmpty, List.any_eq_true, List.mem_range, decide_eq_true_iff]

theorem groupEmptyOrDeleted_none {curr : ℕ} (h : T.groupEmptyOrDeleted W curr = none) :
    ∀ o < W, (T.ctrl (curr + o)).isEmptyOrDeleted = false := by
  intro o ho
  have := List.find?_eq_none.mp h o (List.mem_range.mpr ho)
  exact Bool.eq_false_iff.mpr this

/-- `find?` on a range gives the first. -/
theorem groupEmptyOrDeleted_some {curr o : ℕ} (h : T.groupEmptyOrDeleted W curr = some o) :
    o < W ∧ (T.ctrl (curr + o)).isEmptyOrDeleted = true ∧
      ∀ o' < o, (T.ctrl (curr + o')).isEmptyOrDeleted = false := by
  rw [Table.groupEmptyOrDeleted, List.find?_range_eq_some] at h
  exact ⟨List.mem_range.mp h.2.1, h.1, fun o' ho' => by simpa using h.2.2 o' ho'⟩

/-! ## Free slots -/

/-- The first free byte of the first `n` groups, as the slot the code takes it for. -/
def TargetOk (W : ℕ) (T : Table Key) (hash n : ℕ) : Option ℕ → Prop
  | none => ∀ m < n, T.groupEmptyOrDeleted W (probeAt W T.capacity hash m) = none
  | some idx => ∃ m < n,
      (∀ m' < m, T.groupEmptyOrDeleted W (probeAt W T.capacity hash m') = none) ∧
      ∃ o, T.groupEmptyOrDeleted W (probeAt W T.capacity hash m) = some o ∧
        idx = (probeAt W T.capacity hash m + o) % T.capacity

/-- A slot that may take an element with this hash. -/
structure Free (W : ℕ) (T : Table Key) (hash idx : ℕ) : Prop where
  lt : idx < T.capacity
  free : (T.ctrl idx).isEmptyOrDeleted = true
  reach : Reaches W T hash idx

theorem isEmptyOrDeleted_empty : Ctrl.empty.isEmptyOrDeleted = true := rfl

/-- The first free byte is that of a free slot. Behind the mirrored bytes this is so
because all slots but slot 0 are seen before. -/
theorem TargetOk.free (h : Shape W hash T) (hc : Counts T) (hpos : 0 < T.capacity)
    (hroom : Room T 0) {x n idx : ℕ} (ht : TargetOk W T x n (some idx)) : Free W T x idx := by
  obtain ⟨m, -, hbefore, o, ho, rfl⟩ := ht
  obtain ⟨hoW, hfree, hfirst⟩ := groupEmptyOrDeleted_some ho
  have hlt := probeAt_lt hpos W x m
  have hmod : (probeAt W T.capacity x m + o) % T.capacity < T.capacity := Nat.mod_lt _ hpos
  have hnone : ∀ m' < m, ∀ o < W, T.ctrl (probeAt W T.capacity x m' + o) ≠ .empty := by
    intro m' hm' o ho he
    have := groupEmptyOrDeleted_none (hbefore m' hm') o ho
    rw [he] at this
    exact nomatch this
  rcases h.shows_or_pad hlt hoW with hshow | ⟨hpad, -⟩
  · refine ⟨hmod, ?_, m, ⟨o, hoW, hshow⟩, hnone⟩
    rcases h.ctrl_of_shows hshow hmod with he | ⟨-, hs, -⟩
    · rw [← he]
      exact hfree
    · rw [hs] at hfree
      exact nomatch hfree
  · -- the group shows every slot before this byte, so only slot 0 can be empty
    obtain ⟨e, he, -, hempty⟩ := h.exists_empty hc ∅ (by simpa using hroom.1)
    obtain ⟨o', ho', hshow⟩ : ∃ o' < o, Shows W T.capacity (probeAt W T.capacity x m + o') e := by
      by_cases hle : probeAt W T.capacity x m ≤ e
      · exact ⟨e - probeAt W T.capacity x m, by omega, .inl (by omega)⟩
      · exact ⟨e + T.capacity - probeAt W T.capacity x m, by omega, .inr ⟨by omega, by omega⟩⟩
    have hseen := hfirst o' ho'
    rcases h.ctrl_of_shows hshow he with heq | ⟨rfl, -, -⟩
    · rw [heq, hempty] at hseen
      exact nomatch hseen
    · -- byte `2 * capacity` is the first one behind the mirrored bytes
      have heq : probeAt W T.capacity x m + o = 2 * T.capacity := by
        by_contra hne
        have hpad' : T.ctrl (probeAt W T.capacity x m +
            (2 * T.capacity - probeAt W T.capacity x m)) = .empty :=
          h.pad _ (by omega) (by omega)
        have := hfirst (2 * T.capacity - probeAt W T.capacity x m) (by omega)
        rw [hpad'] at this
        exact nomatch this
      have hzero : (probeAt W T.capacity x m + o) % T.capacity = 0 := by
        rw [heq, Nat.mul_mod_left]
      rw [hzero]
      refine ⟨hpos, ?_, m, ⟨o', by omega, hshow⟩, hnone⟩
      rw [hempty]
      rfl

/-! ## The loops -/

/-- Where a probe for `q` may be: at its `n`-th group, having found nothing so far. -/
structure FrameOk (W : ℕ) (T : Table Key) (q : Query Key) (n : ℕ) (f : Frame) : Prop where
  curr : f.curr = probeAt W T.capacity q.hash n
  step : f.step = n * W
  before : ∀ m < n, ∀ o < W, T.ctrl (probeAt W T.capacity q.hash m + o) ≠ .empty
  target : TargetOk W T q.hash n f.target
  checked : ∀ m < n, ∀ o ∈ T.groupMatch W (probeAt W T.capacity q.hash m) (h2 q.hash), ∀ k,
    T.slots ((probeAt W T.capacity q.hash m + o) % T.capacity) = some k → q.eq k = false
  candidates : ∃ past, T.groupMatch W f.curr (h2 q.hash) = past ++ f.candidates ∧
    ∀ o ∈ past, ∀ k, T.slots ((f.curr + o) % T.capacity) = some k → q.eq k = false

/-- A comparison of the slot that the candidate `i` of the group stands for. -/
structure CompareAt (W : ℕ) (T : Table Key) (q : Query Key) (n i idx : ℕ) (f : Frame) :
    Prop where
  frame : FrameOk W T q n { f with candidates := i :: f.candidates }
  idx : idx = (f.curr + i) % T.capacity

/-- The end of a probe. -/
structure EndedOk (W : ℕ) (T : Table Key) (q : Query Key) (target : Option ℕ) : Prop where
  absent : ∃ n, (∃ o < W, T.ctrl (probeAt W T.capacity q.hash n + o) = .empty) ∧
    (∀ m ≤ n, ∀ o ∈ T.groupMatch W (probeAt W T.capacity q.hash m) (h2 q.hash), ∀ k,
      T.slots ((probeAt W T.capacity q.hash m + o) % T.capacity) = some k → q.eq k = false)
  target : ∃ idx n, target = some idx ∧ TargetOk W T q.hash n (some idx)

theorem frameOk_frame (T : Table Key) (q : Query Key) : FrameOk W T q 0 (T.frame W q.hash) where
  curr := (probeAt_zero W T.capacity q.hash).symm
  step := (Nat.zero_mul W).symm
  before := fun m hm => absurd hm (Nat.not_lt_zero m)
  target := fun m hm => absurd hm (Nat.not_lt_zero m)
  checked := fun m hm => absurd hm (Nat.not_lt_zero m)
  candidates := ⟨[], rfl, fun _ ho => absurd ho List.not_mem_nil⟩

/-- The candidate was not equal to the key. -/
theorem CompareAt.frameOk {q : Query Key} {n i idx : ℕ} {f : Frame}
    (h : CompareAt W T q n i idx f) {k : Key} (hk : T.slots idx = some k) (hne : q.eq k = false) :
    FrameOk W T q n f := by
  obtain ⟨⟨hcurr, hstep, hbefore, htarget, hchecked, past, hpast, hdone⟩, rfl⟩ := h
  refine ⟨hcurr, hstep, hbefore, htarget, hchecked, past ++ [i], ?_, ?_⟩
  · rw [List.append_assoc]
    exact hpast
  · intro o ho k' hk'
    rcases List.mem_append.mp ho with ho | ho
    · exact hdone o ho k' hk'
    · rw [List.mem_singleton.mp ho, hk] at hk'
      exact Option.some.inj hk' ▸ hne

/-- The target after the group was looked at. -/
theorem FrameOk.target_next {q : Query Key} {n : ℕ} {f : Frame} (h : FrameOk W T q n f) :
    TargetOk W T q.hash (n + 1) (match f.target with
      | some t => some t
      | none => (T.groupEmptyOrDeleted W f.curr).map fun i => (f.curr + i) % T.capacity) := by
  have ht := h.target
  cases hf : f.target with
  | some t =>
      rw [hf] at ht
      obtain ⟨m, hm, hrest⟩ := ht
      exact ⟨m, by omega, hrest⟩
  | none =>
      rw [hf] at ht
      rw [h.curr]
      cases hg : T.groupEmptyOrDeleted W (probeAt W T.capacity q.hash n) with
      | none =>
          intro m hm
          rcases Nat.lt_succ_iff_lt_or_eq.mp hm with hm | rfl
          · exact ht m hm
          · exact hg
      | some o => exact ⟨n, by omega, ht, o, hg, rfl⟩

/-- Once the candidates of a group are done, all groups so far are. -/
theorem FrameOk.checked_next {q : Query Key} {n : ℕ} {f : Frame} (h : FrameOk W T q n f)
    (hdone : f.candidates = []) : ∀ m ≤ n,
    ∀ o ∈ T.groupMatch W (probeAt W T.capacity q.hash m) (h2 q.hash), ∀ k,
      T.slots ((probeAt W T.capacity q.hash m + o) % T.capacity) = some k → q.eq k = false := by
  intro m hm o ho k hk
  rcases Nat.lt_or_eq_of_le hm with hm | rfl
  · exact h.checked m hm o ho k hk
  · obtain ⟨past, hpast, hne⟩ := h.candidates
    rw [hdone, List.append_nil, h.curr] at hpast
    rw [h.curr] at hne
    exact hne o (hpast ▸ ho) k hk

/-- How many more comparisons a probe may make, at most. -/
def rank (W capacity n : ℕ) (candidates : List ℕ) : ℕ :=
  (capacity - n) * (W + 1) + candidates.length

theorem rank_next {capacity n m : ℕ} (h : n < m) (hm : m ≤ capacity) {l l' : List ℕ}
    (hl : l'.length ≤ W) : rank W capacity m l' ≤ rank W capacity n l := by
  obtain ⟨d, rfl⟩ := Nat.exists_eq_add_of_le hm
  have hmul : (m + d - n) * (W + 1) ≥ (d + 1) * (W + 1) := Nat.mul_le_mul_right _ (by omega)
  have heq : m + d - m = d := by omega
  have hd : (d + 1) * (W + 1) = d * (W + 1) + (W + 1) := by ring
  rw [rank, rank, heq]
  omega

/-- What the probe has reached when it pauses. -/
inductive PauseOk (W : ℕ) (T : Table Key) (q : Query Key) (r : ℕ) : Pause → Prop
  | compare {n i idx : ℕ} {f : Frame} (h : CompareAt W T q n i idx f)
      (hr : rank W T.capacity n (i :: f.candidates) ≤ r) : PauseOk W T q r (.compare idx f)
  | ended {target : Option ℕ} (h : EndedOk W T q target) : PauseOk W T q r (.ended target)

theorem PauseOk.mono {q : Query Key} {r r' : ℕ} {p : Pause} (h : PauseOk W T q r p)
    (hr : r ≤ r') : PauseOk W T q r' p := by
  cases h with
  | compare h hle => exact .compare h (Nat.le_trans hle hr)
  | ended h => exact .ended h

/-- A group that shows no empty byte is not the last one. -/
theorem FrameOk.lt_capacity {q : Query Key} {n : ℕ} {f : Frame} (h : FrameOk W T q n f)
    (hopen : Open W T) : n < T.capacity := by
  obtain ⟨N, hN, o, ho, hempty⟩ := hopen q.hash
  by_contra hn
  exact h.before N (by omega) o ho hempty

/-- One round of the loops. -/
theorem visit_ok {q : Query Key} {n : ℕ} {f : Frame} (h : FrameOk W T q n f) (hopen : Open W T) :
    match T.visit W q.hash f with
    | .inl p => PauseOk W T q (rank W T.capacity n f.candidates) p
    | .inr f' => FrameOk W T q (n + 1) f' ∧
        rank W T.capacity (n + 1) f'.candidates ≤ rank W T.capacity n f.candidates := by
  rw [Table.visit]
  cases hcand : f.candidates with
  | cons i rest =>
      refine .compare ⟨?_, rfl⟩ (Nat.le_refl _)
      change FrameOk W T q n { f with candidates := i :: rest }
      rw [← hcand]
      exact h
  | nil =>
      have htarget := h.target_next
      have hchecked := h.checked_next hcand
      by_cases hempty : T.groupEmpty W f.curr = true
      · simp only [hempty, if_true]
        obtain ⟨o, ho, hoe⟩ := groupEmpty_iff.mp hempty
        refine .ended ⟨⟨n, ⟨o, ho, h.curr ▸ hoe⟩, hchecked⟩, ?_⟩
        -- an empty byte is a free one, so there is a target
        cases hf : f.target with
        | some t =>
            rw [hf] at htarget
            exact ⟨t, n + 1, rfl, htarget⟩
        | none =>
            rw [hf] at htarget
            cases hg : T.groupEmptyOrDeleted W f.curr with
            | none =>
                have := groupEmptyOrDeleted_none hg o ho
                rw [hoe] at this
                exact nomatch this
            | some o' =>
                simp only [hg] at htarget
                exact ⟨_, n + 1, rfl, htarget⟩
      · simp only [hempty, Bool.false_eq_true, if_false]
        have hcurr : (f.curr + (f.step + W)) % T.capacity = probeAt W T.capacity q.hash (n + 1) := by
          rw [h.curr, h.step]
          exact probeAt_succ W T.capacity q.hash n
        have hnone : ∀ o < W, T.ctrl (probeAt W T.capacity q.hash n + o) ≠ .empty := by
          intro o ho hoe
          exact hempty (groupEmpty_iff.mpr ⟨o, ho, h.curr ▸ hoe⟩)
        refine ⟨⟨hcurr, ?_, ?_, htarget, ?_, [], rfl, fun _ ho => absurd ho List.not_mem_nil⟩, ?_⟩
        · change f.step + W = (n + 1) * W
          rw [h.step, Nat.add_mul, Nat.one_mul]
        · intro m hm
          rcases Nat.lt_succ_iff_lt_or_eq.mp hm with hm | rfl
          · exact h.before m hm
          · exact hnone
        · exact fun m hm => hchecked m (Nat.lt_succ_iff.mp hm)
        · exact rank_next (Nat.lt_succ_self n) (h.lt_capacity hopen) (length_groupMatch_le _ _)

theorem scan_ok (hopen : Open W T) {q : Query Key} : ∀ {fuel n : ℕ} {f : Frame} {p : Pause},
    FrameOk W T q n f → T.scan W q.hash fuel f = some p →
    PauseOk W T q (rank W T.capacity n f.candidates) p
  | 0, _, _, _, _, hs => nomatch hs
  | fuel + 1, n, f, p, h, hs => by
      rw [Table.scan] at hs
      have hv := visit_ok h hopen
      cases hvisit : T.visit W q.hash f with
      | inl p' =>
          rw [hvisit] at hs hv
          obtain rfl := Option.some.inj hs
          exact hv
      | inr f' =>
          rw [hvisit] at hs hv
          exact (scan_ok hopen hv.1 hs).mono hv.2

/-- The loops end. -/
theorem scan_ends (hopen : Open W T) {q : Query Key} : ∀ {fuel n : ℕ} {f : Frame},
    FrameOk W T q n f → T.capacity ≤ n + fuel → ∃ p, T.scan W q.hash fuel f = some p
  | 0, n, f, h, hfuel => by
      have := h.lt_capacity hopen
      omega
  | fuel + 1, n, f, h, hfuel => by
      rw [Table.scan]
      have hv := visit_ok h hopen
      cases hvisit : T.visit W q.hash f with
      | inl p => exact ⟨p, rfl⟩
      | inr f' =>
          rw [hvisit] at hv
          exact scan_ends hopen hv.1 (by omega)

/-! ## What has been found -/

/-- The slot that is compared has an element. -/
theorem CompareAt.slot (h : Shape W hash T) (hpos : 0 < T.capacity) {q : Query Key}
    {n i idx : ℕ} {f : Frame} (hc : CompareAt W T q n i idx f) : ∃ k, T.slots idx = some k := by
  obtain ⟨hf, rfl⟩ := hc
  obtain ⟨past, hpast, -⟩ := hf.candidates
  have hi : i ∈ T.groupMatch W f.curr (h2 q.hash) := by
    rw [hpast]
    exact List.mem_append_right _ List.mem_cons_self
  obtain ⟨hiW, hfull⟩ := mem_groupMatch.mp hi
  have hlt : f.curr < T.capacity := by
    have hcurr : f.curr = probeAt W T.capacity q.hash n := hf.curr
    rw [hcurr]
    exact probeAt_lt hpos W q.hash n
  obtain ⟨k, hk, -⟩ := h.slot_of_full hpos hlt hiW hfull
  exact ⟨k, hk⟩

/-- Where the probe ends, no element is equal to the key. -/
theorem EndedOk.not_eq (hwf : WF W hash eqv T) {q : Query Key} (hq : q.Consistent hash)
    {target : Option ℕ} (h : EndedOk W T q target) {i : ℕ} {k : Key} (hk : T.slots i = some k) :
    q.eq k = false := by
  by_contra heq
  rw [Bool.not_eq_false] at heq
  have hhash := hq k heq
  obtain ⟨n, ⟨o, ho, hempty⟩, hchecked⟩ := h.absent
  obtain ⟨m, ⟨o', ho', hshow⟩, hbefore⟩ := hwf.reach i k hk
  rw [hhash] at hshow hbefore
  have hm : m ≤ n := by
    by_contra hmn
    exact hbefore n (by omega) o ho hempty
  have hi := hwf.shape.lt_capacity hk
  have hfull := hwf.shape.full_of_shows hk hshow
  rw [hhash] at hfull
  have := hchecked m hm o' (mem_groupMatch.mpr ⟨ho', hfull⟩) k (by rw [hshow.mod hi]; exact hk)
  rw [this] at heq
  exact nomatch heq

/-- Where the probe ends, it has a free slot for the key. -/
theorem EndedOk.free (hwf : WF W hash eqv T) (hpos : 0 < T.capacity) {q : Query Key}
    {target : Option ℕ} (h : EndedOk W T q target) :
    ∃ idx, target = some idx ∧ Free W T q.hash idx := by
  obtain ⟨idx, n, rfl, ht⟩ := h.target
  exact ⟨idx, rfl, ht.free hwf.shape hwf.counts hpos (hwf.room hpos)⟩

end JaxDas.ReentrantHash
