import JaxDas.ReentrantHash.Rehash

/-!
# What an operation does between two comparisons

Between two calls of the equality functor an operation has the table for itself. `Segment`
says what such a part of it does: it ends in a comparison, with what has been found so far
still true of the table, or it returns, with a result that is right for the table.
-/

namespace JaxDas.ReentrantHash

variable {Key : Type} {W : ℕ} {hash : Key → ℕ} {eqv : Key → Key → Bool} {T T' : Table Key}

/-- What callers promise: the functor agrees with the hash, and the element that
`try_emplace` builds is one for its key. -/
def Op.Fits (hash : Key → ℕ) (eqv : Key → Key → Bool) : Op Key → Prop
  | .find q => q.Consistent hash
  | .tryEmplace q made =>
      q.Consistent hash ∧ hash made = q.hash ∧ ∀ k, q.eq k = eqv k made

theorem Op.Fits.consistent {op : Op Key} (h : op.Fits hash eqv) : op.query.Consistent hash := by
  cases op with
  | find q => exact h
  | tryEmplace q made => exact h.1

theorem insert_fits (hcons : ∀ a b, eqv a b = true → hash a = hash b) (key : Key) :
    (Op.insert hash eqv key).Fits hash eqv :=
  ⟨fun k hk => hcons k key hk, rfl, fun _ => rfl⟩

/-! ## Results -/

/-- The elements are as they were; a `find` does not touch the table at all. -/
def Op.Kept (T T' : Table Key) : Op Key → Prop
  | .find _ => T' = T
  | .tryEmplace _ _ => (∀ k, T'.Has k ↔ T.Has k) ∧ T'.size = T.size

/-- The result is right: `T` is the table when the operation began, `T'` when it returns. -/
inductive Done (T T' : Table Key) : Op Key → Result → Prop
  | found {op : Op Key} {i : ℕ} (hkept : op.Kept T T') (k : Key) (hk : T'.slots i = some k)
      (heq : op.query.eq k = true) : Done T T' op (.found i)
  | absent {q : Query Key} (hkept : T' = T) (hne : ∀ k, T.Has k → q.eq k = false) :
      Done T T' (.find q) .absent
  | inserted {q : Query Key} {made : Key} {i : ℕ} (hne : ∀ k, T.Has k → q.eq k = false)
      (hslot : T'.slots i = some made) (hhas : ∀ k, T'.Has k ↔ T.Has k ∨ k = made)
      (hsize : T'.size = T.size + 1) : Done T T' (.tryEmplace q made) (.inserted i)

theorem Op.Kept.refl (op : Op Key) (T : Table Key) : op.Kept T T := by
  cases op with
  | find q => rfl
  | tryEmplace q made => exact ⟨fun _ => Iff.rfl, rfl⟩

theorem Op.Kept.trans {op : Op Key} {T'' : Table Key} (h : op.Kept T T') (h' : op.Kept T' T'') :
    op.Kept T T'' := by
  cases op with
  | find q =>
      have h : T' = T := h
      have h' : T'' = T' := h'
      exact h'.trans h
  | tryEmplace q made => exact ⟨fun k => (h'.1 k).trans (h.1 k), h'.2.trans h.2⟩

theorem Op.Kept.done {op : Op Key} {T'' : Table Key} {r : Result} (h : op.Kept T T')
    (hd : Done T' T'' op r) : Done T T'' op r := by
  cases hd with
  | found hkept k hk heq => exact .found (h.trans hkept) k hk heq
  | absent hkept hne =>
      have h : T' = T := h
      exact .absent (hkept.trans h) (h ▸ hne)
  | inserted hne hslot hhas hsize =>
      refine .inserted (fun k hk => hne k ((h.1 k).mpr hk)) hslot (fun k => ?_) ?_
      · rw [hhas k, h.1 k]
      · rw [hsize, h.2]

/-- The operation waits for a comparison, and at most `r` more may follow. -/
structure Waiting (W : ℕ) (T : Table Key) (op : Op Key) (r : ℕ) (c : Compare) : Prop where
  pos : 0 < T.capacity
  compare : ∃ n i, CompareAt W T op.query n i c.idx c.frame ∧
    rank W T.capacity n (i :: c.frame.candidates) ≤ r
  room : ∀ q made, op = .tryEmplace q made → Room T 1

/-- How a part of an operation, begun on the table `T`, leaves the table. -/
structure Segment (W : ℕ) (hash : Key → ℕ) (eqv : Key → Key → Bool) (T : Table Key)
    (op : Op Key) (r : ℕ) (T' : Table Key) (out : Outcome) : Prop where
  wf : WF W hash eqv T'
  seen : Seen W T'
  mirrored : Mirrored W T → Mirrored W T'
  /-- A change is told by the version. -/
  version : T' = T ∨ T.version < T'.version
  waits : ∀ c, out = .compare c → c.version = T'.version ∧ Waiting W T' op r c ∧ op.Kept T T'
  returns : ∀ res, out = .returned res → Done T T' op res

theorem Segment.mono {op : Op Key} {r r' : ℕ} {out : Outcome}
    (h : Segment W hash eqv T op r T' out) (hr : r ≤ r') :
    Segment W hash eqv T op r' T' out := by
  refine ⟨h.wf, h.seen, h.mirrored, h.version, ?_, h.returns⟩
  intro c hc
  obtain ⟨hver, ⟨hpos, ⟨n, i, hcmp, hle⟩, hroom⟩, hkept⟩ := h.waits c hc
  exact ⟨hver, ⟨hpos, ⟨n, i, hcmp, Nat.le_trans hle hr⟩, hroom⟩, hkept⟩

/-! ## The end of a probe -/

section End

variable (hwf : WF W hash eqv T) (hseen : Seen W T) (hpos : 0 < T.capacity)

include hwf

/-- Nothing happened: the table is as it was. -/
theorem segment_same {op : Op Key} {r : ℕ} {out : Outcome} (hseen : Seen W T)
    (hw : ∀ c, out = .compare c → c.version = T.version ∧ Waiting W T op r c)
    (hr : ∀ res, out = .returned res → Done T T op res) : Segment W hash eqv T op r T out :=
  ⟨hwf, hseen, id, .inl rfl, fun c hc => ⟨(hw c hc).1, (hw c hc).2, .refl op T⟩, hr⟩

include hseen hpos

theorem finish_ok (hsymm : ∀ a b, eqv a b = eqv b a) {op : Op Key} (hop : op.Fits hash eqv)
    {r : ℕ} {target : Option ℕ} (he : EndedOk W T op.query target)
    (hroom : ∀ q made, op = .tryEmplace q made → Room T 1) :
    ∃ T' out, op.finish W T target = some (T', out) ∧ Segment W hash eqv T op r T' out := by
  have hne : ∀ k, T.Has k → op.query.eq k = false := fun k ⟨_, hi⟩ =>
    he.not_eq hwf hop.consistent hi
  cases op with
  | find q =>
      refine ⟨T, .returned .absent, rfl, segment_same hwf hseen (fun c hc => nomatch hc) ?_⟩
      intro res hres
      obtain rfl := Outcome.returned.inj hres
      exact .absent rfl hne
  | tryEmplace q made =>
      obtain ⟨-, hhash, heqv⟩ := hop
      obtain ⟨idx, rfl, hfree⟩ := he.free hwf hpos
      have hfree : Free W T (hash made) idx := hhash ▸ hfree
      have hw := wrote_add (W := W) T idx (h2 (hash made)) made
      have hfinish : (Op.tryEmplace q made).finish W T (some idx)
          = some (T.add W idx (h2 (hash made)) made, .returned (.inserted idx)) := by
        rw [hhash]
        rfl
      refine ⟨_, _, hfinish, ⟨?_, ?_, fun hm => hm.wrote hw hfree.lt, .inr (Nat.lt_succ_self _),
        (fun c hc => nomatch hc), ?_⟩⟩
      · refine hwf.stores hfree hw (hroom q made rfl) rfl rfl fun k hk => ?_
        have hk' := hne k hk
        rw [show (Op.tryEmplace q made).query = q from rfl, heqv k] at hk'
        exact ⟨hk', hsymm made k ▸ hk'⟩
      · rcases hseen with hm | h16 | h16
        · exact .inl (hm.wrote hw hfree.lt)
        · exact .inr (.inl (hw.capacity ▸ h16))
        · exact .inr (.inr h16)
      · intro res hres
        obtain rfl := Outcome.returned.inj hres
        refine .inserted hne ?_ (fun k => hw.has_some hwf.shape hfree k) rfl
        rw [hw.slots, if_pos rfl]

/-- A probe, from a frame on. -/
theorem advance_ok (hsymm : ∀ a b, eqv a b = eqv b a) {op : Op Key} (hop : op.Fits hash eqv)
    (hroom : ∀ q made, op = .tryEmplace q made → Room T 1) {n : ℕ} {f : Frame}
    (hf : FrameOk W T op.query n f) {fuel : ℕ} (hfuel : T.capacity ≤ n + fuel) :
    ∃ T' out, op.advance W fuel T T.version f = some (T', out) ∧
      Segment W hash eqv T op (rank W T.capacity n f.candidates) T' out ∧
      ∀ c, out = .compare c → T' = T := by
  have hopen := hwf.open hseen hpos
  obtain ⟨p, hp⟩ := scan_ends hopen hf hfuel
  have hok := scan_ok hopen hf hp
  rw [Op.advance, hp]
  cases hok with
  | compare hc hr =>
      rename_i n' i idx f'
      refine ⟨T, .compare ⟨T.version, idx, f'⟩, rfl,
        segment_same hwf hseen ?_ (fun res hres => nomatch hres), fun _ _ => rfl⟩
      intro c hcmp
      obtain rfl := Outcome.compare.inj hcmp
      exact ⟨rfl, hpos, ⟨n', i, hc, hr⟩, hroom⟩
  | ended he =>
      obtain ⟨T', out, hout, hseg⟩ := finish_ok hwf hseen hpos hsymm hop he hroom
      refine ⟨T', out, hout, hseg, fun c hc => ?_⟩
      -- the end of a probe is no comparison
      subst hc
      cases op with
      | find q => exact nomatch congrArg (Option.map Prod.snd) hout
      | tryEmplace q made =>
          obtain ⟨idx, rfl, -⟩ := he.free hwf hpos
          exact nomatch congrArg (Option.map Prod.snd) hout

theorem probe_ok (hsymm : ∀ a b, eqv a b = eqv b a) {op : Op Key} (hop : op.Fits hash eqv)
    (hroom : ∀ q made, op = .tryEmplace q made → Room T 1) {fuel : ℕ}
    (hfuel : T.capacity ≤ fuel) :
    ∃ T' out, op.probe W fuel T = some (T', out) ∧
      Segment W hash eqv T op (T.capacity * (W + 1) + W) T' out ∧
      ∀ c, out = .compare c → T' = T := by
  obtain ⟨T', out, hout, hseg, hsame⟩ := advance_ok hwf hseen hpos hsymm hop hroom
    (frameOk_frame T op.query) (show T.capacity ≤ 0 + fuel by omega)
  refine ⟨T', out, hout, hseg.mono ?_, hsame⟩
  have := length_groupMatch_le (W := W) (T := T) (h1 op.query.hash % T.capacity)
    (h2 op.query.hash)
  change (T.capacity - 0) * (W + 1) + (T.groupMatch W _ _).length ≤ _
  rw [Nat.sub_zero]
  omega

end End

/-! ## Beginning, and going on -/

/-- The fuel that is enough for everything that is done with a table. -/
def Table.fuelBound (T : Table Key) : ℕ := max T.capacity T.grown

section Begin

variable (hW : W = 8 ∨ W = 16) (hsymm : ∀ a b, eqv a b = eqv b a) (hwf : WF W hash eqv T)
  (hseen : Seen W T)

include hW hsymm hwf hseen

theorem attempt_ok {op : Op Key} (hop : op.Fits hash eqv) {fuel : ℕ}
    (hfuel : T.fuelBound ≤ fuel) : ∃ T' out, op.attempt W hash fuel T = some (T', out) ∧
      Segment W hash eqv T op (T.fuelBound * (W + 1) + W) T' out ∧
      ∀ c, out = .compare c → T'.capacity ≤ T.fuelBound := by
  obtain ⟨hcap, hgrown⟩ := max_le_iff.mp hfuel
  have hle : T.capacity ≤ T.fuelBound := le_max_left _ _
  have hrank : ∀ {x : ℕ}, x ≤ T.fuelBound → x * (W + 1) + W ≤ T.fuelBound * (W + 1) + W :=
    fun hx => Nat.add_le_add_right (Nat.mul_le_mul_right _ hx) W
  cases op with
  | find q =>
      simp only [Op.attempt]
      rcases Nat.eq_zero_or_pos T.capacity with h0 | hpos
      · rw [if_pos h0]
        refine ⟨T, _, rfl, segment_same hwf hseen (fun c hc => nomatch hc) ?_,
          fun c hc => nomatch hc⟩
        intro res hres
        obtain rfl := Outcome.returned.inj hres
        refine .absent rfl fun k ⟨i, hi⟩ => ?_
        rw [hwf.shape.beyond i (by omega)] at hi
        exact nomatch hi
      · rw [if_neg (by omega)]
        obtain ⟨T', out, hout, hseg, hsame⟩ := probe_ok hwf hseen hpos hsymm hop
          (fun q made h => nomatch h) hcap
        exact ⟨T', out, hout, hseg.mono (hrank hle), fun c hc => hsame c hc ▸ hle⟩
  | tryEmplace q made =>
      simp only [Op.attempt]
      by_cases hover : T.overloaded = true
      · rw [if_pos hover]
        obtain ⟨T₁, hT₁⟩ := rehash_ends hW hsymm hwf hgrown
        obtain ⟨hwf₁, hm₁, hcap₁, hpos₁, hroom₁, hver₁, hsize₁, hhas₁⟩ :=
          rehash_ok hW hsymm hwf hT₁
        obtain ⟨T', out, hout, hseg, hsame⟩ := probe_ok hwf₁ (.inl hm₁) hpos₁ hsymm hop
          (fun _ _ _ => hroom₁) (hcap₁ ▸ hgrown)
        have hkept₁ : (Op.tryEmplace q made).Kept T T₁ := ⟨hhas₁, hsize₁⟩
        have hle₁ : T₁.capacity ≤ T.fuelBound := hcap₁ ▸ le_max_right _ _
        have hseg := hseg.mono (hrank hle₁)
        simp only [hT₁]
        refine ⟨T', out, hout, ⟨hseg.wf, hseg.seen, fun _ => hseg.mirrored hm₁, .inr ?_, ?_, ?_⟩,
          fun c hc => hsame c hc ▸ hle₁⟩
        · rcases hseg.version with rfl | hlt
          · exact hver₁
          · exact hver₁.trans hlt
        · intro c hc
          obtain ⟨hver, hwait, hkept⟩ := hseg.waits c hc
          exact ⟨hver, hwait, hkept₁.trans hkept⟩
        · exact fun res hres => hkept₁.done (hseg.returns res hres)
      · rw [if_neg hover]
        rw [Bool.not_eq_true] at hover
        have hpos : 0 < T.capacity := by
          rw [Table.overloaded, Bool.or_eq_false_iff, decide_eq_false_iff_not,
            decide_eq_false_iff_not] at hover
          omega
        have hroom := room_of_not_overloaded (hwf.shape.sizes hpos) hover
        obtain ⟨T', out, hout, hseg, hsame⟩ := probe_ok hwf hseen hpos hsymm hop
          (fun _ _ _ => hroom) hcap
        exact ⟨T', out, hout, hseg.mono (hrank hle), fun c hc => hsame c hc ▸ hle⟩

omit hW in
/-- After a comparison that left the table alone: one less may follow. -/
theorem resume_ok {op : Op Key} (hop : op.Fits hash eqv) {r : ℕ} {c : Compare}
    (hwait : Waiting W T op r c) (hver : c.version = T.version) {fuel : ℕ}
    (hfuel : T.fuelBound ≤ fuel) : ∃ T' out, op.resume W hash fuel T c = some (T', out) ∧
      0 < r ∧ Segment W hash eqv T op (r - 1) T' out ∧ ∀ c, out = .compare c → T' = T := by
  obtain ⟨n, i, hcmp, hr⟩ := hwait.compare
  have hrank : rank W T.capacity n (i :: c.frame.candidates)
      = rank W T.capacity n c.frame.candidates + 1 := by
    rw [rank, rank, List.length_cons, Nat.add_assoc]
  obtain ⟨k, hk⟩ := hcmp.slot hwf.shape hwait.pos
  rw [Op.resume, if_neg (by rw [hver]; exact fun h => h rfl), hk]
  simp only
  by_cases heq : op.query.eq k = true
  · rw [if_pos heq]
    refine ⟨T, _, rfl, by omega, segment_same hwf hseen (fun c hc => Outcome.noConfusion hc) ?_,
      fun c hc => Outcome.noConfusion hc⟩
    intro res hres
    obtain rfl := Outcome.returned.inj hres
    exact .found (.refl op T) k hk heq
  · rw [if_neg heq]
    rw [Bool.not_eq_true] at heq
    have hcap : T.capacity ≤ n + fuel := Nat.le_add_left_of_le (max_le_iff.mp hfuel).1
    obtain ⟨T', out, hout, hseg, hsame⟩ := advance_ok hwf hseen hwait.pos hsymm hop hwait.room
      (hcmp.frameOk hk heq) hcap
    rw [hver]
    exact ⟨T', out, hout, by omega, hseg.mono (by omega), hsame⟩

end Begin

/-- Comparisons that leave the table alone come to an end. -/
theorem drive_ok (hsymm : ∀ a b, eqv a b = eqv b a) {op : Op Key} (hop : op.Fits hash eqv)
    {fuel : ℕ} : ∀ {n r : ℕ} {T T₁ : Table Key} {out : Outcome},
    Segment W hash eqv T op r T₁ out → (∀ c, out = .compare c → T₁.fuelBound ≤ fuel) → r ≤ n →
    ∃ T' res, op.drive W hash fuel n (T₁, out) = some (T', res) ∧ WF W hash eqv T' ∧
      Seen W T' ∧ (Mirrored W T → Mirrored W T') ∧ Done T T' op res
  | n, r, T, T₁, .returned res, hseg, _, _ => by
      refine ⟨T₁, res, ?_, hseg.wf, hseg.seen, hseg.mirrored, hseg.returns res rfl⟩
      cases n <;> rfl
  | 0, r, T, T₁, .compare c, hseg, hfuel, hn => by
      obtain ⟨hver, hwait, -⟩ := hseg.waits c rfl
      obtain ⟨T', out, -, hr, -⟩ :=
        resume_ok hsymm hseg.wf hseg.seen hop hwait hver (hfuel c rfl)
      omega
  | n + 1, r, T, T₁, .compare c, hseg, hfuel, hn => by
      obtain ⟨hver, hwait, hkept⟩ := hseg.waits c rfl
      obtain ⟨T₂, out, hout, hr, hseg', hsame⟩ :=
        resume_ok hsymm hseg.wf hseg.seen hop hwait hver (hfuel c rfl)
      obtain ⟨T', res, hdrive, hwf, hseen, hm, hdone⟩ := drive_ok hsymm hop hseg'
        (fun c' hc' => hsame c' hc' ▸ hfuel c rfl) (show r - 1 ≤ n by omega)
      refine ⟨T', res, ?_, hwf, hseen, hm ∘ hseg.mirrored, hkept.done hdone⟩
      rw [Op.drive, hout]
      exact hdrive

theorem fuelBound_le (T : Table Key) : T.fuelBound ≤ 2 * T.capacity + 8 := by
  have hgrown : T.grown ≤ 2 * T.capacity + 8 := by
    have hnew : T.newCapacity ≤ 2 * T.capacity + 8 := by
      rw [Table.newCapacity]
      split
      · omega
      · split <;> omega
    rw [Table.grown]
    split <;> omega
  exact max_le (by omega) hgrown

/-- The fuel that is enough for an operation on a table. -/
def Table.enough (W : ℕ) (T : Table Key) : ℕ := T.fuelBound * (W + 1) + W + 8

/-- **Every operation ends, with the right result.** -/
theorem run_ok (hW : W = 8 ∨ W = 16) (hsymm : ∀ a b, eqv a b = eqv b a) (hwf : WF W hash eqv T)
    (hseen : Seen W T) {op : Op Key} (hop : op.Fits hash eqv) {fuel : ℕ}
    (hfuel : T.enough W ≤ fuel) : ∃ T' res, op.run W hash fuel T = some (T', res) ∧
      WF W hash eqv T' ∧ Seen W T' ∧ (Mirrored W T → Mirrored W T') ∧ Done T T' op res := by
  have hmul : T.fuelBound * (W + 1) = T.fuelBound * W + T.fuelBound := Nat.mul_succ _ _
  have h2 : T.fuelBound * 2 ≤ T.fuelBound * (W + 1) := Nat.mul_le_mul_left _ (by omega)
  rw [Table.enough] at hfuel
  obtain ⟨T₁, out, hout, hseg, hcap⟩ := attempt_ok hW hsymm hwf hseen hop
    (show T.fuelBound ≤ fuel by omega)
  have hfuel₁ : ∀ c, out = .compare c → T₁.fuelBound ≤ fuel := by
    intro c hc
    have := hcap c hc
    have := fuelBound_le T₁
    omega
  obtain ⟨T', res, hdrive, h⟩ := drive_ok hsymm hop hseg hfuel₁
    (show T.fuelBound * (W + 1) + W ≤ fuel by omega)
  refine ⟨T', res, ?_, h⟩
  rw [Op.run, hout]
  exact hdrive

end JaxDas.ReentrantHash
