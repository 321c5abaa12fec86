import JaxDas.ShardingRule.Steps

/-!
# Every rule of the grammar is parsed

By induction on the derivation, with one lemma for each of the relations of the grammar. What
a value names goes to the end of the array mapping that is being read.
-/

namespace JaxDas.ShardingRule

variable {P : CharClasses} {text : List Char}

/-- What a value is followed by. -/
def EndsValue (t : List Char) : Prop := t = [] ∨ ∃ t', t = ',' :: t'

theorem EndsValue.endsWord {t : List Char} (h : EndsValue t) : EndsWord P t := by
  obtain rfl | ⟨t', rfl⟩ := h
  · exact endsWord_nil
  · exact endsWord_cons (isWord_punctuation (by decide))

theorem EndsWord.append {s t : List Char} (hs : EndsWord P s) (ht : EndsWord P t) :
    EndsWord P (s ++ t) := by
  cases s with
  | nil => exact ht
  | cons c s => exact hs

theorem isdigit_false_of_isWord {c : Char} (h : P.isWord c = false) : P.isdigit c = false := by
  rw [← Bool.not_eq_true]
  intro hd
  rw [CharClasses.isWord, hd, Bool.or_true, Bool.true_or] at h
  cases h

theorem Names.isFactor {s : List Char} {fs : List (List Char)} (h : Names P s fs) :
    ∀ f ∈ fs, IsFactor P f := by
  induction h with
  | nil => exact fun f hf => nomatch hf
  | space _ _ ih => exact ih
  | factor hf _ _ ih => exact List.forall_mem_cons.mpr ⟨hf, ih⟩

/-- No value begins with a digit. -/
theorem Items.head_not_digit {s : List Char} {ps : List Part} (h : Items P s ps) :
    ∀ c ∈ s.head?, P.isdigit c = false := by
  intro c hc
  cases h with
  | nil => cases hc
  | space hs _ =>
      injection hc with hc
      exact hc ▸ P.not_digit_of_space _ hs
  | factor hf _ _ =>
      obtain ⟨x, t, rfl, hx, -⟩ := hf
      injection hc with hc
      exact hc ▸ P.not_digit_of_alpha _ hx
  | group _ _ _ =>
      injection hc with hc
      exact hc ▸ (P.punctuation '(' (by decide)).2.1

theorem int_ok_isdigit {d : List Char} {n : ℕ} (h : P.int d = .ok n) :
    ∀ c ∈ d, P.isdigit c = true := by
  unfold CharClasses.int at h
  split at h
  · cases h
  cases hm : d.mapM P.decimal with
  | none => rw [hm] at h; cases h
  | some ks =>
      intro c hc
      have hall : ∀ {l : List Char} {ks : List ℕ}, l.mapM P.decimal = some ks →
          ∀ c ∈ l, ∃ k, P.decimal c = some k := by
        intro l
        induction l with
        | nil => exact fun _ c hc => nomatch hc
        | cons x l ih =>
            intro ks hl
            rw [List.mapM_cons] at hl
            obtain ⟨k, hk, hl⟩ := Option.bind_eq_some_iff.mp hl
            obtain ⟨ks', hks, -⟩ := Option.bind_eq_some_iff.mp hl
            exact List.forall_mem_cons.mpr ⟨⟨k, hk⟩, ih hks⟩
      obtain ⟨k, hk⟩ := hall hm c hc
      exact P.digit_of_decimal c k hk

theorem GroupNumber.digits_ok {d : List Char} {n : ℕ} (h : GroupNumber P d n) :
    (∀ c ∈ d, P.isdigit c = true) ∧ (if d.isEmpty then Except.ok 0 else P.int d) = .ok n := by
  cases h with
  | zero => exact ⟨nofun, rfl⟩
  | digits hne hint =>
      refine ⟨int_ok_isdigit hint, ?_⟩
      rw [if_neg (by simpa using hne), hint]

theorem Names.complete {s t : List Char} {fs : List (List Char)} (h : Names P s fs)
    {all : List (ArrayMapping P)} {v : List (Dim P)} {gs : List (List Char)} :
    parseFrom text (s ++ ')' :: t) ⟨all, v, none, some gs⟩ =
      parseFrom text (')' :: t) ⟨all, v, none, some (gs ++ fs)⟩ := by
  induction h generalizing gs with
  | nil => rw [List.nil_append, List.append_nil]
  | space hc _ ih => rw [List.cons_append, parseFrom_space hc, ih]
  | @factor f s fs hf hend _ ih =>
      have hend' : EndsWord P (s ++ ')' :: t) :=
        hend.append (endsWord_cons (isWord_punctuation (by decide)))
      rw [List.append_assoc, parseFrom_factor hf hend' rfl, Reading.addFactor, ih,
        List.append_assoc]
      rfl

theorem Items.complete {s : List Char} {ps : List Part} (h : Items P s ps) {t : List Char}
    (ht : EndsWord P t) (text : List Char) (all : List (ArrayMapping P)) (v : List (Dim P)) :
    ∃ ds, ds.map Dim.part = ps ∧ (∀ f, Dim.factor f ∈ ds → IsFactor P f) ∧
      parseFrom text (s ++ t) ⟨all, v, none, none⟩ =
        parseFrom text t ⟨all, v ++ ds, none, none⟩ := by
  induction h generalizing v with
  | nil => exact ⟨[], rfl, nofun, by rw [List.nil_append, List.append_nil]⟩
  | space hc _ ih =>
      obtain ⟨ds, hds, hall, heq⟩ := ih v
      exact ⟨ds, hds, hall, by rw [List.cons_append, parseFrom_space hc, heq]⟩
  | @factor f s ps hf hend _ ih =>
      obtain ⟨ds, hds, hall, heq⟩ := ih (v ++ [.factor f])
      refine ⟨.factor f :: ds, by rw [List.map_cons, hds]; rfl, ?_, ?_⟩
      · intro g hg
        rcases List.mem_cons.mp hg with hg | hg
        · injection hg with hg
          exact hg ▸ hf
        · exact hall g hg
      · rw [List.append_assoc, parseFrom_factor hf (hend.append ht) rfl, Reading.addFactor, heq,
          List.append_assoc]
        rfl
  | @group inner s fs ps hn hlen _ ih =>
      obtain ⟨ds, hds, hall, heq⟩ :=
        ih (v ++ [.compound ⟨fs, checkCompound_ok.mpr ⟨hlen, hn.isFactor⟩⟩])
      refine ⟨.compound ⟨fs, checkCompound_ok.mpr ⟨hlen, hn.isFactor⟩⟩ :: ds,
        by rw [List.map_cons, hds]; rfl, ?_, ?_⟩
      · intro g hg
        rcases List.mem_cons.mp hg with hg | hg
        · cases hg
        · exact hall g hg
      · have hnew : CompoundFactor.new P fs =
            .ok ⟨fs, checkCompound_ok.mpr ⟨hlen, hn.isFactor⟩⟩ := CompoundFactor.new_ok.mpr rfl
        have hopen : (⟨all, v, none, none⟩ : Reading P).separator '(' =
            .ok ⟨all, v, none, some []⟩ := Reading.separator_open
        have hclose : (⟨all, v, none, some fs⟩ : Reading P).separator ')' =
            .ok ⟨all, v ++ [.compound ⟨fs, checkCompound_ok.mpr ⟨hlen, hn.isFactor⟩⟩],
              none, none⟩ := by
          rw [Reading.separator_close]
          simp only
          rw [if_neg (by omega), hnew]
          rfl
        rw [List.cons_append, parseFrom_separator (by decide) rfl, hopen, ok_bind,
          List.append_assoc, List.cons_append, hn.complete, List.nil_append,
          parseFrom_separator (by decide) rfl, hclose, ok_bind, heq, List.append_assoc]
        rfl

theorem isBatching_str {n : ℕ} (h : ∀ c ∈ str n, P.isdigit c = true) :
    isBatching P (batching :: str n) = true := by
  rw [isBatching, List.all_eq_true.mpr h]
  simp

theorem str_isdigit (n : ℕ) : ∀ c ∈ str n, P.isdigit c = true := by
  intro c hc
  unfold str at hc
  split at hc
  · rw [List.mem_singleton.mp hc]
    exact P.digit_of_decimal _ 0 (P.decimal_digitChar 0 (by omega))
  · obtain ⟨k, hk, rfl⟩ := List.mem_map.mp hc
    exact P.digit_of_decimal _ k
      (P.decimal_digitChar k (Nat.digits_lt_base (by omega) (List.mem_reverse.mp hk)))

theorem Value.complete {s : List Char} {ps : List Part} (h : Value P [batching] s ps)
    {t : List Char} (ht : EndsValue t) (text : List Char) (all : List (ArrayMapping P)) :
    ∃ m : ArrayMapping P, m.parts = ps ∧
      parseFrom text (s ++ t) ⟨all, [], none, none⟩ =
        parseFrom text t ⟨all, m.dims, none, none⟩ := by
  induction h with
  | items h =>
      obtain ⟨ds, hds, hall, heq⟩ := h.complete ht.endsWord text all []
      exact ⟨⟨ds, checkMapping_zero_ok.mpr (.inl hall)⟩, hds, heq⟩
  | space hc _ ih =>
      obtain ⟨m, hm, heq⟩ := ih
      exact ⟨m, hm, by rw [List.cons_append, parseFrom_space hc, heq]⟩
  | @ellipsis d s n ps hd h =>
      obtain ⟨hdigits, hnum⟩ := hd.digits_ok
      obtain ⟨ds, hds, hall, heq⟩ := h.complete ht.endsWord text all
        [.factor (batching :: str n)]
      refine ⟨⟨.factor (batching :: str n) :: ds, checkMapping_zero_ok.mpr
        (.inr ⟨_, ds, rfl, isBatching_str (str_isdigit n), hall⟩)⟩, ?_, ?_⟩
      · rw [ArrayMapping.parts, List.map_cons, hds]
        rfl
      · have hhead : ∀ c ∈ (s ++ t).head?, P.isdigit c = false := by
          cases s with
          | nil => exact fun c hc => isdigit_false_of_isWord (ht.endsWord c hc)
          | cons x s => exact h.head_not_digit
        rw [List.singleton_append, List.cons_append, List.append_assoc,
          parseFrom_ellipsis hdigits hhead rfl, if_neg (by simp), hnum, ok_bind]
        exact heq

theorem Values.complete {s : List Char} {pss : List (List Part)} (h : Values P [batching] s pss)
    (text : List Char) (all : List (ArrayMapping P)) :
    ∃ ms, ms.map ArrayMapping.parts = pss ∧
      parseFrom text s ⟨all, [], none, none⟩ = .ok (all ++ ms) := by
  induction h generalizing all with
  | one h =>
      obtain ⟨m, hm, heq⟩ := h.complete (.inl rfl) text all
      refine ⟨[m], by rw [List.map_singleton, hm], ?_⟩
      rw [List.append_nil] at heq
      rw [heq, parseFrom_nil, Reading.finish, if_neg (by simp), Reading.flush_of_none rfl,
        ArrayMapping.new_ok.mpr rfl]
      rfl
  | @cons s t ps pss h _ ih =>
      obtain ⟨m, hm, heq⟩ := h.complete (.inr ⟨t, rfl⟩) text all
      obtain ⟨ms, hms, heq'⟩ := ih (all ++ [m])
      have hcomma : (⟨all, m.dims, none, none⟩ : Reading P).separator ',' =
          .ok ⟨all ++ [m], [], none, none⟩ := by
        rw [Reading.separator_comma, ArrayMapping.new_ok.mpr rfl]
        rfl
      refine ⟨m :: ms, by rw [List.map_cons, hm, hms], ?_⟩
      rw [heq, parseFrom_separator (by decide) rfl, hcomma, ok_bind, heq', List.append_assoc]
      rfl

/-- The spaces that the parser removes first are of no importance. -/
theorem parseValues_eq (s : List Char) :
    parseValues P s = parseFrom (normalize P s) s ⟨[], [], none, none⟩ := by
  unfold parseValues parseFrom
  by_cases h : (normalize P s).isEmpty = true
  · rw [if_pos h, List.isEmpty_iff.mp h, Reading.loop_nil, ok_bind]
    rfl
  · rw [if_neg h]

theorem parseValues_complete {s : List Char} {pss : List (List Part)}
    (h : Values P [batching] s pss) :
    ∃ ms, ms.map ArrayMapping.parts = pss ∧ parseValues P s = .ok ms := by
  obtain ⟨ms, hms, heq⟩ := h.complete (normalize P s) []
  exact ⟨ms, hms, by rw [parseValues_eq, heq]; rfl⟩

end JaxDas.ShardingRule
