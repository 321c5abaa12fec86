import JaxDas.ShardingRule.Complete
import Mathlib.Data.List.TakeWhile

/-!
# What is parsed is a rule of the grammar

By induction on the length of what is left of the text. `Reads` says what the rest of a
value, and the values behind it, have come to; each way in which the rest may begin has a
lemma that puts it in front.

A comma inside of a bracket ends the value although the bracket is open, so texts with such a
comma are left out.
-/

namespace JaxDas.ShardingRule

variable {P : CharClasses} {text : List Char}

/-! ### Pieces of a text -/

theorem EndsWord.of_append {s t : List Char} (h : EndsWord P (s ++ t)) : EndsWord P s := by
  cases s with
  | nil => exact endsWord_nil
  | cons c s => exact h

/-- The characters of a kind at the beginning of a text. -/
theorem exists_prefix (p : Char → Bool) (s : List Char) :
    ∃ d t, s = d ++ t ∧ (∀ x ∈ d, p x = true) ∧ ∀ x ∈ t.head?, p x = false := by
  refine ⟨s.takeWhile p, s.dropWhile p, List.takeWhile_append_dropWhile.symm,
    fun x hx => List.mem_takeWhile_imp hx, ?_⟩
  intro x hx
  have hnot := List.head?_dropWhile_not p s
  rw [Option.mem_def.mp hx] at hnot
  simpa using hnot

/-- A text that begins with a character of a factor. -/
theorem exists_word {c : Char} (s : List Char) (hc : P.isWord c = true) :
    ∃ w t, s = w ++ t ∧ (∀ x ∈ c :: w, P.isWord x = true) ∧ EndsWord P t := by
  obtain ⟨w, t, hs, hw, ht⟩ := exists_prefix P.isWord s
  exact ⟨w, t, hs, List.forall_mem_cons.mpr ⟨hc, hw⟩, ht⟩

/-- How a text may begin. -/
theorem first_cases (c : Char) :
    P.isspace c = true ∨ P.isWord c = true ∨ c = '(' ∨ c = ')' ∨ c = ',' ∨ c = batching ∨
      (P.isspace c = false ∧ P.isWord c = false ∧ c ∉ ['(', ')', ',', batching]) := by
  cases hs : P.isspace c with
  | true => exact .inl rfl
  | false =>
      cases hw : P.isWord c with
      | true => exact .inr (.inl rfl)
      | false =>
          simp only [List.mem_cons, List.not_mem_nil, or_false]
          tauto

theorem CommaInBracket.append {s : List Char} (a : List Char) (h : CommaInBracket s) :
    CommaInBracket (a ++ s) := by
  obtain ⟨a', b, c, rfl, hb⟩ := h
  exact ⟨a ++ a', b, c, by rw [List.append_assoc], hb⟩

/-- A name of a mapping is a factor unless it is an ellipsis. -/
theorem ArrayMapping.isFactor {m : ArrayMapping P} {f : List Char} (h : Dim.factor f ∈ m.dims)
    (hb : isBatching P f = false) : IsFactor P f := by
  obtain hall | ⟨d, rest, hdims, hd, hall⟩ := checkMapping_zero_ok.mp m.checked
  · exact hall f h
  · rw [hdims] at h
    rcases List.mem_cons.mp h with heq | h
    · injection heq with heq
      rw [heq, hd] at hb
      cases hb
    · exact hall f h

theorem isBatching_word {c : Char} {w : List Char} (hc : P.isWord c = true) :
    isBatching P (c :: w) = false := by
  have hne : (c == batching) = false := by
    rw [beq_eq_false_iff_ne]
    exact ne_batching_of_isWord hc
  rw [isBatching, hne, Bool.false_and]

/-! ### Inside of a bracket -/

theorem Names.sound {all : List (ArrayMapping P)} {v : List (Dim P)} {ms : List (ArrayMapping P)} :
    ∀ (n : ℕ) (s : List Char) (fs : List (List Char)), s.length ≤ n →
      (∀ b c, s = b ++ ',' :: c → ')' ∈ b) →
      parseFrom text s ⟨all, v, none, some fs⟩ = .ok ms →
      ∃ inner t gs c, s = inner ++ ')' :: t ∧ Names P inner gs ∧ c.factors = fs ++ gs ∧
        parseFrom text t ⟨all, v ++ [.compound c], none, none⟩ = .ok ms := by
  intro n
  induction n with
  | zero =>
      intro s fs hlen _ h
      rw [List.length_eq_zero_iff.mp (Nat.le_zero.mp hlen), parseFrom_nil] at h
      cases h
  | succ n ih =>
      intro s fs hlen hcomma h
      cases s with
      | nil => rw [parseFrom_nil] at h; cases h
      | cons c s =>
          rw [List.length_cons] at hlen
          have hrest : ∀ a t, c :: s = a ++ t → ')' ∉ a → ∀ b x, t = b ++ ',' :: x → ')' ∈ b := by
            intro a t hat ha b x ht
            have := hcomma (a ++ b) x (by rw [hat, ht, List.append_assoc])
            exact (List.mem_append.mp this).resolve_left ha
          obtain hc | hc | rfl | rfl | rfl | rfl | ⟨hc, hw, hnot⟩ := first_cases (P := P) c
          · rw [parseFrom_space hc] at h
            have hnc : ')' ∉ [c] := by
              rw [List.mem_singleton]
              rintro rfl
              rw [(P.punctuation ')' (by decide)).2.2] at hc
              cases hc
            obtain ⟨inner, t, gs, cf, rfl, hn, hcf, heq⟩ :=
              ih s fs (by omega) (hrest [c] s rfl hnc) h
            exact ⟨c :: inner, t, gs, cf, rfl, .space hc hn, hcf, heq⟩
          · obtain ⟨w, t, rfl, hw, hend⟩ := exists_word s hc
            rw [← List.cons_append, parseFrom_word hw hend rfl] at h
            split at h
            · cases h
            have hnc : ')' ∉ c :: w := by
              intro hmem
              have := hw _ hmem
              rw [isWord_punctuation (by decide)] at this
              cases this
            obtain ⟨inner, t', gs, cf, rfl, hn, hcf, heq⟩ := ih t (fs ++ [c :: w])
              (by rw [List.length_append] at hlen; omega) (hrest (c :: w) t rfl hnc) h
            have hf : IsFactor P (c :: w) :=
              (checkCompound_ok.mp cf.checked).2 _ (by rw [hcf]; simp)
            refine ⟨c :: w ++ inner, t', (c :: w) :: gs, cf, ?_, .factor hf hend.of_append hn,
              by rw [hcf, List.append_assoc]; rfl, heq⟩
            rw [List.append_assoc]
            rfl
          · rw [parseFrom_separator (by decide) rfl, Reading.separator_open] at h
            cases h
          · rw [parseFrom_separator (by decide) rfl, Reading.separator_close] at h
            simp only at h
            split at h
            · cases h
            obtain ⟨st, hst, h⟩ := bind_ok.mp h
            obtain ⟨cf, hcf, hst⟩ := bind_ok.mp hst
            injection hst with hst
            rw [CompoundFactor.new_ok] at hcf
            rw [← hst] at h
            exact ⟨[], s, [], cf, rfl, .nil, by rw [hcf, List.append_nil], h⟩
          · exact absurd (hcomma [] s rfl) (by simp)
          · obtain ⟨d, t, rfl, hd, ht⟩ := exists_prefix P.isdigit s
            rw [parseFrom_ellipsis hd ht rfl] at h
            cases h
          · rw [parseFrom_unknown hc hw hnot] at h
            cases h

/-! ### A value and what follows it -/

/-- The mapping that is being read has the elements `v`; the rest `s` of the text has made `ms`
of the mappings `all` that were done. -/
def Reads (s : List Char) (all : List (ArrayMapping P)) (v : List (Dim P))
    (ms : List (ArrayMapping P)) : Prop :=
  ∃ m ms' s₁ ds, ms = all ++ m :: ms' ∧ m.dims = v ++ ds ∧
    (v ≠ [] → Items P s₁ (ds.map Dim.part)) ∧
    (v = [] → Value P [batching] s₁ (ds.map Dim.part)) ∧
    ((s = s₁ ∧ ms' = []) ∨
      ∃ s₂, s = s₁ ++ ',' :: s₂ ∧ Values P [batching] s₂ (ms'.map ArrayMapping.parts))

variable {all : List (ArrayMapping P)} {v : List (Dim P)} {ms : List (ArrayMapping P)}
  {s : List Char}

theorem Reads.values (h : Reads s all [] ms) :
    ∃ m ms', ms = all ++ m :: ms' ∧
      Values P [batching] s ((m :: ms').map ArrayMapping.parts) := by
  obtain ⟨m, ms', s₁, ds, hms, hdims, -, hv, hrest⟩ := h
  have hparts : m.parts = ds.map Dim.part := by rw [ArrayMapping.parts, hdims, List.nil_append]
  refine ⟨m, ms', hms, ?_⟩
  rw [List.map_cons, hparts]
  obtain ⟨rfl, rfl⟩ | ⟨s₂, rfl, hs₂⟩ := hrest
  · exact .one (hv rfl)
  · exact .cons (hv rfl) hs₂

/-- Where a value goes on, what follows it does so too. -/
theorem rest_append {s s₁ : List Char} {ms' : List (ArrayMapping P)} (a : List Char)
    (h : (s = s₁ ∧ ms' = []) ∨
      ∃ s₂, s = s₁ ++ ',' :: s₂ ∧ Values P [batching] s₂ (ms'.map ArrayMapping.parts)) :
    (a ++ s = a ++ s₁ ∧ ms' = []) ∨
      ∃ s₂, a ++ s = a ++ s₁ ++ ',' :: s₂ ∧
        Values P [batching] s₂ (ms'.map ArrayMapping.parts) := by
  obtain ⟨rfl, h⟩ | ⟨s₂, rfl, h⟩ := h
  · exact .inl ⟨rfl, h⟩
  · exact .inr ⟨s₂, by rw [List.append_assoc], h⟩

theorem Reads.space {c : Char} (hc : P.isspace c = true) (h : Reads s all v ms) :
    Reads (c :: s) all v ms := by
  obtain ⟨m, ms', s₁, ds, hms, hdims, hi, hv, hrest⟩ := h
  exact ⟨m, ms', c :: s₁, ds, hms, hdims, fun hne => .space hc (hi hne),
    fun heq => .space hc (hv heq), rest_append [c] hrest⟩

theorem Reads.factor {c : Char} {w : List Char} (hw : ∀ x ∈ c :: w, P.isWord x = true)
    (hend : EndsWord P s) (h : Reads s all (v ++ [.factor (c :: w)]) ms) :
    Reads (c :: w ++ s) all v ms := by
  obtain ⟨m, ms', s₁, ds, hms, hdims, hi, -, hrest⟩ := h
  have hf : IsFactor P (c :: w) :=
    m.isFactor (by rw [hdims]; simp) (isBatching_word (hw c List.mem_cons_self))
  have hend₁ : EndsWord P s₁ := by
    obtain ⟨rfl, -⟩ | ⟨s₂, rfl, -⟩ := hrest
    · exact hend
    · exact hend.of_append
  have hitems : Items P (c :: w ++ s₁) ((Dim.factor (c :: w) :: ds).map Dim.part) :=
    .factor hf hend₁ (hi (by simp))
  exact ⟨m, ms', c :: w ++ s₁, .factor (c :: w) :: ds, hms,
    by rw [hdims, List.append_assoc]; rfl, fun _ => hitems, fun _ => .items hitems,
    rest_append (c :: w) hrest⟩

theorem Reads.group {inner : List Char} {cf : CompoundFactor P}
    (hn : Names P inner cf.factors) (h : Reads s all (v ++ [.compound cf]) ms) :
    Reads ('(' :: (inner ++ ')' :: s)) all v ms := by
  obtain ⟨m, ms', s₁, ds, hms, hdims, hi, -, hrest⟩ := h
  have hitems : Items P ('(' :: (inner ++ ')' :: s₁)) ((Dim.compound cf :: ds).map Dim.part) :=
    .group hn (checkCompound_ok.mp cf.checked).1 (hi (by simp))
  refine ⟨m, ms', _, .compound cf :: ds, hms, by rw [hdims, List.append_assoc]; rfl,
    fun _ => hitems, fun _ => .items hitems, ?_⟩
  have := rest_append ('(' :: (inner ++ [')'])) hrest
  simpa using this

theorem Reads.ellipsis {d : List Char} {n : ℕ} (hd : GroupNumber P d n)
    (h : Reads s all [.factor (batching :: str n)] ms) :
    Reads (batching :: (d ++ s)) all [] ms := by
  obtain ⟨m, ms', s₁, ds, hms, hdims, hi, -, hrest⟩ := h
  refine ⟨m, ms', [batching] ++ (d ++ s₁), .factor (batching :: str n) :: ds, hms, hdims,
    fun hne => absurd rfl hne, fun _ => .ellipsis hd (hi (by simp)), ?_⟩
  have := rest_append (batching :: d) hrest
  simpa using this

theorem Reads.sound :
    ∀ (n : ℕ) (s : List Char) (all : List (ArrayMapping P)) (v : List (Dim P)), s.length ≤ n →
      ¬ CommaInBracket s → parseFrom text s ⟨all, v, none, none⟩ = .ok ms → Reads s all v ms := by
  intro n
  have hend : ∀ (all : List (ArrayMapping P)) (v : List (Dim P)),
      parseFrom text [] ⟨all, v, none, none⟩ = .ok ms → Reads [] all v ms := by
    intro all v h
    rw [parseFrom_nil, Reading.finish, if_neg (by simp), Reading.flush_of_none rfl] at h
    obtain ⟨m, hm, h⟩ := bind_ok.mp h
    injection h with h
    rw [ArrayMapping.new_ok] at hm
    exact ⟨m, [], [], [], h.symm, by rw [hm, List.append_nil], fun _ => .nil,
      fun _ => .items .nil, .inl ⟨rfl, rfl⟩⟩
  induction n with
  | zero =>
      intro s all v hlen _ h
      rw [List.length_eq_zero_iff.mp (Nat.le_zero.mp hlen)] at h ⊢
      exact hend all v h
  | succ n ih =>
      intro s all v hlen hcomma h
      cases s with
      | nil => exact hend all v h
      | cons c s =>
          rw [List.length_cons] at hlen
          have hsuffix : ∀ a t, c :: s = a ++ t → ¬ CommaInBracket t := by
            intro a t hat ht
            exact hcomma (hat ▸ ht.append a)
          obtain hc | hc | rfl | rfl | rfl | rfl | ⟨hc, hw, hnot⟩ := first_cases (P := P) c
          · rw [parseFrom_space hc] at h
            exact (ih s all v (by omega) (hsuffix [c] s rfl) h).space hc
          · obtain ⟨w, t, rfl, hw, hend⟩ := exists_word s hc
            rw [← List.cons_append, parseFrom_word hw hend rfl] at h
            split at h
            · cases h
            exact (ih t all (v ++ [Dim.factor (c :: w)]) (by rw [List.length_append] at hlen; omega)
              (hsuffix (c :: w) t rfl) (by exact h)).factor hw hend
          · rw [parseFrom_separator (by decide) rfl, Reading.separator_open, ok_bind] at h
            obtain ⟨inner, t, gs, cf, rfl, hn, hcf, heq⟩ := Names.sound n s [] (by omega)
              (fun b c hs => by
                by_contra hb
                exact hcomma ⟨[], b, c, by rw [hs]; rfl, hb⟩) h
            rw [List.nil_append] at hcf
            subst hcf
            simp only [List.length_append, List.length_cons] at hlen
            exact (ih t all (v ++ [.compound cf]) (by omega)
              (hsuffix ('(' :: (inner ++ [')'])) t (by simp)) heq).group hn
          · rw [parseFrom_separator (by decide) rfl, Reading.separator_close] at h
            cases h
          · rw [parseFrom_separator (by decide) rfl, Reading.separator_comma] at h
            obtain ⟨st, hst, h⟩ := bind_ok.mp h
            obtain ⟨m, hm, hst⟩ := bind_ok.mp hst
            injection hst with hst
            rw [← hst] at h
            obtain ⟨m', ms', rfl, hvalues⟩ :=
              (ih s (all ++ [m]) [] (by omega) (hsuffix [','] s rfl) h).values
            exact ⟨m, m' :: ms', [], [], by rw [List.append_assoc]; rfl,
              by rw [ArrayMapping.new_ok.mp hm, List.append_nil], fun _ => .nil,
              fun _ => .items .nil, .inr ⟨s, rfl, hvalues⟩⟩
          · obtain ⟨d, t, rfl, hd, ht⟩ := exists_prefix P.isdigit s
            rw [parseFrom_ellipsis hd ht rfl] at h
            split at h
            · cases h
            next hstart =>
            obtain ⟨k, hk, h⟩ := bind_ok.mp h
            have hv : v = [] := by simpa [List.isEmpty_iff] using hstart
            subst hv
            have hnum : GroupNumber P d k := by
              by_cases hnil : d = []
              · subst hnil
                injection hk with hk
                exact hk ▸ .zero
              · rw [if_neg (by simpa using hnil)] at hk
                exact .digits hnil hk
            exact (ih t all [.factor (batching :: str k)]
              (by rw [List.length_append] at hlen; omega)
              (hsuffix (batching :: d) t rfl) h).ellipsis hnum
          · rw [parseFrom_unknown hc hw hnot] at h
            cases h

theorem parseValues_sound (hcomma : ¬ CommaInBracket s) (h : parseValues P s = .ok ms) :
    Values P [batching] s (ms.map ArrayMapping.parts) := by
  rw [parseValues_eq] at h
  obtain ⟨m, ms', rfl, hvalues⟩ := (Reads.sound s.length s [] [] (Nat.le_refl _) hcomma h).values
  exact hvalues

end JaxDas.ShardingRule
