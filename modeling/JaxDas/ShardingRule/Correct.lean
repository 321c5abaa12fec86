import JaxDas.ShardingRule.Sound

/-!
# The parser accepts its grammar

The dots of the ellipsis are replaced and the rule is split at its arrow before its values are
parsed. Neither changes what the grammar says of the rule, and what `printRule` writes is a
rule of the grammar.
-/

namespace JaxDas.ShardingRule

variable {P : CharClasses}

/-! ### Characters that are not part of values -/

theorem Names.not_mem {s : List Char} {fs : List (List Char)} (h : Names P s fs) {c : Char}
    (hc : c ∈ ['(', ')', ',', '.', '-', '>', '…']) : c ∉ s := by
  have hw := isWord_punctuation (P := P) hc
  have hs : P.isspace c = false := by
    refine (P.punctuation c ?_).2.2
    simp only [List.mem_cons, List.not_mem_nil, or_false] at hc ⊢
    tauto
  induction h with
  | nil => exact List.not_mem_nil
  | space hx _ ih =>
      rw [List.mem_cons]
      rintro (rfl | hmem)
      · rw [hx] at hs
        cases hs
      · exact ih hmem
  | factor hf _ _ ih =>
      rw [List.mem_append]
      rintro (hmem | hmem)
      · rw [hf.isWord c hmem] at hw
        cases hw
      · exact ih hmem

theorem Items.not_mem {s : List Char} {ps : List Part} (h : Items P s ps) {c : Char}
    (hc : c ∈ [',', '.', '-', '>', '…']) : c ∉ s := by
  have hmem : c ∈ ['(', ')', ',', '.', '-', '>', '…'] :=
    List.mem_cons_of_mem _ (List.mem_cons_of_mem _ hc)
  have hw := isWord_punctuation (P := P) hmem
  have hs : P.isspace c = false := by
    refine (P.punctuation c ?_).2.2
    simp only [List.mem_cons, List.not_mem_nil, or_false] at hc ⊢
    tauto
  induction h with
  | nil => exact List.not_mem_nil
  | space hx _ ih =>
      rw [List.mem_cons]
      rintro (rfl | hmem)
      · rw [hx] at hs
        cases hs
      · exact ih hmem
  | factor hf _ _ ih =>
      rw [List.mem_append]
      rintro (hmem | hmem)
      · rw [hf.isWord c hmem] at hw
        cases hw
      · exact ih hmem
  | group hn _ _ ih =>
      rw [List.mem_cons, List.mem_append, List.mem_cons]
      rintro (rfl | hin | rfl | hin)
      · revert hc
        decide
      · exact hn.not_mem hmem hin
      · revert hc
        decide
      · exact ih hin

theorem GroupNumber.not_mem {d : List Char} {n : ℕ} (h : GroupNumber P d n) {c : Char}
    (hc : c ∈ [',', '.', '-', '>', '…']) : c ∉ d := by
  intro hmem
  have hw := isWord_punctuation (P := P)
    (List.mem_cons_of_mem '(' (List.mem_cons_of_mem ')' hc))
  have := isdigit_false_of_isWord hw
  rw [h.digits_ok.1 c hmem] at this
  cases this

/-! ### Three dots and one character -/

theorem replaceDots_cons {c : Char} (s : List Char) (hc : c ≠ '.') :
    replaceDots (c :: s) = c :: replaceDots s := by
  rw [replaceDots]
  rintro s' rfl
  exact absurd rfl hc

theorem replaceDots_append {a : List Char} (t : List Char) (ha : '.' ∉ a) :
    replaceDots (a ++ t) = a ++ replaceDots t := by
  induction a with
  | nil => rfl
  | cons c a ih =>
      rw [List.mem_cons, not_or] at ha
      rw [List.cons_append, replaceDots_cons _ (Ne.symm ha.1), ih ha.2, List.cons_append]

/-- The three dots again. -/
def expandDots (s : List Char) : List Char :=
  s.flatMap fun c => if c = batching then threeDots else [c]

theorem expandDots_append (a b : List Char) :
    expandDots (a ++ b) = expandDots a ++ expandDots b :=
  List.flatMap_append

theorem expandDots_cons {c : Char} (s : List Char) (hc : c ≠ batching) :
    expandDots (c :: s) = c :: expandDots s := by
  rw [expandDots, List.flatMap_cons, if_neg hc]
  rfl

theorem expandDots_eq {s : List Char} (h : batching ∉ s) : expandDots s = s := by
  induction s with
  | nil => rfl
  | cons c s ih =>
      rw [List.mem_cons, not_or] at h
      rw [expandDots_cons s (Ne.symm h.1), ih h.2]

theorem expandDots_replaceDots {s : List Char} (h : batching ∉ s) :
    expandDots (replaceDots s) = s := by
  induction s using replaceDots.induct with
  | case1 s ih =>
      have hs : batching ∉ s := fun hmem => h (by simp [hmem])
      rw [replaceDots, expandDots, List.flatMap_cons, if_pos rfl]
      exact congrArg (threeDots ++ ·) (ih hs)
  | case2 c s hno ih =>
      rw [List.mem_cons, not_or] at h
      rw [replaceDots, expandDots_cons _ (Ne.symm h.1), ih h.2]
      exact hno
  | case3 => rfl

theorem Value.expandDots {s : List Char} {ps : List Part} (h : Value P [batching] s ps) :
    Value P threeDots (expandDots s) ps := by
  induction h with
  | items h =>
      rw [expandDots_eq (h.not_mem (by decide))]
      exact .items h
  | @space c s ps hc _ ih =>
      have hne : c ≠ batching := by
        rintro rfl
        rw [(P.punctuation batching (by decide)).2.2] at hc
        cases hc
      rw [expandDots_cons s hne]
      exact .space hc ih
  | @ellipsis d s n ps hd h =>
      rw [expandDots_append, expandDots_append, expandDots_eq (hd.not_mem (by decide)),
        expandDots_eq (h.not_mem (by decide))]
      exact .ellipsis hd h

theorem Values.expandDots {s : List Char} {pss : List (List Part)}
    (h : Values P [batching] s pss) : Values P threeDots (expandDots s) pss := by
  induction h with
  | one h => exact .one h.expandDots
  | cons h _ ih =>
      rw [expandDots_append, expandDots_cons _ (by decide)]
      exact .cons h.expandDots ih

/-- A value with three dots, once they are replaced, whatever follows it. -/
structure Replaced (s s' : List Char) : Prop where
  append : ∀ t, replaceDots (s ++ t) = s' ++ replaceDots t
  batching : batching ∉ s
  clean : ∀ c ∈ ['.', '-', '>'], c ∉ s'

theorem Replaced.of_not_mem {s : List Char} (h : ∀ c ∈ ['.', '-', '>', '…'], c ∉ s) :
    Replaced s s :=
  ⟨fun t => replaceDots_append t (h '.' (by decide)), h '…' (by decide), fun c hc => h c (by
    simp only [List.mem_cons, List.not_mem_nil, or_false] at hc ⊢
    tauto)⟩

theorem Replaced.join {a a' b b' : List Char} (ha : Replaced a a') (hb : Replaced b b') :
    Replaced (a ++ b) (a' ++ b') := by
  refine ⟨fun t => ?_, ?_, fun c hc => ?_⟩
  · rw [List.append_assoc, ha.append, hb.append, List.append_assoc]
  · rw [List.mem_append]
    exact fun h => h.elim ha.batching hb.batching
  · rw [List.mem_append]
    exact fun h => h.elim (ha.clean c hc) (hb.clean c hc)

theorem replaced_threeDots : Replaced threeDots [batching] :=
  ⟨fun _ => rfl, by decide, by simp [batching]⟩

theorem Items.replaced {s : List Char} {ps : List Part} (h : Items P s ps) : Replaced s s :=
  .of_not_mem fun _ hc => h.not_mem (List.mem_cons_of_mem _ hc)

theorem Value.replaced {s : List Char} {ps : List Part} (h : Value P threeDots s ps) :
    ∃ s', Value P [batching] s' ps ∧ Replaced s s' := by
  induction h with
  | items h => exact ⟨_, .items h, h.replaced⟩
  | @space c s ps hc _ ih =>
      obtain ⟨s', hv, hr⟩ := ih
      have hone : Items P [c] [] := .space hc .nil
      exact ⟨c :: s', .space hc hv, hone.replaced.join hr⟩
  | ellipsis hd h =>
      have hdr : Replaced _ _ := .of_not_mem fun _ hc => hd.not_mem (List.mem_cons_of_mem _ hc)
      exact ⟨_, .ellipsis hd h, replaced_threeDots.join (hdr.join h.replaced)⟩

theorem Values.replaced {s : List Char} {pss : List (List Part)} (h : Values P threeDots s pss) :
    ∃ s', Values P [batching] s' pss ∧ Replaced s s' := by
  induction h with
  | one h =>
      obtain ⟨s', hv, hr⟩ := h.replaced
      exact ⟨s', .one hv, hr⟩
  | cons h _ ih =>
      obtain ⟨s', hv, hr⟩ := h.replaced
      obtain ⟨t', hvs, hr'⟩ := ih
      have hcomma : Replaced [','] [','] := .of_not_mem (by simp)
      exact ⟨s' ++ ',' :: t', .cons hv hvs, hr.join (hcomma.join hr')⟩

/-! ### The arrow -/

theorem splitArrow_cons {c : Char} {s w : List Char} {ws : List (List Char)} (hc : c ≠ '-')
    (h : splitArrow s = w :: ws) : splitArrow (c :: s) = (c :: w) :: ws := by
  rw [splitArrow, h]
  rintro s' rfl
  exact absurd rfl hc

theorem splitArrow_append {l : List Char} (r : List Char) (hl : '-' ∉ l) :
    splitArrow (l ++ '-' :: '>' :: r) = l :: splitArrow r := by
  induction l with
  | nil => rw [List.nil_append, splitArrow]
  | cons c l ih =>
      rw [List.mem_cons, not_or] at hl
      exact splitArrow_cons (Ne.symm hl.1) (ih hl.2)

theorem splitArrow_eq {r : List Char} (hr : '-' ∉ r) : splitArrow r = [r] := by
  induction r with
  | nil => rfl
  | cons c r ih =>
      rw [List.mem_cons, not_or] at hr
      exact splitArrow_cons (Ne.symm hr.1) (ih hr.2)

theorem intercalate_splitArrow (s : List Char) :
    ['-', '>'].intercalate (splitArrow s) = s ∧ splitArrow s ≠ [] := by
  induction s using splitArrow.induct with
  | case1 s ih =>
      refine ⟨?_, by rw [splitArrow]; simp⟩
      cases hs : splitArrow s with
      | nil => exact absurd hs ih.2
      | cons w ws =>
          rw [hs] at ih
          rw [splitArrow, hs, List.intercalate_cons_cons, ih.1]
          rfl
  | case2 c s hno hs ih => exact absurd hs ih.2
  | case3 c s hno w ws hs ih =>
      rw [hs] at ih
      have heq : splitArrow (c :: s) = (c :: w) :: ws := by
        rw [splitArrow, hs]
        exact hno
      refine ⟨?_, by rw [heq]; simp⟩
      rw [heq, ← ih.1]
      cases ws with
      | nil => simp
      | cons w' ws => simp [List.intercalate_cons_cons]
  | case4 => exact ⟨rfl, by simp [splitArrow]⟩

/-! ### Commas in brackets -/

theorem CommaInBracket.append_right {s : List Char} (t : List Char) (h : CommaInBracket s) :
    CommaInBracket (s ++ t) := by
  obtain ⟨a, b, c, rfl, hb⟩ := h
  exact ⟨a, b, c ++ t, by simp, hb⟩

theorem CommaInBracket.expandDots {s : List Char} (h : CommaInBracket s) :
    CommaInBracket (expandDots s) := by
  obtain ⟨a, b, c, rfl, hb⟩ := h
  refine ⟨ShardingRule.expandDots a, ShardingRule.expandDots b, ShardingRule.expandDots c, ?_, ?_⟩
  · rw [expandDots_append, expandDots_cons _ (by decide), expandDots_append,
      expandDots_cons _ (by decide)]
  · intro hmem
    obtain ⟨x, hx, hin⟩ := List.mem_flatMap.mp hmem
    by_cases hxb : x = batching
    · rw [if_pos hxb] at hin
      revert hin
      decide
    · rw [if_neg hxb, List.mem_singleton] at hin
      exact hb (hin ▸ hx)

/-! ### Rules -/

theorem parseRule_complete {rule : List Char} {pss qss : List (List Part)}
    (h : Rule P threeDots rule pss qss) :
    ∃ operands results, operands.map ArrayMapping.parts = pss ∧
      results.map ArrayMapping.parts = qss ∧ parseRule P rule = .ok (operands, results) := by
  obtain ⟨l, r, rfl, hl, hr⟩ := h
  obtain ⟨l', hl', hreplL⟩ := hl.replaced
  obtain ⟨r', hr', hreplR⟩ := hr.replaced
  obtain ⟨operands, hops, hparseL⟩ := parseValues_complete hl'
  obtain ⟨results, hres, hparseR⟩ := parseValues_complete hr'
  have hrule : replaceDots (l ++ '-' :: '>' :: r) = l' ++ '-' :: '>' :: r' := by
    have hend : replaceDots r = r' := by
      have := hreplR.append []
      simpa [replaceDots] using this
    rw [hreplL.append, replaceDots_cons _ (by decide), replaceDots_cons _ (by decide), hend]
  have hbatching : batching ∉ l ++ '-' :: '>' :: r := by
    simp only [List.mem_append, List.mem_cons, not_or]
    exact ⟨hreplL.batching, by decide, by decide, hreplR.batching⟩
  have hdots : '.' ∉ l' ++ '-' :: '>' :: r' := by
    simp only [List.mem_append, List.mem_cons, not_or]
    exact ⟨hreplL.clean '.' (by decide), by decide, by decide, hreplR.clean '.' (by decide)⟩
  refine ⟨operands, results, hops, hres, ?_⟩
  unfold parseRule
  rw [if_neg hbatching, hrule, if_neg hdots, splitArrow_append _ (hreplL.clean '-' (by decide)),
    splitArrow_eq (hreplR.clean '-' (by decide))]
  simp only
  rw [hparseL, hparseR]
  rfl

theorem parseRule_sound {rule : List Char} (hcomma : ¬ CommaInBracket rule)
    {operands results : List (ArrayMapping P)} (h : parseRule P rule = .ok (operands, results)) :
    Rule P threeDots rule (operands.map ArrayMapping.parts)
      (results.map ArrayMapping.parts) := by
  unfold parseRule at h
  split at h
  · cases h
  next hbatching =>
  split at h
  · cases h
  split at h
  next l r hsplit =>
    obtain ⟨ops, hops, h⟩ := bind_ok.mp h
    obtain ⟨res, hres, h⟩ := bind_ok.mp h
    injection h with h
    injection h with h₁ h₂
    subst h₁ h₂
    have hjoin := (intercalate_splitArrow (replaceDots rule)).1
    rw [hsplit, List.intercalate_cons_cons, List.intercalate_singleton] at hjoin
    have hrule : rule = expandDots l ++ '-' :: '>' :: expandDots r := by
      rw [← expandDots_replaceDots hbatching, ← hjoin, List.append_assoc, expandDots_append]
      rw [List.cons_append, List.singleton_append, expandDots_cons _ (by decide),
        expandDots_cons _ (by decide)]
    have hcommaL : ¬ CommaInBracket l := fun hl =>
      hcomma (hrule ▸ hl.expandDots.append_right _)
    have hcommaR : ¬ CommaInBracket r := fun hr => by
      refine hcomma (hrule ▸ ?_)
      have := hr.expandDots.append (expandDots l ++ ['-', '>'])
      rwa [List.append_assoc] at this
    exact ⟨expandDots l, expandDots r, hrule, (parseValues_sound hcommaL hops).expandDots,
      (parseValues_sound hcommaR hres).expandDots⟩
  next => cases h

/-! ### What is printed is a rule -/

theorem mapM_decimal {l : List ℕ} (h : ∀ k ∈ l, k < 10) :
    (l.map Nat.digitChar).mapM P.decimal = some l := by
  induction l with
  | nil => rfl
  | cons k l ih =>
      rw [List.forall_mem_cons] at h
      rw [List.map_cons, List.mapM_cons, P.decimal_digitChar k h.1, ih h.2]
      rfl

theorem int_str {n : ℕ}
    (h : P.intMaxStrDigits = 0 ∨ (str n).length ≤ P.intMaxStrDigits) : P.int (str n) = .ok n := by
  unfold CharClasses.int
  rw [if_neg (by omega)]
  by_cases hn : n = 0
  · have hstr : str n = [0].map Nat.digitChar := by rw [str, if_pos hn]; rfl
    rw [hstr, mapM_decimal (by simp), hn]
    rfl
  · have hstr : str n = (Nat.digits 10 n).reverse.map Nat.digitChar := by rw [str, if_neg hn]
    rw [hstr, mapM_decimal fun k hk =>
      Nat.digits_lt_base (by omega) (List.mem_reverse.mp hk)]
    have hfold : (Nat.digits 10 n).reverse.foldl (fun n k => 10 * n + k) 0 = n := by
      rw [List.foldl_reverse]
      conv_rhs => rw [← Nat.ofDigits_digits 10 n, Nat.ofDigits_eq_foldr]
      refine List.foldr_ext _ _ _ fun k _ m => ?_
      simp [Nat.add_comm]
    simp only [hfold]

theorem str_ne_nil (n : ℕ) : str n ≠ [] := by
  unfold str
  split
  · simp
  · simpa using Nat.digits_ne_nil_iff_ne_zero.mpr ‹_›

theorem endsWord_space (s : List Char) : EndsWord P (' ' :: s) :=
  endsWord_cons (isWord_of_isspace P.space)

theorem names_print {fs : List (List Char)} (h : ∀ f ∈ fs, IsFactor P f) :
    Names P ([' '].intercalate fs) fs := by
  induction fs with
  | nil => exact .nil
  | cons f fs ih =>
      rw [List.forall_mem_cons] at h
      cases fs with
      | nil =>
          have hone : Names P (f ++ []) [f] := .factor h.1 endsWord_nil .nil
          rw [List.intercalate_singleton]
          rwa [List.append_nil] at hone
      | cons g fs =>
          rw [List.intercalate_cons_cons, List.append_assoc]
          exact .factor h.1 (endsWord_space _) (.space P.space (ih h.2))

/-- A factor, or a group, before more of them. -/
theorem items_print_cons {d : Dim P} (hd : ∀ f, d = .factor f → IsFactor P f) {s : List Char}
    {ps : List Part} (hend : EndsWord P s) (h : Items P s ps) :
    Items P (d.part.print ++ s) (d.part :: ps) := by
  cases d with
  | compound c =>
      obtain ⟨hlen, hall⟩ := checkCompound_ok.mp c.checked
      have := Items.group (names_print hall) hlen h
      simpa [Dim.part, Part.print] using this
  | factor f =>
      have hf := hd f rfl
      have hprint : (Part.factor f).print = f := by
        obtain ⟨c, t, rfl, hc, -⟩ := hf
        have hne : c ≠ batching := by
          rintro rfl
          rw [(P.punctuation batching (by decide)).1] at hc
          cases hc
        rw [Part.print, if_neg hne]
      rw [Dim.part, hprint]
      exact .factor hf hend h

/-- What the elements behind the first are printed as. -/
def printRest (parts : List Part) : List Char :=
  if parts.isEmpty then [] else ' ' :: printValue parts

theorem printValue_cons (p : Part) (ps : List Part) :
    printValue (p :: ps) = p.print ++ printRest ps := by
  cases ps with
  | nil => simp [printValue, printRest]
  | cons q ps => simp [printValue, printRest, List.intercalate_cons_cons]

theorem endsWord_printRest (ps : List Part) : EndsWord P (printRest ps) := by
  unfold printRest
  split
  · exact endsWord_nil
  · exact endsWord_space _

theorem items_print {ds : List (Dim P)} (h : ∀ f, Dim.factor f ∈ ds → IsFactor P f) :
    Items P (printValue (ds.map Dim.part)) (ds.map Dim.part) ∧
      Items P (printRest (ds.map Dim.part)) (ds.map Dim.part) := by
  induction ds with
  | nil => exact ⟨.nil, .nil⟩
  | cons d ds ih =>
      obtain ⟨-, hrest⟩ := ih fun f hf => h f (List.mem_cons_of_mem _ hf)
      have hitems : Items P (printValue ((d :: ds).map Dim.part)) ((d :: ds).map Dim.part) := by
        rw [List.map_cons, printValue_cons]
        exact items_print_cons (fun f hf => h f (by rw [hf]; exact List.mem_cons_self))
          (endsWord_printRest _) hrest
      refine ⟨hitems, ?_⟩
      rw [printRest, if_neg (by simp)]
      exact .space P.space hitems

theorem value_print {m : ArrayMapping P} (h : Numbered m) :
    Value P threeDots (printValue m.parts) m.parts := by
  obtain hall | ⟨d, ds, hdims, hd, hall⟩ := checkMapping_zero_ok.mp m.checked
  · exact .items (items_print hall).1
  · cases d with
    | nil => cases hd
    | cons c s =>
        have hc : c = batching := by
          rw [isBatching, Bool.and_eq_true, beq_iff_eq] at hd
          exact hd.1
        subst hc
        obtain ⟨n, rfl, hlimit⟩ := h (.factor (batching :: s)) (by rw [hdims]; rfl) s rfl
        rw [ArrayMapping.parts, hdims, List.map_cons, printValue_cons]
        have hprint : (Dim.factor (batching :: str n) : Dim P).part.print = threeDots ++ str n := by
          rw [Dim.part, Part.print, if_pos rfl]
        rw [hprint, List.append_assoc]
        exact .ellipsis (.digits (str_ne_nil n) (int_str hlimit)) (items_print hall).2

theorem Values.space {c : Char} {s : List Char} {pss : List (List Part)} {dots : List Char}
    (hc : P.isspace c = true) (h : Values P dots s pss) : Values P dots (c :: s) pss := by
  cases h with
  | one h => exact .one (.space hc h)
  | cons h hs => exact .cons (.space hc h) hs

theorem values_print {ms : List (ArrayMapping P)} (hne : ms ≠ [])
    (h : ∀ m ∈ ms, Numbered m) :
    Values P threeDots (printValues (ms.map ArrayMapping.parts))
      (ms.map ArrayMapping.parts) := by
  induction ms with
  | nil => exact absurd rfl hne
  | cons m ms ih =>
      rw [List.forall_mem_cons] at h
      cases ms with
      | nil =>
          have hone : printValues ([m].map ArrayMapping.parts) = printValue m.parts := by
            simp [printValues]
          rw [hone]
          exact .one (value_print h.1)
      | cons m' ms =>
          have hcons : printValues ((m :: m' :: ms).map ArrayMapping.parts) =
              printValue m.parts ++
                ',' :: (' ' :: printValues ((m' :: ms).map ArrayMapping.parts)) := by
            simp [printValues, List.intercalate_cons_cons]
          rw [hcons]
          exact .cons (value_print h.1) ((ih (by simp) h.2).space P.space)

/-- The parser accepts every rule of the grammar and gives what it names; what it accepts, if
no comma is inside of a bracket, is a rule of the grammar that names what it gives; and it
gives back what is printed of mappings whose ellipses are numbered, where each side has one. -/
theorem parseRule_exact (P : CharClasses) :
    (∀ rule pss qss, Rule P threeDots rule pss qss →
      ∃ operands results, operands.map ArrayMapping.parts = pss ∧
        results.map ArrayMapping.parts = qss ∧ parseRule P rule = .ok (operands, results)) ∧
    (∀ rule operands results, ¬ CommaInBracket rule →
      parseRule P rule = .ok (operands, results) →
        Rule P threeDots rule (operands.map ArrayMapping.parts)
          (results.map ArrayMapping.parts)) ∧
    ∀ operands results : List (ArrayMapping P), operands ≠ [] → results ≠ [] →
      (∀ m ∈ operands ++ results, Numbered m) →
        parseRule P (printRule (operands.map ArrayMapping.parts)
          (results.map ArrayMapping.parts)) = .ok (operands, results) := by
  refine ⟨fun _ _ _ h => parseRule_complete h, fun _ _ _ hcomma h => parseRule_sound hcomma h, ?_⟩
  intro operands results hops hres hnum
  obtain ⟨ops, res, hparts, hparts', hparse⟩ := parseRule_complete (P := P)
    ⟨_, _, rfl, values_print hops fun m hm => hnum m (List.mem_append_left _ hm),
      values_print hres fun m hm => hnum m (List.mem_append_right _ hm)⟩
  have hinj : Function.Injective (ArrayMapping.parts (P := P)) := fun _ _ => ArrayMapping.ext_parts
  rw [printRule, hparse, List.map_injective_iff.mpr hinj hparts,
    List.map_injective_iff.mpr hinj hparts']

/-- The characters of ASCII. -/
def asciiClasses : CharClasses where
  isalpha c := decide (65 ≤ c.toNat ∧ c.toNat ≤ 90) || decide (97 ≤ c.toNat ∧ c.toNat ≤ 122)
  isdigit c := decide (48 ≤ c.toNat ∧ c.toNat ≤ 57)
  isspace c := decide (c.toNat = 32) || decide (9 ≤ c.toNat ∧ c.toNat ≤ 13)
  decimal c := if 48 ≤ c.toNat ∧ c.toNat ≤ 57 then some (c.toNat - 48) else none
  intMaxStrDigits := 4300
  not_digit_of_alpha c h := by
    simp only [Bool.or_eq_true, decide_eq_true_iff] at h
    simp only [decide_eq_false_iff_not]
    omega
  not_alpha_of_space c h := by
    simp only [Bool.or_eq_true, decide_eq_true_iff] at h
    simp only [Bool.or_eq_false_iff, decide_eq_false_iff_not]
    omega
  not_digit_of_space c h := by
    simp only [Bool.or_eq_true, decide_eq_true_iff] at h
    simp only [decide_eq_false_iff_not]
    omega
  punctuation c h := by
    simp only [List.mem_cons, List.not_mem_nil, or_false] at h
    rcases h with rfl | rfl | rfl | rfl | rfl | rfl | rfl | rfl <;> decide
  space := by decide
  digit_of_decimal c k h := by
    split at h
    · simpa
    · cases h
  decimal_digitChar := by decide +kernel

/-- No mapping at all is printed like one mapping without dimensions. -/
theorem noMappings_not_given_back :
    ¬ ∀ operands results : List (ArrayMapping asciiClasses),
      parseRule asciiClasses (printRule (operands.map ArrayMapping.parts)
        (results.map ArrayMapping.parts)) = .ok (operands, results) := by
  intro h
  have hempty := h [] []
  have hscalar : Values asciiClasses threeDots [] [[]] := .one (.items .nil)
  obtain ⟨ops, res, hops, -, hparse⟩ :=
    parseRule_complete (P := asciiClasses) ⟨[], [], rfl, hscalar, hscalar⟩
  have hprint : printRule (([] : List (ArrayMapping asciiClasses)).map ArrayMapping.parts)
      (([] : List (ArrayMapping asciiClasses)).map ArrayMapping.parts) = ['-', '>'] := rfl
  rw [hprint] at hempty
  have heq : (Except.ok (ops, res) : Except String _) = .ok ([], []) := hparse.symm.trans hempty
  injection heq with heq
  injection heq with heq
  rw [heq] at hops
  cases hops

end JaxDas.ShardingRule
