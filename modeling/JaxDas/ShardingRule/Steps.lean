import JaxDas.ShardingRule.Grammar
import JaxDas.ShardingRule.Parse

/-!
# The parser between two factors

What the rest of a text does where no factor is being read: one lemma for each way in which
it may begin. The text is the one that is given, before its spaces are removed.
-/

namespace JaxDas.ShardingRule

variable {P : CharClasses}

/-! ### Spaces -/

/-- What is left of a text behind a character that is no space. -/
def gap (P : CharClasses) (s : List Char) : List Char :=
  if s.head?.all P.isspace = true ∧ split P s ≠ [] then ' ' :: normalize P s else normalize P s

@[simp] theorem normalize_nil : normalize P [] = [] := rfl

theorem normalize_space {c : Char} {s : List Char} (hc : P.isspace c = true) :
    normalize P (c :: s) = normalize P s := by
  unfold normalize
  rw [split, if_pos hc]

theorem split_ne_nil {c : Char} {s : List Char} (hc : P.isspace c = false) :
    split P (c :: s) ≠ [] := by
  rw [split, if_neg (by rw [hc]; simp)]
  split
  · simp
  · split <;> simp

theorem normalize_cons {c : Char} {s : List Char} (hc : P.isspace c = false) :
    normalize P (c :: s) = c :: gap P s := by
  unfold gap normalize
  rw [split, if_neg (by rw [hc]; simp)]
  by_cases hs : s.head?.all P.isspace = true
  · rw [if_pos hs]
    cases hsplit : split P s with
    | nil => simp
    | cons w ws => rw [if_pos ⟨hs, by simp⟩, List.intercalate_cons_cons]; rfl
  · rw [if_neg hs, if_neg (fun h => hs h.1)]
    cases s with
    | nil => exact absurd rfl hs
    | cons d s =>
        have hd : P.isspace d = false := by simpa using hs
        cases hsplit : split P (d :: s) with
        | nil => exact absurd hsplit (split_ne_nil hd)
        | cons w ws =>
            cases ws with
            | nil => simp
            | cons w' ws => simp [List.intercalate_cons_cons]

theorem gap_nil : gap P [] = [] := by simp [gap, split]

theorem gap_cons {c : Char} {s : List Char} (hc : P.isspace c = false) :
    gap P (c :: s) = c :: gap P s := by
  rw [gap, if_neg (by simp [hc]), normalize_cons hc]

/-- Behind a space there is nothing, or one space. -/
theorem gap_space {c : Char} {s : List Char} (hc : P.isspace c = true) :
    gap P (c :: s) = normalize P s ∧ normalize P s = [] ∨
      gap P (c :: s) = ' ' :: normalize P s := by
  unfold gap
  rw [normalize_space hc, split, if_pos hc]
  cases hsplit : split P s with
  | nil => exact .inl ⟨by simp, by simp [normalize, hsplit]⟩
  | cons w ws => exact .inr (by simp [hc])

/-- Characters that are no spaces stay. -/
theorem gap_append {w s : List Char} (hw : ∀ c ∈ w, P.isspace c = false) :
    gap P (w ++ s) = w ++ gap P s := by
  induction w with
  | nil => rfl
  | cons c w ih =>
      rw [List.cons_append, gap_cons (hw c List.mem_cons_self),
        ih fun x hx => hw x (List.mem_cons_of_mem _ hx), List.cons_append]

/-! ### The loop -/

namespace Reading

variable {st : Reading P} {text : List Char}

theorem loop_nil : loop [] st = .ok st := by rw [loop]

theorem loop_batching {s : List Char} :
    loop (batching :: s) st = st.ellipsis s >>= loop (s.dropWhile P.isdigit) := by
  rw [loop, if_pos rfl]

theorem loop_cons {c : Char} {s : List Char} (hc : c ≠ batching) :
    loop (c :: s) st = st.char c >>= loop s := by
  rw [loop, if_neg hc]

theorem flush_of_none (h : st.currentFactor = none) : st.flush = st := by
  rw [flush, h]

theorem flush_of_some {x : List Char} (h : st.currentFactor = some x) :
    st.flush = { st.addFactor x with currentFactor := none } := by
  rw [flush, h]

@[simp] theorem flush_currentFactor : st.flush.currentFactor = none := by
  cases h : st.currentFactor with
  | none => rw [flush_of_none h, h]
  | some x => rw [flush_of_some h]

@[simp] theorem flush_flush : st.flush.flush = st.flush := flush_of_none flush_currentFactor

theorem addFactor_isSome {x : List Char} :
    (st.addFactor x).currentCompoundDim.isSome = st.currentCompoundDim.isSome := by
  unfold addFactor
  cases st.currentCompoundDim <;> rfl

theorem flush_isSome : st.flush.currentCompoundDim.isSome = st.currentCompoundDim.isSome := by
  cases h : st.currentFactor with
  | none => rw [flush_of_none h]
  | some x =>
      rw [flush_of_some h]
      exact addFactor_isSome

@[simp] theorem finish_flush : finish text st.flush = finish text st := by
  unfold finish
  rw [flush_isSome, flush_flush]
  cases hf : st.currentFactor with
  | none => rw [flush_of_none hf]
  | some x =>
      have hall : st.flush.allValues = st.allValues := by
        rw [flush_of_some hf]
        unfold addFactor
        cases st.currentCompoundDim <;> rfl
      rw [hall]

theorem char_of_mem {c : Char} (h : c ∈ ['(', ')', ',', ' ']) : st.char c = st.flush.separator c :=
  if_pos h

theorem separator_space : st.separator ' ' = .ok st := by
  simp [separator]

theorem separator_open : st.separator '(' =
    match st.currentCompoundDim with
    | some _ => .error
        "Compound factors should be one level, nested brackets are not allowed"
    | none => .ok { st with currentCompoundDim := some [] } :=
  if_pos rfl

theorem separator_close : st.separator ')' =
    match st.currentCompoundDim with
    | none => .error "Brackets are not balanced"
    | some dims =>
        if dims.length ≤ 1 then .error "Brackets should contain at least two factors"
        else CompoundFactor.new P dims >>= fun compound =>
          .ok { st with value := st.value ++ [.compound compound], currentCompoundDim := none } := by
  refine (if_neg (by decide)).trans ((if_pos rfl).trans ?_)
  cases st.currentCompoundDim <;> rfl

theorem separator_comma : st.separator ',' = ArrayMapping.new P st.value >>= fun mapping =>
    .ok { st with allValues := st.allValues ++ [mapping], value := [] } := by
  unfold separator
  rw [if_neg (by decide), if_neg (by decide), if_pos rfl]

/-- A space completes the factor before it. -/
theorem char_space : st.char ' ' = .ok st.flush := by
  rw [char_of_mem (by decide), separator_space]

/-- A factor that is being read excludes the ellipsis, and so does one that is complete. -/
theorem ellipsis_flush {s : List Char} : st.flush.ellipsis s = st.ellipsis s := by
  cases hf : st.currentFactor with
  | none => rw [flush_of_none hf]
  | some x =>
      have hleft : (st.flush.currentFactor.isSome || st.flush.currentCompoundDim.isSome ||
          !st.flush.value.isEmpty) = true := by
        rw [flush_of_some hf]
        unfold addFactor
        cases hc : st.currentCompoundDim <;> simp
      have hright : (st.currentFactor.isSome || st.currentCompoundDim.isSome ||
          !st.value.isEmpty) = true := by
        rw [hf]; rfl
      unfold ellipsis
      rw [if_pos hleft, if_pos hright]

/-- Before something that is in no factor, the factor may as well be complete. -/
theorem char_flush {c : Char} (hc : P.isWord c = false) : st.flush.char c = st.char c := by
  unfold char
  rw [flush_flush, hc]
  rfl

end Reading

open Reading

/-! ### The rest of a text -/

/-- What the parser makes of the rest `s` of a text. -/
def parseFrom (text s : List Char) (st : Reading P) : Except String (List (ArrayMapping P)) :=
  loop (normalize P s) st >>= finish text

variable {text : List Char} {st : Reading P}

theorem loop_gap_flush {s : List Char} (hs : EndsWord P s) :
    loop (gap P s) st >>= finish text = parseFrom text s st.flush := by
  unfold parseFrom
  cases s with
  | nil =>
      rw [gap_nil, normalize_nil, loop_nil, loop_nil, ok_bind, ok_bind, finish_flush]
  | cons c s =>
      cases hc : P.isspace c with
      | true =>
          rw [normalize_space hc]
          obtain ⟨heq, hnil⟩ | heq := gap_space (s := s) hc
          · rw [heq, hnil, loop_nil, loop_nil, ok_bind, ok_bind, finish_flush]
          · rw [heq, loop_cons (by decide), char_space, ok_bind]
      | false =>
          rw [normalize_cons hc, gap_cons hc]
          by_cases hb : c = batching
          · rw [hb, loop_batching, loop_batching, ellipsis_flush]
          · rw [loop_cons hb, loop_cons hb, char_flush (hs c rfl)]

theorem loop_gap {s : List Char} (hst : st.currentFactor = none) :
    loop (gap P s) st >>= finish text = parseFrom text s st := by
  cases s with
  | nil => rw [parseFrom, gap_nil, normalize_nil]
  | cons c s =>
      cases hc : P.isspace c with
      | true =>
          have hend : EndsWord P (c :: s) := endsWord_cons (isWord_of_isspace hc)
          have hgap : loop (gap P (c :: s)) st >>= finish text = parseFrom text (c :: s) st.flush :=
            loop_gap_flush hend
          rwa [flush_of_none hst] at hgap
      | false => rw [parseFrom, normalize_cons hc, gap_cons hc]

theorem parseFrom_nil : parseFrom text [] st = finish text st := by
  rw [parseFrom, normalize_nil, loop_nil, ok_bind]

theorem parseFrom_space {c : Char} {s : List Char} (hc : P.isspace c = true) :
    parseFrom text (c :: s) st = parseFrom text s st := by
  rw [parseFrom, normalize_space hc, parseFrom]

theorem Reading.separator_currentFactor {c : Char} {st' : Reading P}
    (hst : st.currentFactor = none) (h : st.separator c = .ok st') :
    st'.currentFactor = none := by
  unfold separator at h
  split at h
  · cases hc : st.currentCompoundDim with
    | none => rw [hc] at h; injection h with h; rw [← h]; exact hst
    | some dims => rw [hc] at h; cases h
  split at h
  · cases hc : st.currentCompoundDim with
    | none => rw [hc] at h; cases h
    | some dims =>
        rw [hc] at h
        simp only at h
        split at h
        · cases h
        · obtain ⟨compound, _, h⟩ := bind_ok.mp h
          injection h with h
          rw [← h]
          exact hst
  split at h
  · obtain ⟨mapping, _, h⟩ := bind_ok.mp h
    injection h with h
    rw [← h]
    exact hst
  · injection h with h
    rw [← h]
    exact hst

/-- A bracket or a comma. -/
theorem parseFrom_separator {c : Char} {s : List Char} (hc : c ∈ ['(', ')', ','])
    (hst : st.currentFactor = none) :
    parseFrom text (c :: s) st = st.separator c >>= parseFrom text s := by
  have hmem : c ∈ ['(', ')', ',', '_', '.', '-', '>', '…'] := by
    simp only [List.mem_cons, List.not_mem_nil, or_false] at hc ⊢
    tauto
  have hb : c ≠ batching := by
    rintro rfl
    revert hc
    decide
  have hspace : c ∈ ['(', ')', ',', ' '] := by
    simp only [List.mem_cons, List.not_mem_nil, or_false] at hc ⊢
    tauto
  rw [parseFrom, normalize_cons (P.punctuation c hmem).2.2, loop_cons hb, char_of_mem hspace,
    flush_of_none hst]
  cases hsep : st.separator c with
  | error e => rfl
  | ok st' =>
      rw [ok_bind, ok_bind]
      exact loop_gap (separator_currentFactor hst hsep)

theorem ne_batching_of_isWord {c : Char} (hc : P.isWord c = true) : c ≠ batching := by
  rintro rfl
  rw [isWord_punctuation (by decide)] at hc
  cases hc

theorem Reading.char_of_isWord {c : Char} (hc : P.isWord c = true) : st.char c = st.extend c := by
  have hsep : c ∉ ['(', ')', ',', ' '] := by
    intro hmem
    have hnot : P.isWord c = false := by
      by_cases hspace : c = ' '
      · exact hspace ▸ isWord_of_isspace P.space
      · refine isWord_punctuation ?_
        simp only [List.mem_cons, List.not_mem_nil, or_false] at hmem ⊢
        tauto
    rw [hnot] at hc
    cases hc
  rw [Reading.char, if_neg hsep, if_pos hc]

/-- Within a factor. -/
theorem loop_word {w s : List Char} {x : List Char} (hw : ∀ c ∈ w, P.isWord c = true)
    (hst : st.currentFactor = some x) :
    loop (w ++ s) st = loop s { st with currentFactor := some (x ++ w) } := by
  induction w generalizing x st with
  | nil =>
      rw [List.nil_append, List.append_nil, ← hst]
  | cons c w ih =>
      have hc := hw c List.mem_cons_self
      rw [List.cons_append, loop_cons (ne_batching_of_isWord hc), char_of_isWord hc, Reading.extend,
        hst, ok_bind, ih (fun y hy => hw y (List.mem_cons_of_mem _ hy)) rfl, List.append_assoc]
      rfl

/-- A factor, up to its end. -/
theorem parseFrom_word {c : Char} {w s : List Char} (hw : ∀ x ∈ c :: w, P.isWord x = true)
    (hs : EndsWord P s) (hst : st.currentFactor = none) :
    parseFrom text (c :: w ++ s) st =
      if P.isdigit c then
        .error ("Factor names have to start with a letter, but got '" ++ toString c ++ "'")
      else parseFrom text s (st.addFactor (c :: w)) := by
  have hc := hw c List.mem_cons_self
  have hspace : ∀ x ∈ c :: w, P.isspace x = false := fun x hx => isspace_of_isWord (hw x hx)
  rw [parseFrom, List.cons_append, normalize_cons (hspace c List.mem_cons_self),
    gap_append fun x hx => hspace x (List.mem_cons_of_mem _ hx),
    loop_cons (ne_batching_of_isWord hc), char_of_isWord hc, Reading.extend, hst]
  by_cases hd : P.isdigit c = true
  · simp only [if_pos hd]
    rfl
  · simp only [if_neg hd]
    rw [ok_bind, loop_word (fun x hx => hw x (List.mem_cons_of_mem _ hx)) rfl,
      loop_gap_flush hs, flush_of_some rfl]
    unfold addFactor
    cases hcomp : st.currentCompoundDim <;> simp [hst]

theorem parseFrom_factor {f s : List Char} (hf : IsFactor P f) (hs : EndsWord P s)
    (hst : st.currentFactor = none) :
    parseFrom text (f ++ s) st = parseFrom text s (st.addFactor f) := by
  have hw := hf.isWord
  obtain ⟨c, w, rfl, hc, -⟩ := hf
  rw [parseFrom_word hw hs hst, if_neg (by rw [P.not_digit_of_alpha c hc]; simp)]

/-- The ellipsis with the digits behind it. -/
theorem parseFrom_ellipsis {d s : List Char} (hd : ∀ c ∈ d, P.isdigit c = true)
    (hs : ∀ c ∈ s.head?, P.isdigit c = false) (hst : st.currentFactor = none) :
    parseFrom text (batching :: (d ++ s)) st =
      if st.currentCompoundDim.isSome || !st.value.isEmpty then
        .error "Ellipsis can only be used at the beginning of a dimension"
      else
        (if d.isEmpty then .ok 0 else P.int d) >>= fun n =>
          parseFrom text s (st.addFactor (batching :: str n)) := by
  have hbspace : P.isspace batching = false := (P.punctuation batching (by decide)).2.2
  have hdspace : ∀ c ∈ d, P.isspace c = false := by
    intro c hc
    rw [← Bool.not_eq_true]
    intro hsp
    have := hd c hc
    rw [P.not_digit_of_space c hsp] at this
    cases this
  have hhead : ∀ c ∈ (gap P s).head?, P.isdigit c = false := by
    cases s with
    | nil => rw [gap_nil]; intro c hc; cases hc
    | cons x s =>
        cases hx : P.isspace x with
        | true =>
            obtain ⟨heq, hnil⟩ | heq := gap_space (s := s) hx
            · rw [heq, hnil]; intro c hc; cases hc
            · rw [heq]
              intro c hc
              injection hc with hc
              exact hc ▸ P.not_digit_of_space ' ' P.space
        | false =>
            rw [gap_cons hx]
            intro c hc
            exact hs c hc
  have htake : (d ++ gap P s).takeWhile P.isdigit = d ∧
      (d ++ gap P s).dropWhile P.isdigit = gap P s := by
    rw [List.takeWhile_append_of_pos hd, List.dropWhile_append_of_pos hd]
    cases hg : gap P s with
    | nil => simp
    | cons x g =>
        have hx : P.isdigit x = false := hhead x (by rw [hg]; rfl)
        simp [hx]
  rw [parseFrom, normalize_cons hbspace, gap_append hdspace, loop_batching, ellipsis, htake.1,
    htake.2, hst]
  simp only [Option.isSome_none, Bool.false_or]
  by_cases hblock : (st.currentCompoundDim.isSome || !st.value.isEmpty) = true
  · rw [if_pos hblock, if_pos hblock]
    rfl
  · rw [if_neg hblock, if_neg hblock]
    have hnext : ∀ n, loop (gap P s) (st.addFactor (batching :: str n)) >>= finish text =
        parseFrom text s (st.addFactor (batching :: str n)) := by
      intro n
      refine loop_gap ?_
      unfold addFactor
      cases st.currentCompoundDim <;> exact hst
    cases hn : (if d.isEmpty then Except.ok 0 else P.int d) with
    | error e => rfl
    | ok n => exact hnext n

/-- A character that has no meaning. -/
theorem parseFrom_unknown {c : Char} {s : List Char} (hspace : P.isspace c = false)
    (hword : P.isWord c = false) (hc : c ∉ ['(', ')', ',', batching]) :
    parseFrom text (c :: s) st = .error ("Unknown character '" ++ toString c ++ "'") := by
  simp only [List.mem_cons, List.not_mem_nil, or_false, not_or] at hc
  have hsep : c ∉ ['(', ')', ',', ' '] := by
    simp only [List.mem_cons, List.not_mem_nil, or_false, not_or]
    refine ⟨hc.1, hc.2.1, hc.2.2.1, ?_⟩
    rintro rfl
    rw [P.space] at hspace
    cases hspace
  rw [parseFrom, normalize_cons hspace, loop_cons hc.2.2.2, Reading.char, if_neg hsep,
    if_neg (by rw [hword]; simp)]
  rfl

end JaxDas.ShardingRule
