import Mathlib.Data.Nat.Digits.Defs
import JaxDas.Lib.Fallible

/-!
# Factors, compound factors and array mappings

A sharding rule gives every operand and every result of an operation an array mapping: the
factors of its dimensions. The constructors check what they are given.

Strings are lists of characters. What Python knows of a character is a parameter, of which
only what the Unicode tables say of every character of one kind is assumed.
-/

namespace JaxDas.ShardingRule

/-- `str.isalpha`, `str.isdigit` and `str.isspace` of one character, the value of a decimal
digit, and the limit that `int` has for the length of a string (zero for none). -/
structure CharClasses where
  isalpha : Char → Bool
  isdigit : Char → Bool
  isspace : Char → Bool
  decimal : Char → Option ℕ
  intMaxStrDigits : ℕ
  not_digit_of_alpha : ∀ c, isalpha c = true → isdigit c = false
  not_alpha_of_space : ∀ c, isspace c = true → isalpha c = false
  not_digit_of_space : ∀ c, isspace c = true → isdigit c = false
  punctuation : ∀ c ∈ ['(', ')', ',', '_', '.', '-', '>', '…'],
    isalpha c = false ∧ isdigit c = false ∧ isspace c = false
  space : isspace ' ' = true
  digit_of_decimal : ∀ c k, decimal c = some k → isdigit c = true
  decimal_digitChar : ∀ k < 10, decimal (Nat.digitChar k) = some k

namespace CharClasses

variable (P : CharClasses)

/-- `int(s)` of a string of digits, not all of which need be decimal ones. -/
def int (s : List Char) : Except String ℕ :=
  if P.intMaxStrDigits ≠ 0 ∧ P.intMaxStrDigits < s.length then
    .error "Exceeds the limit for integer string conversion"
  else
    match s.mapM P.decimal with
    | none => .error "invalid literal for int() with base 10"
    | some digits => .ok (digits.foldl (fun n k => 10 * n + k) 0)

/-- A letter, a digit or an underscore. -/
def isWord (c : Char) : Bool := c == '_' || P.isdigit c || P.isalpha c

end CharClasses

/-- `str(n)` -/
def str (n : ℕ) : List Char :=
  if n = 0 then ['0'] else (Nat.digits 10 n).reverse.map Nat.digitChar

/-- `BATCHING` -/
def batching : Char := '…'

variable (P : CharClasses)

/-- `_check_factor` -/
def checkFactor : List Char → Except String Unit
  | [] => .error "string index out of range"
  | c :: s =>
      if P.isalpha c = false then
        .error ("Factor names have to start with a letter, but got '" ++ toString c ++ "'")
      else
        match s.find? fun c => !P.isWord c with
        | some c => .error ("Unknown character '" ++ toString c ++ "'")
        | none => .ok ()

/-- `_is_batching` -/
def isBatching : List Char → Bool
  | [] => false
  | c :: s => c == batching && (s.isEmpty || s.all P.isdigit)

/-- The body of the loop in `CompoundFactor.__init__`. -/
def checkCompoundElement (factor : List Char) : Except String Unit :=
  if isBatching P factor then .error "Ellipsis can't be used in a compound factor"
  else checkFactor P factor

/-- `CompoundFactor.__init__` -/
def checkCompound (factors : List (List Char)) : Except String Unit :=
  if factors.length < 2 then .error "A compound factor should contain at least two factors"
  else factors.forM (checkCompoundElement P)

/-- `CompoundFactor`: what its constructor lets through. -/
structure CompoundFactor where
  factors : List (List Char)
  checked : checkCompound P factors = .ok ()

/-- `CompoundFactor(*factors)` -/
def CompoundFactor.new (factors : List (List Char)) : Except String (CompoundFactor P) :=
  match h : checkCompound P factors with
  | .error e => .error e
  | .ok _ => .ok ⟨factors, h⟩

/-- An element of an array mapping. -/
inductive Dim
  | factor (name : List Char)
  | compound (c : CompoundFactor P)

/-- The loop of `ArrayMapping.__init__`, from the index `i` on. -/
def checkMapping : ℕ → List (Dim P) → Except String Unit
  | _, [] => .ok ()
  | i, .compound _ :: dims => checkMapping (i + 1) dims
  | i, .factor d :: dims =>
      if isBatching P d then
        if i ≠ 0 then .error "Ellipsis can only be used at the beginning of a dimension"
        else checkMapping (i + 1) dims
      else checkFactor P d >>= fun _ => checkMapping (i + 1) dims

/-- `ArrayMapping`: what its constructor lets through. -/
structure ArrayMapping where
  dims : List (Dim P)
  checked : checkMapping P 0 dims = .ok ()

/-- `ArrayMapping(*dim_mappings)` -/
def ArrayMapping.new (dims : List (Dim P)) : Except String (ArrayMapping P) :=
  match h : checkMapping P 0 dims with
  | .error e => .error e
  | .ok _ => .ok ⟨dims, h⟩

variable {P}

/-! ### What the checks accept -/

/-- A factor starts with a letter and is made of letters, digits and underscores. -/
def IsFactor (P : CharClasses) (s : List Char) : Prop :=
  ∃ c t, s = c :: t ∧ P.isalpha c = true ∧ ∀ x ∈ t, P.isWord x = true

theorem checkFactor_ok {s : List Char} : checkFactor P s = .ok () ↔ IsFactor P s := by
  cases s with
  | nil => exact ⟨nofun, fun ⟨_, _, h, _⟩ => (nomatch h)⟩
  | cons c s =>
      have hwords : (s.find? fun c => !P.isWord c) = none ↔ ∀ x ∈ s, P.isWord x = true := by
        rw [List.find?_eq_none]
        simp
      simp only [checkFactor]
      by_cases hc : P.isalpha c = true
      · rw [if_neg (by rw [hc]; exact fun h => nomatch h)]
        cases hfind : s.find? fun c => !P.isWord c with
        | none => exact ⟨fun _ => ⟨c, s, rfl, hc, hwords.mp hfind⟩, fun _ => rfl⟩
        | some x =>
            refine ⟨nofun, fun ⟨c', t, h, _, ht⟩ => ?_⟩
            injection h with _ h
            subst h
            rw [hwords.mpr ht] at hfind
            cases hfind
      · rw [Bool.not_eq_true] at hc
        rw [if_pos hc]
        refine ⟨nofun, fun ⟨c', t, h, hc', _⟩ => ?_⟩
        injection h with h
        rw [← h, hc] at hc'
        cases hc'

theorem IsFactor.not_batching {s : List Char} (h : IsFactor P s) : isBatching P s = false := by
  obtain ⟨c, t, rfl, hc, -⟩ := h
  have hne : (c == batching) = false := by
    rw [beq_eq_false_iff_ne]
    rintro rfl
    rw [(P.punctuation batching (by decide)).1] at hc
    cases hc
  rw [isBatching, hne, Bool.false_and]

theorem IsFactor.isWord {s : List Char} (h : IsFactor P s) : ∀ c ∈ s, P.isWord c = true := by
  obtain ⟨c, t, rfl, hc, ht⟩ := h
  intro x hx
  cases hx with
  | head => simp [CharClasses.isWord, hc]
  | tail _ hx => exact ht x hx

theorem checkCompoundElement_ok {s : List Char} :
    checkCompoundElement P s = .ok () ↔ IsFactor P s := by
  unfold checkCompoundElement
  constructor
  · intro h
    split at h
    · cases h
    · exact checkFactor_ok.mp h
  · intro h
    rw [h.not_batching]
    exact checkFactor_ok.mpr h

theorem checkCompound_ok {fs : List (List Char)} :
    checkCompound P fs = .ok () ↔ 2 ≤ fs.length ∧ ∀ f ∈ fs, IsFactor P f := by
  have hall : ∀ fs : List (List Char), fs.forM (checkCompoundElement P) = .ok () ↔
      ∀ f ∈ fs, IsFactor P f := by
    intro fs
    induction fs with
    | nil => exact ⟨fun _ => nofun, fun _ => rfl⟩
    | cons f fs ih =>
        rw [List.forM_eq_forM, List.forM_cons, bind_ok, List.forall_mem_cons, ← ih, ← checkCompoundElement_ok]
        exact ⟨fun ⟨_, h, h'⟩ => ⟨h, h'⟩, fun ⟨h, h'⟩ => ⟨(), h, h'⟩⟩
  unfold checkCompound
  by_cases hlen : fs.length < 2
  · rw [if_pos hlen]
    exact ⟨nofun, fun h => by omega⟩
  · rw [if_neg hlen, hall]
    exact ⟨fun h => ⟨by omega, h⟩, fun h => h.2⟩

theorem CompoundFactor.new_ok {fs : List (List Char)} {c : CompoundFactor P} :
    CompoundFactor.new P fs = .ok c ↔ c.factors = fs := by
  unfold CompoundFactor.new
  constructor
  · intro h
    split at h
    · cases h
    · injection h with h
      rw [← h]
  · rintro rfl
    split
    · next e he => rw [c.checked] at he; cases he
    · rfl

theorem ArrayMapping.new_ok {dims : List (Dim P)} {m : ArrayMapping P} :
    ArrayMapping.new P dims = .ok m ↔ m.dims = dims := by
  unfold ArrayMapping.new
  constructor
  · intro h
    split at h
    · cases h
    · injection h with h
      rw [← h]
  · rintro rfl
    split
    · next e he => rw [m.checked] at he; cases he
    · rfl

/-- From the second element on, the names are factors. -/
theorem checkMapping_succ_ok {i : ℕ} {dims : List (Dim P)} :
    checkMapping P (i + 1) dims = .ok () ↔ ∀ f, Dim.factor f ∈ dims → IsFactor P f := by
  induction dims generalizing i with
  | nil => exact ⟨fun _ => nofun, fun _ => rfl⟩
  | cons d dims ih =>
      cases d with
      | compound c =>
          rw [checkMapping, ih]
          simp
      | factor d =>
          rw [checkMapping]
          by_cases hb : isBatching P d = true
          · rw [if_pos hb, if_pos (by omega)]
            refine ⟨nofun, fun h => ?_⟩
            have := (h d List.mem_cons_self).not_batching
            rw [hb] at this
            cases this
          · rw [if_neg hb, bind_ok]
            simp only [ih, List.mem_cons, Dim.factor.injEq]
            constructor
            · rintro ⟨_, hd, h⟩ f (rfl | hf)
              · exact checkFactor_ok.mp hd
              · exact h f hf
            · intro h
              exact ⟨(), checkFactor_ok.mpr (h d (.inl rfl)), fun f hf => h f (.inr hf)⟩

theorem checkMapping_zero_ok {dims : List (Dim P)} :
    checkMapping P 0 dims = .ok () ↔ (∀ f, Dim.factor f ∈ dims → IsFactor P f) ∨
      ∃ d rest, dims = .factor d :: rest ∧ isBatching P d = true ∧
        ∀ f, Dim.factor f ∈ rest → IsFactor P f := by
  cases dims with
  | nil => exact ⟨fun _ => .inl nofun, fun _ => rfl⟩
  | cons d dims =>
      cases d with
      | compound c =>
          rw [checkMapping, checkMapping_succ_ok]
          simp
      | factor d =>
          rw [checkMapping]
          by_cases hb : isBatching P d = true
          · rw [if_pos hb, if_neg (by omega), checkMapping_succ_ok]
            constructor
            · intro h
              exact .inr ⟨d, dims, rfl, hb, h⟩
            · rintro (h | ⟨d', rest, heq, -, h⟩)
              · exact fun f hf => h f (List.mem_cons_of_mem _ hf)
              · injection heq with _ heq
                exact heq ▸ h
          · rw [if_neg hb, bind_ok]
            simp only [checkMapping_succ_ok]
            constructor
            · rintro ⟨_, hd, h⟩
              refine .inl fun f hf => ?_
              rcases List.mem_cons.mp hf with heq | hf
              · injection heq with heq
                exact heq ▸ checkFactor_ok.mp hd
              · exact h f hf
            · rintro (h | ⟨d', rest, heq, hb', -⟩)
              · exact ⟨(), checkFactor_ok.mpr (h d List.mem_cons_self),
                  fun f hf => h f (List.mem_cons_of_mem _ hf)⟩
              · injection heq with heq
                injection heq with heq
                exact absurd (heq ▸ hb') hb

end JaxDas.ShardingRule
