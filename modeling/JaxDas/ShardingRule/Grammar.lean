import JaxDas.ShardingRule.Mapping
import Mathlib.Data.List.Basic

/-!
# The grammar of sharding rules

Which texts are rules, and what they mean: relations between a text and the factors and
compound factors that it names. The ellipsis is a parameter, since the parser replaces its
three dots by one character first.

The other way round, `printRule` writes the mappings down.
-/

namespace JaxDas.ShardingRule

/-- What an element of a value names: a factor (or the ellipsis, with the number of its group),
or the factors of a group. -/
inductive Part
  | factor (name : List Char)
  | group (names : List (List Char))

variable (P : CharClasses)

/-- No factor goes on in this text. -/
def EndsWord (s : List Char) : Prop := ∀ c ∈ s.head?, P.isWord c = false

/-- Factors with spaces between them. -/
inductive Names : List Char → List (List Char) → Prop
  | nil : Names [] []
  | space {c : Char} {s : List Char} {fs : List (List Char)} :
      P.isspace c = true → Names s fs → Names (c :: s) fs
  | factor {f s : List Char} {fs : List (List Char)} :
      IsFactor P f → EndsWord P s → Names s fs → Names (f ++ s) (f :: fs)

/-- Factors and groups of at least two factors. -/
inductive Items : List Char → List Part → Prop
  | nil : Items [] []
  | space {c : Char} {s : List Char} {ps : List Part} :
      P.isspace c = true → Items s ps → Items (c :: s) ps
  | factor {f s : List Char} {ps : List Part} :
      IsFactor P f → EndsWord P s → Items s ps → Items (f ++ s) (.factor f :: ps)
  | group {inner s : List Char} {fs : List (List Char)} {ps : List Part} :
      Names P inner fs → 2 ≤ fs.length → Items s ps →
      Items ('(' :: (inner ++ ')' :: s)) (.group fs :: ps)

/-- The number of a group of leading dimensions; it is zero where none is given. -/
inductive GroupNumber : List Char → ℕ → Prop
  | zero : GroupNumber [] 0
  | digits {d : List Char} {n : ℕ} : d ≠ [] → P.int d = .ok n → GroupNumber d n

variable (dots : List Char)

/-- A value: maybe an ellipsis, then factors and groups. -/
inductive Value : List Char → List Part → Prop
  | items {s : List Char} {ps : List Part} : Items P s ps → Value s ps
  | space {c : Char} {s : List Char} {ps : List Part} :
      P.isspace c = true → Value s ps → Value (c :: s) ps
  | ellipsis {d s : List Char} {n : ℕ} {ps : List Part} :
      GroupNumber P d n → Items P s ps →
      Value (dots ++ (d ++ s)) (.factor (batching :: str n) :: ps)

/-- Values with commas between them. -/
inductive Values : List Char → List (List Part) → Prop
  | one {s : List Char} {ps : List Part} : Value P dots s ps → Values s [ps]
  | cons {s t : List Char} {ps : List Part} {pss : List (List Part)} :
      Value P dots s ps → Values t pss → Values (s ++ ',' :: t) (ps :: pss)

/-- Both sides of the arrow. -/
def Rule (rule : List Char) (operands results : List (List Part)) : Prop :=
  ∃ l r, rule = l ++ '-' :: '>' :: r ∧ Values P dots l operands ∧ Values P dots r results

variable {P}

/-- What an element of a mapping names. -/
def Dim.part : Dim P → Part
  | .factor name => .factor name
  | .compound c => .group c.factors

/-- What a mapping names. -/
def ArrayMapping.parts (m : ArrayMapping P) : List Part := m.dims.map Dim.part

/-- A comma stands between an opening bracket and the next closing one. -/
def CommaInBracket (s : List Char) : Prop :=
  ∃ a b c, s = a ++ '(' :: (b ++ ',' :: c) ∧ ')' ∉ b

/-! ### Writing mappings down -/

/-- The three dots of the text. -/
def threeDots : List Char := ['.', '.', '.']

def Part.print : Part → List Char
  | .factor [] => []
  | .factor (c :: s) => if c = batching then threeDots ++ s else c :: s
  | .group names => '(' :: ([' '].intercalate names ++ [')'])

def printValue (parts : List Part) : List Char := [' '].intercalate (parts.map Part.print)

def printValues (values : List (List Part)) : List Char :=
  [',', ' '].intercalate (values.map printValue)

def printRule (operands results : List (List Part)) : List Char :=
  printValues operands ++ '-' :: '>' :: printValues results

/-- The mapping begins with no ellipsis, or with one whose number is written as `str` writes
it, and is not too long for `int`. -/
def Numbered (m : ArrayMapping P) : Prop :=
  ∀ d ∈ m.dims.head?, ∀ s, d = .factor (batching :: s) →
    ∃ n, s = str n ∧ (P.intMaxStrDigits = 0 ∨ (str n).length ≤ P.intMaxStrDigits)

/-! ### Facts about the grammar -/

theorem ArrayMapping.ext_parts {m m' : ArrayMapping P} (h : m.parts = m'.parts) : m = m' := by
  have hpart : Function.Injective (Dim.part (P := P)) := by
    intro d d' hd
    cases d with
    | factor name =>
        cases d' with
        | factor name' =>
            injection hd with hd
            rw [hd]
        | compound c' => cases hd
    | compound c =>
        cases d' with
        | factor name' => cases hd
        | compound c' =>
            injection hd with hd
            cases c
            cases c'
            cases hd
            rfl
  have hdims : m.dims = m'.dims := List.map_injective_iff.mpr hpart h
  cases m
  cases m'
  cases hdims
  rfl

theorem endsWord_nil : EndsWord P [] := by
  intro c hc
  cases hc

theorem endsWord_cons {c : Char} {s : List Char} (h : P.isWord c = false) :
    EndsWord P (c :: s) := by
  intro x hx
  injection hx with hx
  exact hx ▸ h

theorem isWord_of_isspace {c : Char} (h : P.isspace c = true) : P.isWord c = false := by
  have hne : (c == '_') = false := by
    rw [beq_eq_false_iff_ne]
    rintro rfl
    rw [(P.punctuation '_' (by decide)).2.2] at h
    cases h
  rw [CharClasses.isWord, hne, P.not_digit_of_space c h, P.not_alpha_of_space c h]
  rfl

theorem isspace_of_isWord {c : Char} (h : P.isWord c = true) : P.isspace c = false := by
  rw [← Bool.not_eq_true]
  intro hs
  rw [isWord_of_isspace hs] at h
  cases h

/-- Punctuation other than the underscore is in no factor. -/
theorem isWord_punctuation {c : Char} (h : c ∈ ['(', ')', ',', '.', '-', '>', '…']) :
    P.isWord c = false := by
  have hmem : c ∈ ['(', ')', ',', '_', '.', '-', '>', '…'] := by
    simp only [List.mem_cons, List.not_mem_nil, or_false] at h ⊢
    tauto
  obtain ⟨ha, hd, -⟩ := P.punctuation c hmem
  have hne : (c == '_') = false := by
    rw [beq_eq_false_iff_ne]
    rintro rfl
    revert h
    decide
  rw [CharClasses.isWord, hne, ha, hd]
  rfl

theorem Items.append_space {s : List Char} {ps : List Part} (h : Items P s ps) {c : Char}
    (hc : P.isspace c = true) : Items P (s ++ [c]) ps := by
  induction h with
  | nil => exact .space hc .nil
  | space hs _ ih => exact .space hs ih
  | @factor f s ps hf hend _ ih =>
      rw [List.append_assoc]
      refine .factor hf ?_ ih
      cases s with
      | nil => exact endsWord_cons (isWord_of_isspace hc)
      | cons x s => exact hend
  | group hn hlen _ ih =>
      rw [List.cons_append, List.append_assoc, List.cons_append]
      exact .group hn hlen ih

end JaxDas.ShardingRule
