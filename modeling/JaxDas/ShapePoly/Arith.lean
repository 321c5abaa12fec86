import JaxDas.ShapePoly.Print

/-!
# Symbolic arithmetic

Every operation ends in `normalizeSortedTerms`, which applies at most *one*
equality rule of the scope. The arguments called `rules` are the scope's
`_normalization_rules`: an explicit constraint `t * tk == e` is kept as the
entry `(t, (e, tk))`.

Division is the only operation with a loop of its own and the only one that can
fail. Its loop is bounded here by fuel; nothing in the source bounds it.
-/

namespace JaxDas.ShapePoly

open SortedPairs

/-- `NormalizationRules`. -/
abbrev NormalizationRules := List (DimTerm × (DimExpr × ℤ))

/-- `_normalization_rules.get(t)`. -/
def NormalizationRules.get (rules : NormalizationRules) (t : DimTerm) : Option (DimExpr × ℤ) :=
  (rules.find? fun r => r.1 = t).map Prod.snd

/-- `_linear_combination_sorted_pairs` on terms: `e₁ * f₁ + e₂ * f₂`. -/
abbrev combineTerms (f₁ f₂ : ℤ) (e₁ e₂ : DimExpr) : DimExpr :=
  merge DimTerm.syntacticCmp f₁ f₂ e₁ e₂

/-- `_DimTerm.mul`. -/
def DimTerm.mul (t u : DimTerm) : DimTerm := merge DimFactor.syntacticCmp 1 1 t u

/-- The factors of `t / divisor`, with whatever exponents come out. -/
def DimTerm.quotient (t divisor : DimTerm) : DimTerm :=
  merge DimFactor.syntacticCmp 1 (-1) t divisor

/-- `_DimTerm.divide`: raises unless the quotient is a term. -/
def DimTerm.divide (t divisor : DimTerm) : Except PyErr DimTerm :=
  if (t.quotient divisor).all fun m => 0 < m.2 then .ok (t.quotient divisor)
  else .error (.inconclusive ("Cannot divide " ++ t.str ++ " by " ++ divisor.str ++ "."))

/-! ## Normalization -/

/-- The second half of `_normalize_term`: look the factors of `t` up one by one. -/
def normalizeFactors (rules : NormalizationRules) (t : DimTerm) (tk : ℤ) :
    List (DimFactor × ℤ) → List (DimTerm × ℤ)
  | [] => []
  | f :: fs =>
      match rules.get [f] with
      | none => normalizeFactors rules t tk fs
      | some (after, k) =>
          if tk.fmod k = 0 then
            (t, -tk) :: after.map fun m => (m.1.mul (t.quotient [f]), m.2 * tk.fdiv k)
          else normalizeFactors rules t tk fs

/--
`_normalize_term`: what to add to an expression containing `(t, tk)` so that an
equality rule is applied to it, or nothing when no rule fires.
-/
def normalizeTerm (rules : NormalizationRules) (t : DimTerm) (tk : ℤ) : List (DimTerm × ℤ) :=
  let byFactor := if t.length ≤ 1 then [] else normalizeFactors rules t tk t
  match rules.get t with
  | none => byFactor
  | some (after, k) =>
      if tk.fmod k = 0 then (t, -tk) :: after.map fun m => (m.1, m.2 * tk.fdiv k)
      else byFactor

/-- The updates for the first term that has any: only one rule is applied. -/
def firstUpdates (rules : NormalizationRules) : List (DimTerm × ℤ) → List (DimTerm × ℤ)
  | [] => []
  | (t, tk) :: ts =>
      match normalizeTerm rules t tk with
      | [] => firstUpdates rules ts
      | updates => updates

/-- `coeffs[t] = coeffs.get(t, 0) + coeff` on a dictionary kept as a list of its items. -/
def dictAdd (t : DimTerm) (coeff : ℤ) : List (DimTerm × ℤ) → List (DimTerm × ℤ)
  | [] => [(t, coeff)]
  | (u, k) :: rest => if u = t then (u, k + coeff) :: rest else (u, k) :: dictAdd t coeff rest

/-- `_add_coeff`. -/
def addCoeff (coeffs : List (DimTerm × ℤ)) (m : DimTerm × ℤ) : List (DimTerm × ℤ) :=
  if m.2 = 0 then coeffs else dictAdd m.1 m.2 coeffs

/-- `_coeff_to_sorted_terms`: the items with a non-zero coefficient, largest key first. -/
def coeffToSortedTerms (coeffs : List (DimTerm × ℤ)) : DimExpr :=
  (coeffs.filter fun m => m.2 ≠ 0).insertionSort fun m n => (m.1.syntacticCmp n.1).isGE

/-- The terms after at most one rule. The keys of `terms` are distinct, so it is its own `dict`. -/
def normalizedTerms (rules : NormalizationRules) (terms : DimExpr) : DimExpr :=
  match firstUpdates rules terms with
  | [] => terms
  | updates => coeffToSortedTerms (updates.foldl addCoeff terms)

/-- The end of `_normalize_sorted_terms`: a constant sum is an integer. -/
def ofSortedTerms : DimExpr → DimSize
  | [] => .int 0
  | (t, k) :: ts => if t.isConstant then .int k else .expr ((t, k) :: ts)

/-- `_normalize_sorted_terms`, for `terms` without zero coefficients. -/
def normalizeSortedTerms (rules : NormalizationRules) (terms : DimExpr) : DimSize :=
  ofSortedTerms (normalizedTerms rules terms)

/-! ## Constructors -/

/-- `_DimExpr._from_term`. -/
def fromTerm (rules : NormalizationRules) (t : DimTerm) (tk : ℤ) : DimSize :=
  normalizeSortedTerms rules [(t, tk)]

/-- `_DimExpr._from_var`. -/
def fromVar (rules : NormalizationRules) (v : String) : DimSize :=
  normalizeSortedTerms rules [([(.var v, 1)], 1)]

/-- `_DimExpr._from_operation`. -/
def fromOperation (rules : NormalizationRules) (op : Operation) (d₁ d₂ : DimSize) : DimSize :=
  fromTerm rules [(.operation op d₁.ensurePoly d₂.ensurePoly, 1)] 1

/-! ## Sums and products -/

/-- The terms of a second summand: a zero has none. -/
def DimSize.summand : DimSize → DimExpr
  | .int k => if k = 0 then [] else [(DimTerm.one, k)]
  | .expr e => e

/-- `_DimExpr._linear_combination`: `d₁ * k₁ + d₂ * k₂`. -/
def linearCombination (rules : NormalizationRules) (d₁ : DimSize) (k₁ : ℤ) (d₂ : DimSize)
    (k₂ : ℤ) : DimSize :=
  match d₁, d₂ with
  | .int a, .int b => .int (a * k₁ + b * k₂)
  | d₁, d₂ => normalizeSortedTerms rules (combineTerms k₁ k₂ d₁.ensurePoly d₂.summand)

namespace DimSize

variable (rules : NormalizationRules)

/-- `d₁ + d₂`: `__add__`, `__radd__`. -/
def add : DimSize → DimSize → DimSize
  | .int a, .int b => .int (a + b)
  | .expr e, .int b => if b = 0 then .expr e else linearCombination rules (.expr e) 1 (.int b) 1
  | .int a, .expr e => if a = 0 then .expr e else linearCombination rules (.expr e) 1 (.int a) 1
  | .expr e₁, .expr e₂ => linearCombination rules (.expr e₁) 1 (.expr e₂) 1

/-- `d₁ - d₂`: `__sub__`, `__rsub__`. -/
def sub : DimSize → DimSize → DimSize
  | .int a, .int b => .int (a - b)
  | .expr e, .int b =>
      if b = 0 then .expr e else linearCombination rules (.expr e) 1 (.int b) (-1)
  | .int a, .expr e => linearCombination rules (.expr e) (-1) (.int a) 1
  | .expr e₁, .expr e₂ => linearCombination rules (.expr e₁) 1 (.expr e₂) (-1)

/-- `-d`: `__neg__`. -/
def neg : DimSize → DimSize
  | .int a => .int (-a)
  | .expr e => linearCombination rules (.expr e) (-1) (.int 0) 0

/-- The coefficients of a product, collected pair by pair. -/
def productCoeffs (e₁ e₂ : DimExpr) : List (DimTerm × ℤ) :=
  (e₁.flatMap fun m₁ => e₂.map fun m₂ => (m₁.1.mul m₂.1, m₁.2 * m₂.2)).foldl addCoeff []

/-- The product of two expressions. -/
def mulExpr (e₁ e₂ : DimExpr) : DimSize :=
  normalizeSortedTerms rules (coeffToSortedTerms (productCoeffs e₁ e₂))

/-- The product of an expression and a Python `int`. -/
def mulInt (e : DimExpr) (k : ℤ) : DimSize :=
  if k = 1 then .expr e
  else if k = 0 then .int 0
  else linearCombination rules (.expr e) k (.int 0) 0

/-- `d₁ * d₂`: `__mul__`, `__rmul__`. -/
def mul : DimSize → DimSize → DimSize
  | .int a, .int b => .int (a * b)
  | .expr e, .int k => mulInt rules e k
  | .int k, .expr e => mulInt rules e k
  | .expr e₁, .expr e₂ => mulExpr rules e₁ e₂

/-- `d ** n` for `n >= 0`: `functools.reduce(op.mul, [d] * n, 1)`. -/
def pow (d : DimSize) : ℕ → DimSize
  | 0 => .int 1
  | n + 1 => (pow d n).mul rules d

/-- `_DimExpr.__eq__`, and `int.__eq__` with an expression on the right. -/
def eq : DimSize → DimSize → Bool
  | .int a, .int b => a = b
  | .expr e, d =>
      match sub rules (.expr e) d with
      | .int k => k = 0
      | .expr _ => false
  | d, .expr e =>
      match sub rules (.expr e) d with
      | .int k => k = 0
      | .expr _ => false

end DimSize

/-! ## Division -/

/--
The loop of `_divmod`. It stops when the running dividend is a constant, and raises
when a leading term does not divide; otherwise it subtracts a multiple of the divisor.
-/
def divmodLoop (rules : NormalizationRules) (divisor : DimSize) :
    ℕ → DimSize → DimSize → Except PyErr (ℤ × DimSize)
  | 0, _, _ => .error .outOfFuel
  | fuel + 1, dividend, quotient =>
      match dividend.toConstant, dividend with
      | some c, _ => .ok (c, quotient)
      | none, .int c => .ok (c, quotient)
      | none, .expr e => do
          let (mon, count) := e.leadingTerm
          let (qterm, dcount) ← match divisor with
            | .expr d => do
                let (dterm, dcount) := d.leadingTerm
                let qterm ← mon.divide dterm
                .ok (qterm, dcount)
            | .int k => .ok (mon, k)
          if dcount = 0 then .error .zeroDivisionError
          else if count.fmod dcount ≠ 0 then .error (.inconclusive "")
          else
            let q := fromTerm rules qterm (count.fdiv dcount)
            divmodLoop rules divisor fuel (dividend.sub rules (q.mul rules divisor))
              (quotient.add rules q)

/-- What `_divmod` returns when polynomial division gives up: the two factors themselves. -/
def divmodFactors (rules : NormalizationRules) (e : DimExpr) (divisor : DimSize) :
    DimSize × DimSize :=
  (fromOperation rules .floordiv (.expr e) divisor, fromOperation rules .mod (.expr e) divisor)

/-- `_DimExpr._divmod`. -/
def divmod (rules : NormalizationRules) (fuel : ℕ) (e : DimExpr) (divisor : DimSize) :
    Except PyErr (DimSize × DimSize) :=
  match divmodLoop rules divisor fuel (.expr e) (.int 0) with
  | .ok (c, quotient) =>
      match divisor with
      | .expr _ =>
          if c ≠ 0 then .ok (divmodFactors rules e divisor) else .ok (quotient, .int 0)
      | .int k =>
          if k = 0 then .error .zeroDivisionError
          else .ok (quotient.add rules (.int (c.fdiv k)), .int (c.fmod k))
  | .error (.inconclusive _) => .ok (divmodFactors rules e divisor)
  | .error err => .error err

/-- `divmod(d₁, d₂)`: `__divmod__`, `__rdivmod__`, and Python's own on integers. -/
def DimSize.divmod (rules : NormalizationRules) (fuel : ℕ) :
    DimSize → DimSize → Except PyErr (DimSize × DimSize)
  | .int a, .int b =>
      if b = 0 then .error .zeroDivisionError else .ok (.int (a.fdiv b), .int (a.fmod b))
  | .int a, .expr e => ShapePoly.divmod rules fuel (DimSize.int a).ensurePoly (.expr e)
  | .expr e, d => ShapePoly.divmod rules fuel e d

/-- `d₁ // d₂`. -/
def DimSize.floordiv (rules : NormalizationRules) (fuel : ℕ) (d₁ d₂ : DimSize) :
    Except PyErr DimSize := (d₁.divmod rules fuel d₂).map Prod.fst

/-- `d₁ % d₂`. -/
def DimSize.mod (rules : NormalizationRules) (fuel : ℕ) (d₁ d₂ : DimSize) :
    Except PyErr DimSize := (d₁.divmod rules fuel d₂).map Prod.snd

end JaxDas.ShapePoly
