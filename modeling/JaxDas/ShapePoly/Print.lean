import JaxDas.ShapePoly.Order
import Mathlib.Data.List.Sort

/-!
# Accessors and concrete syntax

The small methods of the three classes, and `__str__`: terms are printed largest
first, so that the constant comes last, and the factors of a term smallest first.
-/

namespace JaxDas.ShapePoly

/-! ## Accessors -/

/-- `_DimFactor.to_var`. -/
def DimFactor.toVar : DimFactor → Option String
  | .var v => some v
  | .operation .. => none

/-- `_DimTerm.to_factor`: the single factor of a term, if it is one. -/
def DimTerm.toFactor : DimTerm → Option DimFactor
  | [(f, fexp)] => if fexp = 1 then some f else none
  | _ => none

/-- `_DimTerm.to_var`. -/
def DimTerm.toVar (t : DimTerm) : Option String := t.toFactor.bind DimFactor.toVar

/-- `_DimTerm.is_constant`. -/
def DimTerm.isConstant (t : DimTerm) : Bool := t.isEmpty

/-- `_DimExpr._leading_term`. The constructor stores an empty sum as `0 * 1`. -/
def DimExpr.leadingTerm : DimExpr → DimTerm × ℤ
  | [] => (DimTerm.one, 0)
  | m :: _ => m

/-- The loop of `_DimExpr._to_single_term`, with the constant and the term seen so far. -/
def toSingleTermLoop (n₁ : ℤ) (found : Option (ℤ × DimTerm)) :
    DimExpr → Option (ℤ × ℤ × DimTerm)
  | [] => found.map fun (n₂, t) => (n₁, n₂, t)
  | (t, k) :: ts =>
      if t.isConstant then toSingleTermLoop k found ts
      else match found with
        | none => toSingleTermLoop n₁ (some (k, t)) ts
        | some _ => none

/-- `_DimExpr._to_single_term`: the expression as `n₁ + n₂ * term`, if it is of that form. -/
def DimExpr.toSingleTerm (e : DimExpr) : Option (ℤ × ℤ × DimTerm) := toSingleTermLoop 0 none e

/-- `_DimExpr._to_constant`. -/
def DimSize.toConstant : DimSize → Option ℤ
  | .int k => some k
  | .expr e => if e.leadingTerm.1.isConstant then some e.leadingTerm.2 else none

/-- `_DimExpr._to_term`. -/
def DimExpr.toTerm : DimExpr → Option DimTerm
  | [(t, k)] => if k = 1 then some t else none
  | _ => none

/-- `_DimExpr._to_var`. -/
def DimExpr.toVar (e : DimExpr) : Option String := e.toTerm.bind DimTerm.toVar

/-- `_ensure_poly`. -/
def DimSize.ensurePoly : DimSize → DimExpr
  | .int k => [(DimTerm.one, k)]
  | .expr e => e

/-! ## Concrete syntax -/

/-- `<` on the `(factor, exponent)` pairs of a term, as `sorted` compares tuples. -/
def factorPairLe (p q : (DimFactor × ℤ) × String) : Bool :=
  ((p.1.1.syntacticCmp q.1.1).then (compare p.1.2 q.1.2)).isLE

/-- `"*".join` over the printed factors, smallest first. -/
def joinFactors (fs : List ((DimFactor × ℤ) × String)) : String :=
  "*".intercalate ((fs.insertionSort fun p q => factorPairLe p q).map Prod.snd)

/-- `_one_term` of `_DimExpr.__str__`, for a term already printed as `s`. -/
def oneTerm (t : DimTerm) (k : ℤ) (s : String) : String :=
  let sgn := if k > 0 then "+" else "-"
  if t.isConstant then
    if |k| ≠ 0 then sgn ++ " " ++ toString |k| else "0"
  else if |k| = 1 then sgn ++ " " ++ s
  else sgn ++ " " ++ toString |k| ++ "*" ++ s

/-- A leading `"+ "` is not printed. -/
def dropPlus (s : String) : String :=
  match s.toList with
  | '+' :: ' ' :: cs => String.ofList cs
  | _ => s

mutual

/-- `_DimFactor.__str__`. -/
def DimFactor.str : DimFactor → String
  | .var v => v
  | .operation op e₁ e₂ =>
      op.name ++ "(" ++ dropPlus (" ".intercalate (termStrs e₁)) ++ ", " ++
        dropPlus (" ".intercalate (termStrs e₂)) ++ ")"
termination_by structural f => f

/-- The factors of a term, each with the text it is printed as. -/
def factorStrs : List (DimFactor × ℤ) → List ((DimFactor × ℤ) × String)
  | [] => []
  | (f, fexp) :: fs =>
      ((f, fexp), if fexp ≠ 1 then f.str ++ "^" ++ toString fexp else f.str) :: factorStrs fs
termination_by structural t => t

/-- The terms of an expression as text, each with its sign. -/
def termStrs : List (List (DimFactor × ℤ) × ℤ) → List String
  | [] => []
  | (t, k) :: ts => oneTerm t k (joinFactors (factorStrs t)) :: termStrs ts
termination_by structural e => e

end

/-- `_DimTerm.__str__`. -/
def DimTerm.str (t : DimTerm) : String := joinFactors (factorStrs t)

/-- `_DimExpr.__str__`. -/
def DimExpr.str (e : DimExpr) : String := dropPlus (" ".intercalate (termStrs e))

/-- `str` of a dimension. -/
def DimSize.str : DimSize → String
  | .int k => toString k
  | .expr e => e.str

example : DimExpr.str [([(.var "b", 1), (.var "a", 2)], -3), ([], 5)] = "- 3*a^2*b + 5" := by
  decide +kernel

end JaxDas.ShapePoly
