import JaxDas.Lib.SortedPairs

/-!
# Symbolic dimensions: the data

A symbolic dimension is a sum of terms with integer coefficients, a term is a
product of factors with positive integer exponents, and a factor is a dimension
variable or one of four operations applied to two symbolic dimensions again. So
the three kinds are one nested inductive type, and everything about them is a
recursion over factors, lists of factors and lists of terms at once.

Dimensions that are known are Python integers, never symbolic expressions; the
one exception is an *operand* of an operation, which `ensurePoly` turns into a
symbolic expression even when it is a constant.

The scope an expression belongs to is not stored in it: everything here is about
the expressions of one scope.
-/

namespace JaxDas.ShapePoly

open SortedPairs

/-- The operations a factor may apply: `FLOORDIV`, `MOD`, `MAX`, `MIN`. -/
inductive Operation where
  | floordiv
  | mod
  | max
  | min
deriving DecidableEq, Repr

/-- The name of an operation, which is also its concrete syntax. -/
def Operation.name : Operation → String
  | .floordiv => "floordiv"
  | .mod => "mod"
  | .max => "max"
  | .min => "min"

/-- `_DimFactor`: a variable, or an operation applied to two expressions. -/
inductive DimFactor where
  | var (v : String)
  | operation (op : Operation) (operand₁ operand₂ : List (List (DimFactor × ℤ) × ℤ))
deriving Repr

/-- `_DimTerm`: factors with their exponents, largest first. The empty term is the constant 1. -/
abbrev DimTerm := List (DimFactor × ℤ)

/-- `_DimExpr`: terms with their coefficients, largest first. -/
abbrev DimExpr := List (DimTerm × ℤ)

/-- `DimSize`: a known size or a symbolic one. -/
inductive DimSize where
  | int (k : ℤ)
  | expr (e : DimExpr)
deriving Repr

/-- The exceptions that the modelled code can end in. -/
inductive PyErr where
  /-- `InconclusiveDimensionOperation`. -/
  | inconclusive (msg : String)
  | valueError (msg : String)
  | notImplementedError (msg : String)
  | assertionError
  | overflowError
  | zeroDivisionError
  | attributeError
  /-- `UnexpectedDimVar`. -/
  | unexpectedDimVar (msg : String)
  /-- The model's own bound on loops and recursion was reached; the code goes on. -/
  | outOfFuel
deriving DecidableEq, Repr

/-- `_DimTerm_one`. -/
def DimTerm.one : DimTerm := []

/-! ## Sizes -/

mutual

/-- `_DimFactor._size`. -/
def DimFactor.size : DimFactor → ℤ
  | .var _ => 1
  | .operation _ e₁ e₂ => 1 + (exprSize e₁ + exprSize e₂)
termination_by structural f => f

/-- `_DimTerm._size`. -/
def termSize : List (DimFactor × ℤ) → ℤ
  | [] => 0
  | (f, fexp) :: fs => (1 + fexp * f.size) + termSize fs
termination_by structural t => t

/-- `_DimExpr._size`. -/
def exprSize : List (List (DimFactor × ℤ) × ℤ) → ℤ
  | [] => 0
  | (t, k) :: ts => (1 + |k| * termSize t) + exprSize ts
termination_by structural e => e

end

/-! ## The syntactic order -/

mutual

/--
`_DimFactor._syntactic_cmp`. A variable has size 1 and an operation at least 3, so
the two mixed cases are always decided by the sizes.
-/
def DimFactor.syntacticCmp : DimFactor → DimFactor → Ordering
  | .var v, .var w => compare v w
  | .var v, .operation op e₁ e₂ =>
      (compare (DimFactor.var v).size (DimFactor.operation op e₁ e₂).size).then .lt
  | .operation op e₁ e₂, .var w =>
      (compare (DimFactor.operation op e₁ e₂).size (DimFactor.var w).size).then .gt
  | .operation op e₁ e₂, .operation op' e₁' e₂' =>
      (compare (DimFactor.operation op e₁ e₂).size (DimFactor.operation op' e₁' e₂').size).then <|
        (compare op.name op'.name).then <|
          ((compare (exprSize e₁) (exprSize e₁')).then (termsCmp e₁ e₁')).then <|
            (compare (exprSize e₂) (exprSize e₂')).then (termsCmp e₂ e₂')
termination_by structural f => f

/-- The sequence comparison of two terms of the same size. -/
def factorsCmp : List (DimFactor × ℤ) → List (DimFactor × ℤ) → Ordering
  | [], [] => .eq
  | [], _ :: _ => .lt
  | _ :: _, [] => .gt
  | (f, n) :: fs, (g, m) :: gs =>
      (f.syntacticCmp g).then <| (compare n m).then (factorsCmp fs gs)
termination_by structural t => t

/-- The sequence comparison of two expressions of the same size. -/
def termsCmp : List (List (DimFactor × ℤ) × ℤ) → List (List (DimFactor × ℤ) × ℤ) → Ordering
  | [], [] => .eq
  | [], _ :: _ => .lt
  | _ :: _, [] => .gt
  | (t, k) :: ts, (u, l) :: us =>
      ((compare (termSize t) (termSize u)).then (factorsCmp t u)).then <|
        (compare k l).then (termsCmp ts us)
termination_by structural e => e

end

/-- `_DimTerm._syntactic_cmp`. -/
def DimTerm.syntacticCmp (t u : DimTerm) : Ordering :=
  (compare (termSize t) (termSize u)).then (factorsCmp t u)

/-- `_DimExpr._syntactic_cmp`. -/
def DimExpr.syntacticCmp (e e' : DimExpr) : Ordering :=
  (compare (exprSize e) (exprSize e')).then (termsCmp e e')

end JaxDas.ShapePoly
