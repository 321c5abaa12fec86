import Mathlib.Data.Int.Notation
import Mathlib.Logic.Function.Basic
import JaxDas.Lib.TreeWalk

/-!
# Operations and their attributes

What the serialization of a module reads and writes: names, attributes and the number of the
operands. The other parts of an operation (its results, its location, how the operations below
it are divided into regions and blocks) are kept as they are.
-/

namespace JaxDas.Serde

open PostOrder

inductive IntegerType
  | signless (width : ℕ)
  | signed (width : ℕ)
  | unsigned (width : ℕ)
  | index

def IntegerType.bitWidth : IntegerType → ℕ
  | signless width => width
  | signed width => width
  | unsigned width => width
  | index => 64

/-- `DenseElementsAttr`; a splat has one element, which stands for all. -/
structure DenseElements (α : Type) where
  type : α
  /-- The elements have the type `i1`. -/
  i1 : Bool
  splat : Bool
  raw : List UInt8

/-- `getSplatValue<bool>`: the lowest bit of the byte. -/
def DenseElements.splatValue {α : Type} (e : DenseElements α) : Bool :=
  match e.raw with
  | [] => false
  | byte :: _ => byte.toNat % 2 = 1

/-- The attributes that the rules tell apart. -/
inductive Attribute (α : Type)
  | integer (type : IntegerType) (value : ℤ)
  | denseI32Array (elements : List ℤ)
  | denseI64Array (elements : List ℤ)
  | array (elements : List (Attribute α))
  | denseElements (elements : DenseElements α)
  | other (a : α)

namespace Attribute

variable {α : Type}

/-- `BoolAttr` is an integer attribute of the type `i1`. -/
def bool (b : Bool) : Attribute α := integer (.signless 1) (if b then 1 else 0)

def i32 (x : ℤ) : Attribute α := integer (.signless 32) x

def bool? : Attribute α → Option Bool
  | integer (.signless 1) x => some (x ≠ 0)
  | _ => none

def integer? : Attribute α → Option (IntegerType × ℤ)
  | integer type x => some (type, x)
  | _ => none

def denseI32Array? : Attribute α → Option (List ℤ)
  | denseI32Array xs => some xs
  | _ => none

def array? : Attribute α → Option (List (Attribute α))
  | array xs => some xs
  | _ => none

def denseElements? : Attribute α → Option (DenseElements α)
  | denseElements e => some e
  | _ => none

/-- The value of an attribute: of the byte of an `i1` splat only the lowest bit counts. -/
def value : Attribute α → Attribute α
  | denseElements e =>
      if e.i1 && e.splat then denseElements { e with raw := [if e.splatValue then 1 else 0] }
      else denseElements e
  | a => a

end Attribute

/-- An operation without those below it. `ι` are the values, and `β` is what the
serialization keeps. -/
structure Operation (α β ι : Type) where
  name : String
  operands : List ι
  attrs : String → Option (Attribute α)
  rest : β

namespace Operation

variable {α β ι : Type}

def setAttr (op : Operation α β ι) (name : String) (a : Attribute α) : Operation α β ι :=
  { op with attrs := Function.update op.attrs name (some a) }

def removeAttr (op : Operation α β ι) (name : String) : Operation α β ι :=
  { op with attrs := Function.update op.attrs name none }

/-- The error of an operation whose text begins with its name. -/
def opError (op : Operation α β ι) (text : String) : String :=
  "'" ++ op.name ++ "' op " ++ text

/-- `isa<ModuleOp>` -/
def isModule (op : Operation α β ι) : Bool := op.name = "builtin.module"

@[simp] theorem setAttr_name (op : Operation α β ι) (name : String) (a : Attribute α) :
    (op.setAttr name a).name = op.name := rfl

@[simp] theorem setAttr_operands (op : Operation α β ι) (name : String) (a : Attribute α) :
    (op.setAttr name a).operands = op.operands := rfl

@[simp] theorem setAttr_rest (op : Operation α β ι) (name : String) (a : Attribute α) :
    (op.setAttr name a).rest = op.rest := rfl

@[simp] theorem setAttr_attrs (op : Operation α β ι) (name : String) (a : Attribute α) :
    (op.setAttr name a).attrs = Function.update op.attrs name (some a) := rfl

@[simp] theorem removeAttr_name (op : Operation α β ι) (name : String) :
    (op.removeAttr name).name = op.name := rfl

@[simp] theorem removeAttr_operands (op : Operation α β ι) (name : String) :
    (op.removeAttr name).operands = op.operands := rfl

@[simp] theorem removeAttr_rest (op : Operation α β ι) (name : String) :
    (op.removeAttr name).rest = op.rest := rfl

@[simp] theorem removeAttr_attrs (op : Operation α β ι) (name : String) :
    (op.removeAttr name).attrs = Function.update op.attrs name none := rfl

end Operation

/-- A module: its own attributes, and the operations below it. -/
structure Module (α β ι : Type) where
  attrs : String → Option (Attribute α)
  rest : β
  body : List (LabelTree (Operation α β ι))

/-- All the operations below the module. -/
def Module.operations {α β ι : Type} (m : Module α β ι) : List (Operation α β ι) :=
  postorders m.body

end JaxDas.Serde
