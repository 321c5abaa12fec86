import JaxDas.Lib.Fallible
import JaxDas.Lib.Reshape
import Mathlib.Algebra.Order.Ring.Int

/-!
# Einshape equations

`get_einshape_transforms` parses an equation such as `a(bc)->(ba)c` into splits, one transpose and
merges. The names of dimensions are single characters; a group is a list of names.
-/

namespace JaxDas.Einshape

inductive EinshapeError where
  | valueError (msg : String)
  | notImplementedError (msg : String)
  | zeroDivisionError
deriving DecidableEq, Repr

abbrev Group := List Char

/-! ## Parsing -/

/-- `_parse_side`, after the spaces have been removed. The first argument is the group that is
open, as far as it has been read. -/
def parseGroups : Option Group → List Char → Except EinshapeError (List Group)
  | none, [] => .ok []
  | none, '(' :: s => parseGroups (some []) s
  | none, ')' :: _ => .error (.valueError "Unmatched parenthesis")
  | none, c :: s => do
      let groups ← parseGroups none s
      .ok ([c] :: groups)
  | some _, [] => .error (.valueError "Unmatched parenthesis")
  | some group, ')' :: s => do
      let groups ← parseGroups none s
      .ok (group :: groups)
  | some group, c :: s => parseGroups (some (group ++ [c])) s

def parseSide (s : List Char) : Except EinshapeError (List Group) :=
  parseGroups none (s.filter (· ≠ ' '))

/-- `equation.split("->")` -/
def splitArrow : List Char → List (List Char)
  | [] => [[]]
  | '-' :: '>' :: s => [] :: splitArrow s
  | c :: s =>
      match splitArrow s with
      | [] => [[c]]
      | part :: parts => (c :: part) :: parts

def parseEquation (equation : String) : Except EinshapeError (List Group × List Group) :=
  match splitArrow equation.toList with
  | [lhs_str, rhs_str] => do
      let lhs ← parseSide lhs_str
      let rhs ← parseSide rhs_str
      .ok (lhs, rhs)
  | _ => .error (.valueError "Equation must contain exactly one '->'")

/-! ## Sizes -/

/-- A dictionary of sizes. -/
abbrev Sizes := Char → Option ℤ

def Sizes.set (d : Sizes) (name : Char) (n : ℤ) : Sizes :=
  fun c => if c = name then some n else d c

/-- What the loop over the names of a group has found. -/
structure GroupSizes where
  dim_sizes : Sizes
  known_product : ℤ
  unknown_dims : List Char

def addName (sizes : Sizes) (st : GroupSizes) (name : Char) : GroupSizes :=
  match sizes name with
  | some n => { st with
      dim_sizes := st.dim_sizes.set name n, known_product := st.known_product * n }
  | none =>
      match st.dim_sizes name with
      | some n => { st with known_product := st.known_product * n }
      | none => { st with unknown_dims := st.unknown_dims ++ [name] }

/-- A group of one dimension that is split, or of none. -/
def addSplitGroup (sizes dim_sizes : Sizes) (group : Group) (shape_val : ℕ) :
    Except EinshapeError Sizes :=
  let st := group.foldl (addName sizes) ⟨dim_sizes, 1, []⟩
  match st.unknown_dims with
  | [] =>
      if st.known_product ≠ shape_val then
        .error (.valueError
          s!"Size mismatch for group: expected {shape_val}, got {st.known_product}")
      else .ok st.dim_sizes
  | [unknown] =>
      if st.known_product = 0 then .error .zeroDivisionError
      else if (shape_val : ℤ).fmod st.known_product ≠ 0 then
        .error (.valueError
          s!"Cannot split size {shape_val} with known sizes {st.known_product}")
      else .ok (st.dim_sizes.set unknown ((shape_val : ℤ).fdiv st.known_product))
  | _ =>
      .error (.valueError
        s!"Ambiguous split with size {shape_val}. Provide sizes via kwargs.")

/-- The sizes of the names of one left-hand group. -/
def addGroup (sizes dim_sizes : Sizes) (p : Group × ℕ) : Except EinshapeError Sizes :=
  match p with
  | ([name], shape_val) =>
      if dim_sizes name ≠ none ∧ dim_sizes name ≠ some (shape_val : ℤ) then
        .error (.valueError s!"Inconsistent size for {name}")
      else .ok (dim_sizes.set name shape_val)
  | (group, shape_val) => addSplitGroup sizes dim_sizes group shape_val

/-- A right-hand name that is not known yet. -/
def addRhsName (sizes dim_sizes : Sizes) (name : Char) : Except EinshapeError Sizes :=
  if dim_sizes name = none then
    match sizes name with
    | some n => .ok (dim_sizes.set name n)
    | none => .error (.valueError s!"Unknown dimension {name} in RHS")
  else .ok dim_sizes

/-! ## Transforms -/

inductive Transform where
  | splitDims (index : ℕ) (sizes : List ℤ)
  | mergeDims (index count : ℕ)
  | transpose (permutation : List ℕ)
deriving DecidableEq, Repr

/-- Decompose the left-hand side, from `current_idx` on. -/
def splits (dim_sizes : Sizes) : ℕ → List Group → List Transform
  | _, [] => []
  | current_idx, group :: lhs =>
      if group.length > 1 then
        -- every left-hand name has a size by now
        .splitDims current_idx (group.map fun name => (dim_sizes name).getD 0) ::
          splits dim_sizes (current_idx + group.length) lhs
      else splits dim_sizes (current_idx + 1) lhs

/-- Compose the right-hand side. -/
def merges : ℕ → List Group → List Transform
  | _, [] => []
  | current_idx, group :: rhs =>
      if group.length > 1 then
        .mergeDims current_idx group.length :: merges (current_idx + 1) rhs
      else merges (current_idx + 1) rhs

def reorder (lhs_atomic_order rhs_atomic_order : List Char) : List Transform :=
  if lhs_atomic_order ≠ rhs_atomic_order then
    [.transpose (rhs_atomic_order.map fun name => lhs_atomic_order.idxOf name)]
  else []

def getEinshapeTransforms (equation : String) (input_shape : List ℕ) (sizes : Sizes) :
    Except EinshapeError (List Transform) := do
  let (lhs, rhs) ← parseEquation equation
  if lhs.length ≠ input_shape.length then
    .error (.valueError
      s!"Equation LHS has {lhs.length} groups but input has {input_shape.length} dims.")
  else do
    let dim_sizes ← (lhs.zip input_shape).foldlM (addGroup sizes) fun _ => none
    let dim_sizes ← rhs.flatten.foldlM (addRhsName sizes) dim_sizes
    if ¬ (lhs.flatten ⊆ rhs.flatten ∧ rhs.flatten ⊆ lhs.flatten) then
      .error (.notImplementedError
        "Only reordering/splitting/merging supported (no broadcast yet).")
    else
      .ok (splits dim_sizes 0 lhs ++ reorder lhs.flatten rhs.flatten ++ merges 0 rhs)

/-! ## What a transform does -/

namespace Transform

/-- `transform_shape`, for sizes that are not negative. -/
def transformShape (t : Transform) (shape : List ℕ) : List ℕ :=
  match t with
  | splitDims index sizes => shape.take index ++ sizes.map Int.toNat ++ shape.drop (index + 1)
  | mergeDims index count =>
      shape.take index ++ size ((shape.drop index).take count) :: shape.drop (index + count)
  | transpose permutation => pick permutation shape

variable {α : Type}

/-- A transform as `_einshape` carries it out. A reshape to negative sizes, or to another number of
elements, and a transpose by what is no permutation fail. -/
def apply (t : Transform) (x : NdArray α) : Option (NdArray α) :=
  match t with
  | splitDims index sizes =>
      if h : (∀ n ∈ sizes, 0 ≤ n) ∧
          size ((splitDims index sizes).transformShape x.shape) = size x.shape then
        some (x.reshape _ h.2)
      else none
  | mergeDims index count =>
      if h : size ((mergeDims index count).transformShape x.shape) = size x.shape then
        some (x.reshape _ h)
      else none
  | transpose permutation =>
      if h : permutation.Perm (List.range x.shape.length) then some (x.transpose permutation h)
      else none

end Transform

/-- The transforms, one after the other. -/
def applyAll {α : Type} (ts : List Transform) (x : NdArray α) : Option (NdArray α) :=
  ts.foldlM (fun y t => t.apply y) x

end JaxDas.Einshape
