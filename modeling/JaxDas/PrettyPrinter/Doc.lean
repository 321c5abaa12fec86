import Mathlib.Algebra.Order.Ring.Int
import Mathlib.Data.List.Basic
import Mathlib.Data.Nat.Notation

/-!
# Documents

The documents of the pretty printer, and the two stack machines that decide whether a group is
printed flat. A string is a list of its chars; colors only matter when they are printed, and a
`ColorDoc` is kept for its child.
-/

namespace JaxDas.PrettyPrinter

abbrev Str := List Char

/-- A document whose sources are of the type `S`. -/
inductive Doc (S : Type) where
  | nil
  | text (text : Str) (annotation_ : Option Str)
  | concat (children : List (Doc S))
  | brk (text : Str)
  | group (child : Doc S)
  | nest (n : ℤ) (child : Doc S)
  | sourceMap (child : Doc S) (source : S)
  | color (child : Doc S)

variable {S : Type}

namespace Doc

mutual

/-- The number of nodes, which is what a stack machine has to visit. -/
def size : Doc S → ℕ
  | nil => 1
  | text _ _ => 1
  | concat children => sizes children + 1
  | brk _ => 1
  | group child => child.size + 1
  | nest _ child => child.size + 1
  | sourceMap child _ => child.size + 1
  | color child => child.size + 1

def sizes : List (Doc S) → ℕ
  | [] => 0
  | doc :: docs => doc.size + sizes docs

end

mutual

def numAnnotations : Doc S → ℕ
  | nil => 0
  | text _ annotation => if annotation.isSome then 1 else 0
  | concat children => totalNumAnnotations children
  | brk _ => 0
  | group child => child.numAnnotations
  | nest _ child => child.numAnnotations
  | sourceMap child _ => child.numAnnotations
  | color child => child.numAnnotations

def totalNumAnnotations : List (Doc S) → ℕ
  | [] => 0
  | child :: children => child.numAnnotations + totalNumAnnotations children

end

theorem sizes_append : ∀ docs docs' : List (Doc S), sizes (docs ++ docs') = sizes docs + sizes docs'
  | [], docs' => by rw [List.nil_append, sizes, Nat.zero_add]
  | doc :: docs, docs' => by rw [List.cons_append, sizes, sizes, sizes_append docs, Nat.add_assoc]

theorem size_pos : ∀ doc : Doc S, 0 < doc.size
  | nil => by simp [size]
  | text _ _ => by simp [size]
  | concat _ => by simp [size]
  | brk _ => by simp [size]
  | group _ => by simp [size]
  | nest _ _ => by simp [size]
  | sourceMap _ _ => by simp [size]
  | color _ => by simp [size]

/-! ## Fits -/

/-- `Doc::Fits`: what is pushed on the agenda, and the width that is left. -/
def fits : Doc S → ℤ → List (Doc S) × ℤ
  | nil, width => ([], width)
  | text t _, width => ([], width - t.length)
  | concat children, width => (children, width)
  | brk t, width => ([], width - t.length)
  | group child, width => ([child], width)
  | nest _ child, width => ([child], width)
  | sourceMap child _, width => ([child], width)
  | color child, width => ([child], width)

theorem sizes_fits (doc : Doc S) (width : ℤ) : sizes (doc.fits width).1 < doc.size := by
  cases doc <;> simp [fits, size, sizes]

/-- The loop of `Fits`. -/
def fitsLoop (agenda : List (Doc S)) (width : ℤ) : Bool :=
  if 0 ≤ width then
    match agenda with
    | [] => true
    | doc :: agenda => fitsLoop ((doc.fits width).1 ++ agenda) (doc.fits width).2
  else false
termination_by sizes agenda
decreasing_by
  rw [sizes_append, sizes]
  have := sizes_fits doc width
  omega

/-- `Fits` -/
def doesFit (doc : Doc S) (width : ℤ) : Bool := fitsLoop [doc] width

mutual

/-- The width of a document on one line. -/
def flatWidth : Doc S → ℕ
  | nil => 0
  | text t _ => t.length
  | concat children => flatWidths children
  | brk t => t.length
  | group child => child.flatWidth
  | nest _ child => child.flatWidth
  | sourceMap child _ => child.flatWidth
  | color child => child.flatWidth

def flatWidths : List (Doc S) → ℕ
  | [] => 0
  | doc :: docs => doc.flatWidth + flatWidths docs

end

theorem flatWidths_append : ∀ docs docs' : List (Doc S),
    flatWidths (docs ++ docs') = flatWidths docs + flatWidths docs'
  | [], docs' => by rw [List.nil_append, flatWidths, Nat.zero_add]
  | doc :: docs, docs' => by
      rw [List.cons_append, flatWidths, flatWidths, flatWidths_append docs, Nat.add_assoc]

/-- A step of `Fits` takes what it counts off the width. -/
theorem flatWidth_fits (doc : Doc S) (width : ℤ) :
    ((doc.fits width).2 : ℤ) - flatWidths (doc.fits width).1 = width - doc.flatWidth := by
  cases doc <;> simp [fits, flatWidth, flatWidths]

theorem fits_le (doc : Doc S) (width : ℤ) : (doc.fits width).2 ≤ width := by
  cases doc <;> simp [fits]

theorem fitsLoop_eq (agenda : List (Doc S)) (width : ℤ) :
    fitsLoop agenda width = decide ((flatWidths agenda : ℤ) ≤ width) := by
  induction agenda, width using fitsLoop.induct with
  | case1 width hw =>
      rw [fitsLoop, if_pos hw]
      simp [flatWidths, hw]
  | case2 width hw doc agenda ih =>
      have hstep := flatWidth_fits doc width
      rw [fitsLoop, if_pos hw, ih, flatWidths_append, flatWidths]
      refine decide_eq_decide.mpr ?_
      push_cast
      omega
  | case3 agenda width hw =>
      rw [fitsLoop.eq_def, if_neg hw]
      refine (decide_eq_false ?_).symm
      omega

/-- A document fits when its flat width does. -/
theorem doesFit_eq (doc : Doc S) (width : ℤ) :
    doc.doesFit width = decide ((doc.flatWidth : ℤ) ≤ width) := by
  rw [doesFit, fitsLoop_eq]
  simp [flatWidths]

/-! ## Sparseness -/

/-- The counters of `Sparse`. -/
structure Sparseness where
  num_annotations : ℤ
  seen_break : Bool

/-- `Doc::Sparse`: what is pushed on the agenda, or nothing where it returns false. -/
def sparse : Doc S → Sparseness → Option (List (Doc S) × Sparseness)
  | nil, st => some ([], st)
  | text _ none, st => some ([], st)
  | text _ (some _), st =>
      if st.num_annotations ≥ 1 ∧ st.seen_break = true then none
      else some ([], { st with num_annotations := st.num_annotations - 1 })
  | concat children, st => some (children, st)
  | brk _, st => some ([], { st with seen_break := true })
  | group child, st => some ([child], st)
  | nest _ child, st => some ([child], st)
  | sourceMap child _, st => some ([child], st)
  | color child, st => some ([child], st)

theorem sizes_sparse {doc : Doc S} {st st' : Sparseness} {docs : List (Doc S)}
    (h : doc.sparse st = some (docs, st')) : sizes docs < doc.size := by
  unfold sparse at h
  split at h
  case h_3 =>
    split at h
    · cases h
    · cases h
      simp [size, sizes]
  all_goals
    cases h
    simp [size, sizes]

/-- The loop of `Sparse`. -/
def sparseLoop (agenda : List (Doc S)) (st : Sparseness) : Bool :=
  match agenda with
  | [] => true
  | doc :: agenda =>
      match _h : doc.sparse st with
      | none => false
      | some (docs, st') => sparseLoop (docs ++ agenda) st'
termination_by sizes agenda
decreasing_by
  rw [sizes_append, sizes]
  have := sizes_sparse _h
  omega

/-- `Sparse` -/
def isSparse (doc : Doc S) : Bool :=
  if doc.numAnnotations = 0 then true else sparseLoop [doc] ⟨0, false⟩

/-- The annotations are counted down from 0, so that no second one is ever seen. -/
theorem sparseLoop_eq_true (agenda : List (Doc S)) (st : Sparseness) (h : st.num_annotations ≤ 0) :
    sparseLoop agenda st = true := by
  induction agenda, st using sparseLoop.induct with
  | case1 st => rw [sparseLoop]
  | case2 st doc agenda hnone =>
      unfold sparse at hnone
      split at hnone
      case h_3 =>
        split at hnone
        · next hc => omega
        · cases hnone
      all_goals cases hnone
  | case3 st doc agenda docs st' hsome ih =>
      have hst : st'.num_annotations ≤ 0 := by
        unfold sparse at hsome
        split at hsome
        case h_3 =>
          split at hsome
          · cases hsome
          · cases hsome
            dsimp only
            omega
        all_goals
          cases hsome
          exact h
      rw [sparseLoop]
      split
      · next hnone => rw [hsome] at hnone; cases hnone
      · next hsome' =>
          rw [hsome] at hsome'
          cases hsome'
          exact ih hst

theorem isSparse_eq_true (doc : Doc S) : doc.isSparse = true := by
  unfold isSparse
  split
  · rfl
  · exact sparseLoop_eq_true _ _ (Int.le_refl 0)

end Doc

end JaxDas.PrettyPrinter
