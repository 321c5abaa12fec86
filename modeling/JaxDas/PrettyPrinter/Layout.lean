import JaxDas.PrettyPrinter.Format

/-!
# Layouts

What a document looks like, by recursion: the rows of a layout, with the source of every character,
when a rule says which groups are flat. `Format` computes the layout of the groups that fit
(`finalState_sim`), with ranges for the sources.
-/

namespace JaxDas.PrettyPrinter

variable {S : Type}

/-- A row: its characters, each with the innermost source it is in, and its annotations. The
indentation is in no source. -/
structure Row (S : Type) where
  chars : List (Char × Option S)
  annotations : List Str

def Row.text (row : Row S) : Str := row.chars.map Prod.fst

/-- What has been laid out: the rows that are complete and the one that is not. -/
structure Out (S : Type) where
  rows : List (Row S)
  row : Row S

namespace Out

def allRows (out : Out S) : List (Row S) := out.rows ++ [out.row]

def put (text : Str) (annotation_ : Option Str) (source : Option S) (out : Out S) : Out S :=
  { out with row :=
      ⟨out.row.chars ++ text.map fun c => (c, source), out.row.annotations ++ annotation_.toList⟩ }

/-- A new row. Nothing can be left of the first column. -/
def newline (indent : ℤ) (out : Out S) : Option (Out S) :=
  if indent < 0 then none
  else some ⟨out.rows ++ [out.row], ⟨(spaces indent).map fun c => (c, none), []⟩⟩

/-- The columns that are left. -/
def room (width : ℤ) (out : Out S) : ℤ := width - out.row.chars.length

end Out

section

variable (isFlat : Doc S → ℤ → Bool) (width : ℤ)

mutual

/-- The layout in which a group is flat when `isFlat` says so for the columns that are left. -/
def Doc.layout : Doc S → ℤ → BreakMode → Option S → Out S → Option (Out S)
  | .nil, _, _, _, out => some out
  | .text t annotation, _, _, source, out => some (out.put t annotation source)
  | .concat children, indent, mode, source, out => layoutAll children indent mode source out
  | .brk t, indent, mode, source, out =>
      match mode with
      | .flat => some (out.put t none source)
      | .brk => out.newline indent
  | .group child, indent, _, source, out =>
      child.layout indent (if isFlat (.group child) (out.room width) then .flat else .brk) source out
  | .nest n child, indent, mode, source, out => child.layout (indent + n) mode source out
  | .sourceMap child source, indent, mode, _, out => child.layout indent mode (some source) out
  | .color child, indent, mode, source, out => child.layout indent mode source out

def layoutAll : List (Doc S) → ℤ → BreakMode → Option S → Out S → Option (Out S)
  | [], _, _, _, out => some out
  | doc :: docs, indent, mode, source, out =>
      (doc.layout indent mode source out).bind (layoutAll docs indent mode source)

end

/-- The rows of a document. -/
def layoutRows (doc : Doc S) : Option (List (Row S)) :=
  (doc.layout isFlat width 0 .brk none ⟨[], ⟨[], []⟩⟩).map Out.allRows

end

/-- A group is flat when it fits. -/
def fitsIn (doc : Doc S) (room : ℤ) : Bool := decide ((doc.flatWidth : ℤ) ≤ room)

/-! ## The loop, by recursion -/

variable [DecidableEq S]

mutual

/-- What the loop of `Format` does until it is done with a document. -/
def Doc.run : Doc S → ℤ → BreakMode → Option S → FormatState S → Option (FormatState S)
  | .nil, _, _, source, st => some (st.switchSource source)
  | .text t annotation, _, _, source, st => some ((st.switchSource source).putText t annotation)
  | .concat children, indent, mode, source, st =>
      runAll children indent mode (st.switchSource source).source (st.switchSource source)
  | .brk t, indent, mode, source, st => (st.switchSource source).putBreak t indent mode
  | .group child, indent, _, source, st =>
      child.run indent ((st.switchSource source).groupMode (.group child))
        (st.switchSource source).source (st.switchSource source)
  | .nest n child, indent, mode, source, st =>
      child.run (indent + n) mode (st.switchSource source).source (st.switchSource source)
  | .sourceMap child source', indent, mode, source, st =>
      child.run indent mode (some source') (st.switchSource source)
  | .color child, indent, mode, source, st =>
      child.run indent mode (st.switchSource source).source (st.switchSource source)

def runAll : List (Doc S) → ℤ → BreakMode → Option S → FormatState S → Option (FormatState S)
  | [], _, _, _, st => some st
  | doc :: docs, indent, mode, source, st =>
      (doc.run indent mode source st).bind (runAll docs indent mode source)

end

/-- An agendum, and what it pushes. -/
def FormatAgendum.run (a : FormatAgendum S) (st : FormatState S) : Option (FormatState S) :=
  a.doc.run a.indent a.mode a.source st

theorem foldlM_children (indent : ℤ) (mode : BreakMode) (source : Option S) :
    ∀ (children : List (Doc S)) (st : FormatState S),
      (children.map fun child => (⟨indent, mode, child, source⟩ : FormatAgendum S)).foldlM
        (fun st a => a.run st) st = runAll children indent mode source st
  | [], _ => rfl
  | child :: children, st => by
      rw [List.map_cons, List.foldlM_cons, runAll]
      refine congrArg (Option.bind _) (funext fun st' => ?_)
      exact foldlM_children indent mode source children st'

theorem foldlM_child (indent : ℤ) (mode : BreakMode) (child : Doc S) (source : Option S)
    (st : FormatState S) :
    [(⟨indent, mode, child, source⟩ : FormatAgendum S)].foldlM (fun st a => a.run st) st =
      child.run indent mode source st := by
  rw [List.foldlM_cons]
  exact bind_pure _

/-- A step and what it pushes are a run. -/
theorem run_eq_format (a : FormatAgendum S) (st : FormatState S) :
    a.run st = (a.doc.format a.indent a.mode (st.switchSource a.source)).bind fun p =>
      p.1.foldlM (fun st a => a.run st) p.2 := by
  obtain ⟨indent, mode, doc, source⟩ := a
  cases doc with
  | concat children =>
      rw [Doc.format, Option.bind_some, foldlM_children]
      rw [FormatAgendum.run, Doc.run]
  | brk t =>
      rw [FormatAgendum.run, Doc.run, Doc.format]
      cases (st.switchSource source).putBreak t indent mode <;> rfl
  | nil =>
      rw [FormatAgendum.run, Doc.run]
      rfl
  | text t annotation =>
      rw [FormatAgendum.run, Doc.run]
      rfl
  | group child =>
      rw [FormatAgendum.run, Doc.run, Doc.format, Option.bind_some, foldlM_child]
  | nest n child =>
      rw [FormatAgendum.run, Doc.run, Doc.format, Option.bind_some, foldlM_child]
  | sourceMap child source' =>
      rw [FormatAgendum.run, Doc.run, Doc.format, Option.bind_some, foldlM_child]
  | color child =>
      rw [FormatAgendum.run, Doc.run, Doc.format, Option.bind_some, foldlM_child]

/-- The loop runs the agenda in turn. -/
theorem formatLoop_eq (agenda : List (FormatAgendum S)) (st : FormatState S) :
    formatLoop agenda st = agenda.foldlM (fun st a => a.run st) st := by
  induction agenda, st using formatLoop.induct with
  | case1 st => rw [formatLoop]; rfl
  | case2 st a agenda hnone =>
      rw [List.foldlM_cons, run_eq_format, hnone, formatLoop]
      split
      · rfl
      · next hsome => rw [hnone] at hsome; cases hsome
  | case3 st a agenda pushed st' hsome ih =>
      rw [List.foldlM_cons, run_eq_format, hsome, formatLoop]
      split
      · next hnone => rw [hsome] at hnone; cases hnone
      · next hsome' =>
          rw [hsome] at hsome'
          cases hsome'
          rw [ih, List.foldlM_append]
          rfl

end JaxDas.PrettyPrinter
