import JaxDas.PrettyPrinter.Doc

/-!
# Formatting

The loop of `Format` without color. A line break with a negative indentation raises, as there is no
string of a negative length.
-/

namespace JaxDas.PrettyPrinter

variable {S : Type}

inductive BreakMode where
  | flat
  | brk
deriving DecidableEq, Repr

structure FormatAgendum (S : Type) where
  indent : ℤ
  mode : BreakMode
  doc : Doc S
  source : Option S

structure Line where
  text : Str
  width : ℤ
  annotations : List Str
deriving DecidableEq

/-- An entry of a source map: a range of a line and its source. -/
structure SourceRange (S : Type) where
  start : ℤ
  stop : ℤ
  source : S

/-- `FormatState`, without the agenda. -/
structure FormatState (S : Type) where
  width : ℤ
  line_text : Str
  k : ℤ
  line_annotations : List Str
  source_map : Option (List (List (SourceRange S)))
  line_source_map : List (SourceRange S)
  source_start : ℤ
  source : Option S
  lines : List Line

def spaces (n : ℤ) : Str := List.replicate n.toNat ' '

namespace FormatState

/-- The ranges of the line with the open one, if it is not empty. -/
def closeRange (st : FormatState S) : List (SourceRange S) :=
  let pos : ℤ := st.line_text.length
  match st.source with
  | some source =>
      if st.source_start ≠ pos then st.line_source_map ++ [⟨st.source_start, pos, source⟩]
      else st.line_source_map
  | none => st.line_source_map

/-- What is done when an agendum is popped. -/
def switchSource [DecidableEq S] (source : Option S) (st : FormatState S) : FormatState S :=
  if st.source_map.isSome = true ∧ source ≠ st.source then
    { st with
      line_source_map := st.closeRange
      source := source
      source_start := st.line_text.length }
  else st

/-- `TextDoc::Format` -/
def putText (text : Str) (annotation_ : Option Str) (st : FormatState S) : FormatState S :=
  { st with
    line_text := st.line_text ++ text
    line_annotations := st.line_annotations ++ annotation_.toList
    k := st.k + text.length }

/-- `BreakDoc::Format` -/
def putBreak (text : Str) (indent : ℤ) (mode : BreakMode) (st : FormatState S) :
    Option (FormatState S) :=
  match mode with
  | .brk =>
      if indent < 0 then none
      else some { st with
        source_map := st.source_map.map (· ++ [st.closeRange])
        line_source_map := if st.source_map.isSome then [] else st.line_source_map
        source_start := if st.source_map.isSome then indent else st.source_start
        lines := st.lines ++ [⟨st.line_text, st.k, st.line_annotations⟩]
        line_text := List.replicate indent.toNat ' '
        line_annotations := []
        k := indent }
  | .flat => some { st with line_text := st.line_text ++ text, k := st.k + text.length }

/-- How `GroupDoc::Format` decides. -/
def groupMode (doc : Doc S) (st : FormatState S) : BreakMode :=
  if doc.doesFit (st.width - st.k) && doc.isSparse then .flat else .brk

end FormatState

/-- `Doc::Format`: what is pushed on the agenda, and the state. -/
def Doc.format (indent : ℤ) (mode : BreakMode) (doc : Doc S) (st : FormatState S) :
    Option (List (FormatAgendum S) × FormatState S) :=
  match doc with
  | .nil => some ([], st)
  | .text t annotation => some ([], st.putText t annotation)
  | .concat children => some (children.map fun child => ⟨indent, mode, child, st.source⟩, st)
  | .brk t => (st.putBreak t indent mode).map fun st' => ([], st')
  | .group child => some ([⟨indent, st.groupMode (.group child), child, st.source⟩], st)
  | .nest n child => some ([⟨indent + n, mode, child, st.source⟩], st)
  | .sourceMap child source => some ([⟨indent, mode, child, some source⟩], st)
  | .color child => some ([⟨indent, mode, child, st.source⟩], st)

theorem Doc.sizes_format {indent : ℤ} {mode : BreakMode} {doc : Doc S} {st st' : FormatState S}
    {pushed : List (FormatAgendum S)} (h : doc.format indent mode st = some (pushed, st')) :
    Doc.sizes (pushed.map FormatAgendum.doc) < doc.size := by
  cases doc with
  | brk t =>
      obtain ⟨st'', -, heq⟩ := Option.map_eq_some_iff.mp h
      cases heq
      simp [Doc.size, Doc.sizes]
  | concat children =>
      cases h
      rw [List.map_map, Doc.size]
      exact Nat.lt_succ_of_le (Nat.le_of_eq (congrArg Doc.sizes (List.map_id children)))
  | _ =>
      cases h
      simp [Doc.size, Doc.sizes]

variable [DecidableEq S]

/-- The loop of `Format`. -/
def formatLoop (agenda : List (FormatAgendum S)) (st : FormatState S) : Option (FormatState S) :=
  match agenda with
  | [] => some st
  | agendum :: agenda =>
      match _h : agendum.doc.format agendum.indent agendum.mode (st.switchSource agendum.source) with
      | none => none
      | some (pushed, st') => formatLoop (pushed ++ agenda) st'
termination_by Doc.sizes (agenda.map FormatAgendum.doc)
decreasing_by
  rw [List.map_append, Doc.sizes_append, List.map_cons, Doc.sizes]
  have := Doc.sizes_format _h
  omega

/-- The state of `Format` before the lines are joined. -/
def finalState (doc : Doc S) (width : ℤ) (source_map : Option (List (List (SourceRange S)))) :
    Option (FormatState S) :=
  formatLoop [⟨0, .brk, doc, none⟩]
    { width, source_map, line_text := [], k := 0, line_annotations := [], line_source_map := []
      source_start := 0, source := none, lines := [] }

/-- The lines, the last one included. -/
def FormatState.allLines (st : FormatState S) : List Line :=
  st.lines ++ [⟨st.line_text, st.k, st.line_annotations⟩]

/-- How a line is printed with its annotations. -/
def lineString (max_width : ℤ) (annotationPrefix : Str) (line : Line) : Str :=
  match line.annotations with
  | [] => line.text
  | annotation :: annotations =>
      line.text ++ spaces (max_width - line.width) ++ annotationPrefix ++ annotation ++
        annotations.flatMap fun a => spaces max_width ++ annotationPrefix ++ a

def maxWidth (lines : List Line) : ℤ := lines.foldl (fun m line => max m line.width) 0

/-- `Format`: the string, and the source map with what has been appended. -/
def format (doc : Doc S) (width : ℤ) (annotationPrefix : Str)
    (source_map : Option (List (List (SourceRange S)))) :
    Option (Str × Option (List (List (SourceRange S)))) :=
  (finalState doc width source_map).map fun st =>
    (['\n'].intercalate (st.allLines.map (lineString (maxWidth st.allLines) annotationPrefix)),
      st.source_map.map (· ++ [st.closeRange]))

end JaxDas.PrettyPrinter
