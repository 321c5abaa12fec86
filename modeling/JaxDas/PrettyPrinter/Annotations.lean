import JaxDas.PrettyPrinter.Rows
import JaxDas.PrettyPrinter.Simulates
import Mathlib.Data.Nat.Cast.Order.Ring

/-!
# Annotations

`Sparse` is there to break a group that has a break between two of its annotations, and the
annotations of a line are there to be printed below each other. Neither is what the code does, and
a document is printed as it should be exactly when no line has a second annotation.
-/

namespace JaxDas.PrettyPrinter

variable {S : Type}

/-! ## How a document should be printed -/

inductive Mark where
  | noted
  | brk
deriving DecidableEq

def Token.marks : Token → List Mark
  | text _ annotation => annotation.toList.map fun _ => .noted
  | brk _ => [.brk]

def Doc.marks (doc : Doc S) : List Mark := doc.tokens.flatMap Token.marks

/-- There is a break between two of the annotations. -/
def Doc.Splits (doc : Doc S) : Prop := [Mark.noted, .brk, .noted].Sublist doc.marks

instance (doc : Doc S) : Decidable doc.Splits := inferInstanceAs (Decidable (List.Sublist _ _))

/-- A group is flat when it fits and has no break between two of its annotations. -/
def flatExactly (doc : Doc S) (room : ℤ) : Bool := fitsIn doc room && !decide doc.Splits

/-- The width of the widest row. -/
def widest (rows : List (Row S)) : ℕ := (rows.map fun row => row.chars.length).foldr max 0

/-- A row with its annotations, each on a line of its own and all in one column. -/
def Row.printed (widest : ℕ) (annotationPrefix : Str) (row : Row S) : Str :=
  match row.annotations with
  | [] => row.text
  | annotation :: annotations =>
      ['\n'].intercalate
        ((row.text ++ spaces (widest - row.chars.length) ++ annotationPrefix ++ annotation) ::
          annotations.map fun a => spaces widest ++ annotationPrefix ++ a)

/-- `Format` prints the rows in which the groups are flat that should be, each as it should. -/
def PrintsAsSpecified [DecidableEq S] (doc : Doc S) (width : ℤ) (annotationPrefix : Str)
    (source_map : Option (List (List (SourceRange S)))) : Prop :=
  ∃ st rows, finalState doc width source_map = some st ∧
    layoutRows flatExactly width doc = some rows ∧ st.allLines = rows.map Row.line ∧
    ∀ row ∈ rows, lineString (maxWidth st.allLines) annotationPrefix row.line =
      row.printed (widest rows) annotationPrefix

/-! ## The groups -/

theorem Token.length_marks (token : Token) :
    token.marks.count .noted = token.annotations.length := by
  cases token with
  | text _ annotation => cases annotation <;> rfl
  | brk _ => rfl

/-- A document with a break between two annotations has two. -/
theorem Doc.Splits.two_le {doc : Doc S} (h : doc.Splits) : 2 ≤ doc.annotations.length := by
  have hcount : doc.marks.count .noted = doc.annotations.length := by
    rw [Doc.marks, Doc.annotations, List.count_flatMap, List.length_flatMap]
    exact congrArg List.sum (List.map_congr_left fun token _ => token.length_marks)
  rw [← hcount]
  exact h.count_le .noted

/-- No row has a second annotation. -/
def Out.Single (out : Out S) : Prop := ∀ row ∈ out.allRows, row.annotations.length ≤ 1

section

variable {isFlat : Doc S → ℤ → Bool} {width : ℤ}

theorem Out.newline_single {indent : ℤ} {out out' : Out S} (h : out.newline indent = some out')
    (hnot : ¬ out.Single) : ¬ out'.Single := by
  unfold Out.newline at h
  split at h
  · cases h
  · cases h
    exact fun hsingle => hnot fun row hrow => hsingle row (List.mem_append_left _ hrow)

theorem Out.put_single {text : Str} {annotation_ : Option Str} {source : Option S} {out : Out S}
    (hnot : ¬ out.Single) : ¬ (out.put text annotation_ source).Single := by
  refine fun hsingle => hnot fun row hrow => ?_
  rcases List.mem_append.mp hrow with hrow | hrow
  · exact hsingle row (List.mem_append_left _ hrow)
  · have hle := hsingle _ (List.mem_append_right _ (List.mem_singleton_self _))
    rw [List.mem_singleton.mp hrow]
    rw [Out.put, List.length_append] at hle
    omega

/-- A second annotation stays. -/
theorem layoutAll_single {docs : List (Doc S)} {indent : ℤ} {mode : BreakMode} {source : Option S}
    {out out' : Out S} (h : layoutAll isFlat width docs indent mode source out = some out')
    (hsingle : out'.Single) : out.Single := by
  by_contra hnot
  exact layoutAll_preserves (P := fun out => ¬ out.Single) Out.newline_single docs
    (fun _ _ _ _ => Out.put_single) h hnot hsingle

end

section

variable {width : ℤ}

/-- A group that is flat although it has a break between two annotations has them on one row. -/
theorem flatExactly_eq_fitsIn {child : Doc S} {indent : ℤ} {mode : BreakMode} {source : Option S}
    {out out' : Out S}
    (h : (Doc.group child).layout fitsIn width indent mode source out = some out')
    (hsingle : out'.Single) :
    flatExactly (.group child) (out.room width) = fitsIn (.group child) (out.room width) := by
  unfold flatExactly
  by_cases hsplits : (Doc.group child).Splits
  · cases hfits : fitsIn (.group child) (out.room width) with
    | false => rfl
    | true =>
        have hle : (child.flatWidth : ℤ) ≤ out.room width := of_decide_eq_true hfits
        obtain ⟨chars, hflat, -⟩ := child.layout_flat indent source out hle
        rw [Doc.layout, hfits, if_pos rfl, hflat] at h
        cases h
        have htwo : 2 ≤ child.annotations.length := hsplits.two_le
        have hrow := hsingle _ (List.mem_append_right _ (List.mem_singleton_self _))
        rw [List.length_append] at hrow
        omega
  · rw [decide_eq_false hsplits, Bool.not_false, Bool.and_true]

mutual

/-- Where no row has a second annotation, the groups that fit are those that should be flat. -/
theorem Doc.layout_flatExactly : ∀ (doc : Doc S) {indent : ℤ} {mode : BreakMode}
    {source : Option S} {out out' : Out S},
    doc.layout fitsIn width indent mode source out = some out' → out'.Single →
    doc.layout flatExactly width indent mode source out = some out'
  | .nil, _, _, _, _, _, h, _ => h
  | .text _ _, _, _, _, _, _, h, _ => h
  | .concat children, _, _, _, _, _, h, hsingle => by
      rw [Doc.layout] at h ⊢
      exact layoutAll_flatExactly children h hsingle
  | .brk _, _, .flat, _, _, _, h, _ => h
  | .brk _, _, .brk, _, _, _, h, _ => h
  | .group child, _, _, _, _, _, h, hsingle => by
      have hmode := flatExactly_eq_fitsIn h hsingle
      rw [Doc.layout] at h ⊢
      rw [hmode]
      exact Doc.layout_flatExactly child h hsingle
  | .nest _ child, _, _, _, _, _, h, hsingle => by
      rw [Doc.layout] at h ⊢
      exact Doc.layout_flatExactly child h hsingle
  | .sourceMap child _, _, _, _, _, _, h, hsingle => by
      rw [Doc.layout] at h ⊢
      exact Doc.layout_flatExactly child h hsingle
  | .color child, _, _, _, _, _, h, hsingle => by
      rw [Doc.layout] at h ⊢
      exact Doc.layout_flatExactly child h hsingle

theorem layoutAll_flatExactly : ∀ (docs : List (Doc S)) {indent : ℤ} {mode : BreakMode}
    {source : Option S} {out out' : Out S},
    layoutAll fitsIn width docs indent mode source out = some out' → out'.Single →
    layoutAll flatExactly width docs indent mode source out = some out'
  | [], _, _, _, _, _, h, _ => h
  | doc :: docs, _, _, _, _, _, h, hsingle => by
      rw [layoutAll] at h ⊢
      obtain ⟨out₁, hdoc, hdocs⟩ := Option.bind_eq_some_iff.mp h
      rw [Doc.layout_flatExactly doc hdoc (layoutAll_single hdocs hsingle)]
      exact layoutAll_flatExactly docs hdocs hsingle

end

end

/-! ## The lines -/

theorem maxWidth_eq (rows : List (Row S)) : maxWidth (rows.map Row.line) = widest rows := by
  have hfold : ∀ (rows : List (Row S)) (m : ℕ),
      (rows.map Row.line).foldl (fun m line => max m line.width) (m : ℤ) =
        (max m (widest rows) : ℕ) := by
    intro rows
    induction rows with
    | nil => intro m; simp [widest]
    | cons row rows ih =>
        intro m
        rw [List.map_cons, List.foldl_cons]
        have hstep : max (m : ℤ) (Row.line row).width = (max m row.chars.length : ℕ) := by
          exact (Nat.cast_max m row.chars.length).symm
        rw [hstep, ih, Nat.max_assoc]
        rfl
  have h := hfold rows 0
  rw [Nat.zero_max] at h
  exact h

theorem length_spaces_natCast (n : ℕ) : (spaces n).length = n := by
  rw [spaces, Int.toNat_natCast, List.length_replicate]

theorem intercalate_cons (x : Str) : ∀ xs : List Str,
    ['\n'].intercalate (x :: xs) = x ++ xs.flatMap fun y => '\n' :: y
  | [] => by simp [List.intercalate]
  | y :: ys => by
      rw [List.intercalate_cons_cons, intercalate_cons y ys, List.flatMap_cons]
      simp

/-- The newlines that are missing when the annotations are joined by nothing. -/
theorem length_flatMap_newline (f : Str → Str) : ∀ xs : List Str,
    ((xs.map f).flatMap fun y => '\n' :: y).length = (xs.flatMap f).length + xs.length
  | [] => rfl
  | x :: xs => by
      rw [List.map_cons, List.flatMap_cons, List.flatMap_cons, List.length_append,
        List.length_append, length_flatMap_newline f xs, List.length_cons, List.length_cons]
      omega

/-- A line is printed as it should be when it has no second annotation, and only then: there
is no newline after the first. -/
theorem lineString_eq_printed (widest : ℕ) (annotationPrefix : Str) (row : Row S) :
    lineString widest annotationPrefix row.line = row.printed widest annotationPrefix ↔
      row.annotations.length ≤ 1 := by
  unfold lineString Row.printed Row.line
  dsimp only
  match row.annotations with
  | [] => simp
  | [a] => simp [List.intercalate]
  | a :: b :: annotations =>
      refine iff_of_false (fun h => ?_) (by simp)
      dsimp only at h
      rw [intercalate_cons] at h
      have hlen := congrArg List.length (List.append_cancel_left h)
      rw [length_flatMap_newline, List.length_cons] at hlen
      exact Nat.ne_of_lt (Nat.lt_add_of_pos_right (Nat.succ_pos _)) hlen

/-! ## The condition -/

theorem finalState_rows [DecidableEq S] (doc : Doc S) (width : ℤ)
    (source_map : Option (List (List (SourceRange S)))) :
    (finalState doc width source_map).map FormatState.allLines =
      (layoutRows fitsIn width doc).map (List.map Row.line) := by
  have hsim := finalState_sim doc width source_map
  rw [layoutRows]
  generalize finalState doc width source_map = final at hsim ⊢
  generalize doc.layout fitsIn width 0 .brk none ⟨[], ⟨[], []⟩⟩ = laid at hsim ⊢
  cases hsim with
  | none => rfl
  | some hsim => exact congrArg some hsim.allLines

theorem layoutRows_flatExactly {doc : Doc S} {width : ℤ} {rows : List (Row S)}
    (h : layoutRows fitsIn width doc = some rows)
    (hsingle : ∀ row ∈ rows, row.annotations.length ≤ 1) :
    layoutRows flatExactly width doc = some rows := by
  obtain ⟨out, hout, rfl⟩ := Option.map_eq_some_iff.mp h
  rw [layoutRows, doc.layout_flatExactly hout hsingle]
  rfl

theorem PrintsAsSpecified.single [DecidableEq S] {doc : Doc S} {width : ℤ}
    {annotationPrefix : Str} {source_map : Option (List (List (SourceRange S)))}
    (h : PrintsAsSpecified doc width annotationPrefix source_map) :
    ∃ rows, layoutRows fitsIn width doc = some rows ∧ ∀ row ∈ rows, row.annotations.length ≤ 1 := by
  obtain ⟨st, rows', hst, -, hlines, hprinted⟩ := h
  have hrows := finalState_rows doc width source_map
  rw [hst, Option.map_some] at hrows
  obtain ⟨rows, hfits, heq⟩ := Option.map_eq_some_iff.mp hrows.symm
  refine ⟨rows, hfits, fun row hrow => ?_⟩
  have hmem : row.line ∈ rows'.map Row.line := by
    rw [← hlines, ← heq]
    exact List.mem_map_of_mem hrow
  obtain ⟨row', hrow', hline⟩ := List.mem_map.mp hmem
  have hsame : row'.annotations = row.annotations := congrArg Line.annotations hline
  have hone := hprinted row' hrow'
  rw [hlines, maxWidth_eq, lineString_eq_printed, hsame] at hone
  exact hone

/-- A document is printed as it should be exactly when no row of the layout of the groups that
fit has a second annotation (nor starts to the left of the first column). -/
theorem printsAsSpecified_iff [DecidableEq S] (doc : Doc S) (width : ℤ) (annotationPrefix : Str)
    (source_map : Option (List (List (SourceRange S)))) :
    PrintsAsSpecified doc width annotationPrefix source_map ↔
      ∃ rows, layoutRows fitsIn width doc = some rows ∧
        ∀ row ∈ rows, row.annotations.length ≤ 1 := by
  constructor
  · exact PrintsAsSpecified.single
  · rintro ⟨rows, hfits, hsingle⟩
    have hrows := finalState_rows doc width source_map
    rw [hfits, Option.map_some] at hrows
    obtain ⟨st, hst, hlines⟩ := Option.map_eq_some_iff.mp hrows
    refine ⟨st, rows, hst, layoutRows_flatExactly hfits hsingle, hlines, fun row hrow => ?_⟩
    rw [hlines, maxWidth_eq, lineString_eq_printed]
    exact hsingle row hrow

/-- Two annotations on a line, and a group with a break between two annotations. -/
theorem twoAnnotations_not_printsAsSpecified :
    ¬ PrintsAsSpecified (S := ℕ)
        (.concat [.text ['a'] (some ['x']), .text ['b'] (some ['y'])]) 80 ['#'] none ∧
      ¬ PrintsAsSpecified (S := ℕ)
        (.group (.concat [.text ['a'] (some ['x']), .brk [' '], .text ['b'] (some ['y'])]))
        80 ['#'] none := by
  constructor
  · intro h
    obtain ⟨rows, hrows, hsingle⟩ := h.single
    cases hrows
    exact absurd (hsingle _ (List.mem_singleton_self _)) (by decide)
  · intro h
    obtain ⟨rows, hrows, hsingle⟩ := h.single
    cases hrows
    exact absurd (hsingle _ (List.mem_singleton_self _)) (by decide)

end JaxDas.PrettyPrinter
