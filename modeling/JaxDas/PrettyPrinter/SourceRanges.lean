import JaxDas.PrettyPrinter.Rows
import JaxDas.PrettyPrinter.Simulates

/-!
# The source map

What `Format` appends to the list it is given: the ranges of every line, which have the characters
of each source and no others.
-/

namespace JaxDas.PrettyPrinter

variable {S : Type}

theorem lineString_eq_text (max_width : ℤ) (annotationPrefix : Str) {row : Row S}
    (h : row.annotations = []) : lineString max_width annotationPrefix row.line = row.text := by
  unfold lineString Row.line
  rw [h]

/-- When the loop is done, every row has its ranges. -/
theorem Sim.finish {previous : List (List (SourceRange S))} {width : ℤ} {st : FormatState S}
    {out : Out S} (h : Sim true previous width st out) :
    ∃ entries, st.source_map.map (· ++ [st.closeRange]) = some (previous ++ entries) ∧
      List.Forall₂ Attributes entries (out.allRows.map Row.chars) := by
  obtain ⟨source_map, hsome⟩ := Option.isSome_iff_exists.mp h.map_given
  obtain ⟨entries, rfl, hentries⟩ := h.entries _ hsome
  refine ⟨entries ++ [st.closeRange], ?_, ?_⟩
  · rw [hsome, Option.map_some, List.append_assoc]
  · rw [Out.allRows, List.map_append]
    exact List.rel_append hentries (.cons (h.closeRange rfl) .nil)

/-- Without annotations and newlines in the texts there are none in the rows. -/
theorem plain_rows {isFlat : Doc S → ℤ → Bool} {width : ℤ} {doc : Doc S}
    (hplain : doc.numAnnotations = 0) (hlines : ∀ token ∈ doc.tokens, '\n' ∉ token.str)
    {out : Out S} (h : doc.layout isFlat width 0 .brk none ⟨[], ⟨[], []⟩⟩ = some out) :
    ∀ row ∈ out.allRows, row.annotations = [] ∧ '\n' ∉ row.text := by
  have hnone : ∀ token ∈ doc.tokens, token.annotations = [] := by
    rw [← doc.length_annotations, List.length_eq_zero_iff] at hplain
    exact List.flatMap_eq_nil_iff.mp hplain
  refine Doc.rows_preserve (fun indent => ⟨rfl, ?_⟩) ?_ h ?_
  · simp [Row.text, spaces]
  · rintro token htoken source out ⟨hannotations, htext⟩
    refine ⟨?_, ?_⟩
    · rw [hnone token htoken]
      simp [Out.put, hannotations]
    · have := hlines token htoken
      simp only [Row.text, Out.put, List.map_append, List.map_map, List.mem_append, not_or]
      refine ⟨htext, ?_⟩
      simpa using this
  · intro row hrow
    rw [List.mem_singleton.mp hrow]
    exact ⟨rfl, List.not_mem_nil⟩

variable [DecidableEq S]

/-- The source map attributes every character: of a document that has no annotation, no newline in
a text and no nest to the left, the lines are the rows of the layout, and for every line there is
an entry of ranges that have the characters of each source. -/
theorem format_attributes {doc : Doc S} (hplain : doc.numAnnotations = 0)
    (hlines : ∀ token ∈ doc.tokens, '\n' ∉ token.str) (hnest : doc.NestsRight) (width : ℤ)
    (annotationPrefix : Str) (source_map : List (List (SourceRange S))) :
    ∃ rows string entries, layoutRows fitsIn width doc = some rows ∧
      format doc width annotationPrefix (some source_map) =
        some (string, some (source_map ++ entries)) ∧
      string.splitOn '\n' = rows.map Row.text ∧
      List.Forall₂ Attributes entries (rows.map Row.chars) := by
  obtain ⟨out, hout⟩ : ∃ out, doc.layout fitsIn width 0 .brk none ⟨[], ⟨[], []⟩⟩ = some out :=
    doc.layout_total .brk none _ hnest (Int.le_refl 0)
  have hsim := finalState_sim doc width (some source_map)
  rw [hout] at hsim
  generalize hfinal : finalState doc width (some source_map) = final at hsim
  cases hsim with
  | @some st _ hsim =>
      obtain ⟨entries, hmap, hentries⟩ := hsim.finish
      have hrows := plain_rows hplain hlines hout
      refine ⟨out.allRows, _, entries, by rw [layoutRows, hout]; rfl,
        by rw [format, hfinal, Option.map_some, hmap]; rfl, ?_, hentries⟩
      rw [hsim.allLines, List.map_map]
      have htext : out.allRows.map
          (lineString (maxWidth (out.allRows.map Row.line)) annotationPrefix ∘ Row.line) =
          out.allRows.map Row.text :=
        List.map_congr_left fun row hrow => lineString_eq_text _ _ (hrows row hrow).1
      rw [htext]
      refine List.splitOn_intercalate '\n' ?_ (by simp [Out.allRows])
      intro line hline
      obtain ⟨row, hrow, rfl⟩ := List.mem_map.mp hline
      exact (hrows row hrow).2

theorem format_attributes_nested :
    ∃ rows string entries,
      layoutRows fitsIn 4 (.sourceMap (.concat [.text ['a', 'b'] none, .nest 2 (.brk [' ']),
        .sourceMap (.text ['c'] none) 2]) 1) = some rows ∧
      format (.sourceMap (.concat [.text ['a', 'b'] none, .nest 2 (.brk [' ']),
        .sourceMap (.text ['c'] none) 2]) 1) 4 [] (some []) = some (string, some ([] ++ entries)) ∧
      string.splitOn '\n' = rows.map Row.text ∧
      List.Forall₂ (Attributes (S := ℕ)) entries (rows.map Row.chars) :=
  format_attributes (by decide) (by simp [Doc.tokens, Doc.tokensAll, Token.str])
    (by simp [Doc.NestsRight, Doc.NestsRightAll]) 4 [] []

end JaxDas.PrettyPrinter
