import JaxDas.PrettyPrinter.Layout
import Mathlib.Data.List.Forall2

/-!
# The loop computes the layout

A state of the loop has the rows that have been laid out, and ranges for the sources of their
characters (`Sim`). What prints on it keeps that, and so does the run of every document.
-/

namespace JaxDas.PrettyPrinter

variable {S : Type}

/-- The source of the character at a position. -/
def sourceAt (chars : List (Char × Option S)) (i : ℕ) : Option S := chars[i]?.bind Prod.snd

/-- The ranges of a row are in order, disjoint and not empty, and the characters in them are those
with their source. -/
structure Attributes (ranges : List (SourceRange S)) (chars : List (Char × Option S)) : Prop where
  within : ∀ r ∈ ranges, 0 ≤ r.start ∧ r.start < r.stop ∧ r.stop ≤ chars.length
  disjoint : ranges.Pairwise fun r r' => r.stop ≤ r'.start
  source_iff : ∀ (i : ℕ) (source : S),
    sourceAt chars i = some source ↔
      ∃ r ∈ ranges, r.start ≤ i ∧ (i : ℤ) < r.stop ∧ r.source = source

/-- The ranges of a row as far as it has been printed: the open one starts after the others, and
from there on all is in the current source. -/
def Tracks (st : FormatState S) (chars : List (Char × Option S)) : Prop :=
  ∃ closed opened, chars = closed ++ opened ∧ st.source_start = closed.length ∧
    Attributes st.line_source_map closed ∧ ∀ x ∈ opened, x.2 = st.source

def Row.line (row : Row S) : Line := ⟨row.text, row.chars.length, row.annotations⟩

/-- A state of the loop has what has been laid out. -/
structure Sim (given : Bool) (previous : List (List (SourceRange S))) (width : ℤ)
    (st : FormatState S) (out : Out S) : Prop where
  map_given : st.source_map.isSome = given
  width : st.width = width
  lines : st.lines = out.rows.map Row.line
  line_text : st.line_text = out.row.text
  k : st.k = out.row.chars.length
  annotations : st.line_annotations = out.row.annotations
  entries : ∀ source_map, st.source_map = some source_map → ∃ entries,
    source_map = previous ++ entries ∧ List.Forall₂ Attributes entries (out.rows.map Row.chars)
  tracks : given = true → Tracks st out.row.chars

theorem attributes_nil : ∀ {chars : List (Char × Option S)}, (∀ x ∈ chars, x.2 = none) →
    Attributes [] chars := by
  intro chars h
  refine ⟨nofun, .nil, fun i source => iff_of_false ?_ (by simp)⟩
  unfold sourceAt
  cases hi : chars[i]? with
  | none => simp
  | some x =>
      rw [Option.bind_some, h x (List.mem_of_getElem? hi)]
      simp

theorem sourceAt_append (closed opened : List (Char × Option S)) (i : ℕ) :
    sourceAt (closed ++ opened) i =
      if i < closed.length then sourceAt closed i else sourceAt opened (i - closed.length) := by
  unfold sourceAt
  split
  · next h => rw [List.getElem?_append_left h]
  · next h => rw [List.getElem?_append_right (Nat.le_of_not_lt h)]

theorem sourceAt_lt {chars : List (Char × Option S)} {i : ℕ} {source : S}
    (h : sourceAt chars i = some source) : i < chars.length := by
  obtain ⟨x, hx, -⟩ := Option.bind_eq_some_iff.mp h
  exact (List.getElem?_eq_some_iff.mp hx).1

/-- The sources of a row with an open range. -/
theorem sourceAt_opened {closed opened : List (Char × Option S)} {current : Option S}
    (h : ∀ x ∈ opened, x.2 = current) (i : ℕ) (source : S) :
    sourceAt (closed ++ opened) i = some source ↔
      sourceAt closed i = some source ∨
        (closed.length ≤ i ∧ i < closed.length + opened.length ∧ current = some source) := by
  rw [sourceAt_append]
  by_cases hi : i < closed.length
  · rw [if_pos hi]
    exact ⟨.inl, fun h => h.resolve_right fun hr => by omega⟩
  · have hnone : sourceAt closed i ≠ some source := fun h => hi (sourceAt_lt h)
    rw [if_neg hi, or_iff_right hnone]
    unfold sourceAt
    constructor
    · intro hx
      obtain ⟨x, hx, hsource⟩ := Option.bind_eq_some_iff.mp hx
      have hlt := (List.getElem?_eq_some_iff.mp hx).1
      rw [h x (List.mem_of_getElem? hx)] at hsource
      exact ⟨by omega, by omega, hsource⟩
    · rintro ⟨hle, hlt, hsource⟩
      have hlt' : i - closed.length < opened.length := by omega
      rw [List.getElem?_eq_getElem hlt', Option.bind_some, h _ (List.getElem_mem hlt'), hsource]

/-- Closing the open range. -/
theorem attributes_closeRange {st : FormatState S} {chars : List (Char × Option S)}
    (h : Tracks st chars) (hlen : st.line_text.length = chars.length) :
    Attributes st.closeRange chars := by
  obtain ⟨closed, opened, rfl, hstart, hattr, hopened⟩ := h
  have hat := @sourceAt_opened S closed opened st.source hopened
  rw [List.length_append] at hlen
  have hclosed : ∀ r ∈ st.line_source_map,
      0 ≤ r.start ∧ r.start < r.stop ∧ r.stop ≤ ((closed ++ opened).length : ℤ) := by
    intro r hr
    obtain ⟨h0, hlt, hle⟩ := hattr.within r hr
    rw [List.length_append]
    exact ⟨h0, hlt, by push_cast; omega⟩
  unfold FormatState.closeRange
  dsimp only
  split
  · next source hsource =>
      rw [hsource] at hat
      by_cases hopen : st.source_start ≠ (st.line_text.length : ℤ)
      · rw [if_pos hopen]
        refine ⟨fun r hr => ?_, ?_, fun i s => ?_⟩
        · rcases List.mem_append.mp hr with hr | hr
          · exact hclosed r hr
          · rw [List.mem_singleton.mp hr, List.length_append]
            dsimp only
            push_cast
            omega
        · refine List.pairwise_append.mpr ⟨hattr.disjoint, List.pairwise_singleton _ _, ?_⟩
          intro r hr r' hr'
          rw [List.mem_singleton.mp hr', hstart]
          exact (hattr.within r hr).2.2
        · rw [hat, hattr.source_iff]
          simp only [List.mem_append, List.mem_singleton, or_and_right, exists_or, exists_eq_left,
            Option.some.injEq]
          refine or_congr Iff.rfl ?_
          rw [← and_assoc, ← and_assoc]
          refine and_congr ?_ Iff.rfl
          omega
      · rw [if_neg hopen]
        have hnil : opened = [] := List.eq_nil_of_length_eq_zero (by omega)
        rw [hnil, List.append_nil]
        exact hattr
  · next hsource =>
      rw [hsource] at hat
      refine ⟨hclosed, hattr.disjoint, fun i s => ?_⟩
      rw [hat, hattr.source_iff]
      simp

/-! ## What prints -/

section

variable {given : Bool} {previous : List (List (SourceRange S))} {width : ℤ} {st : FormatState S}
  {out : Out S}

theorem Sim.closeRange (h : Sim given previous width st out) (hg : given = true) :
    Attributes st.closeRange out.row.chars :=
  attributes_closeRange (h.tracks hg) (by rw [h.line_text, Row.text, List.length_map])

theorem Sim.switchSource [DecidableEq S] (h : Sim given previous width st out) (source : Option S) :
    Sim given previous width (st.switchSource source) out := by
  unfold FormatState.switchSource
  split
  · refine ⟨h.map_given, h.width, h.lines, h.line_text, h.k, h.annotations, h.entries, fun hg => ?_⟩
    refine ⟨out.row.chars, [], (List.append_nil _).symm, ?_, h.closeRange hg, by simp⟩
    dsimp only
    rw [h.line_text, Row.text, List.length_map]
  · exact h

theorem switchSource_source [DecidableEq S] (source : Option S)
    (hg : st.source_map.isSome = true) : (st.switchSource source).source = source := by
  unfold FormatState.switchSource
  split
  · rfl
  · next hne => exact (not_not.mp fun hs => hne ⟨hg, hs⟩).symm

theorem Sim.put (h : Sim given previous width st out) {source : Option S}
    (hsource : given = true → st.source = source) (text : Str) (annotation_ : Option Str) :
    Sim given previous width (st.putText text annotation_) (out.put text annotation_ source) := by
  refine ⟨h.map_given, h.width, h.lines, ?_, ?_, ?_, h.entries, fun hg => ?_⟩
  · simp [FormatState.putText, Out.put, Row.text, h.line_text, Function.comp_def]
  · simp [FormatState.putText, Out.put, h.k]
  · simp [FormatState.putText, Out.put, h.annotations]
  · obtain ⟨closed, opened, hchars, hstart, hattr, hopened⟩ := h.tracks hg
    refine ⟨closed, opened ++ text.map fun c => (c, source), ?_, hstart, hattr, ?_⟩
    · rw [Out.put, hchars, List.append_assoc]
    · intro x hx
      rcases List.mem_append.mp hx with hx | hx
      · exact hopened x hx
      · obtain ⟨c, -, rfl⟩ := List.mem_map.mp hx
        exact (hsource hg).symm

theorem Sim.allLines (h : Sim given previous width st out) :
    st.allLines = out.allRows.map Row.line := by
  rw [FormatState.allLines, h.lines, h.line_text, h.k, h.annotations, Out.allRows, List.map_append]
  rfl

theorem putBreak_flat (text : Str) (indent : ℤ) :
    st.putBreak text indent .flat = some (st.putText text none) := by
  simp [FormatState.putBreak, FormatState.putText]

theorem length_spaces {n : ℤ} (hn : 0 ≤ n) : ((spaces n).length : ℤ) = n := by
  rw [spaces, List.length_replicate, Int.toNat_of_nonneg hn]

theorem Sim.newline (h : Sim given previous width st out) (text : Str) (indent : ℤ) :
    Option.Rel (Sim given previous width) (st.putBreak text indent .brk) (out.newline indent) := by
  unfold FormatState.putBreak Out.newline
  dsimp only
  by_cases hneg : indent < 0
  · rw [if_pos hneg, if_pos hneg]
    exact .none
  · have hlen := length_spaces (Int.not_lt.mp hneg)
    rw [if_neg hneg, if_neg hneg]
    refine .some ⟨?_, h.width, ?_, ?_, ?_, rfl, ?_, fun hg => ?_⟩
    · rw [Option.isSome_map, h.map_given]
    · rw [h.lines, h.line_text, h.k, h.annotations, List.map_append]
      rfl
    · rw [Row.text, List.map_map]
      exact (List.map_id _).symm
    · rw [List.length_map, hlen]
    · intro source_map hmap
      obtain ⟨source_map', hsome, rfl⟩ := Option.map_eq_some_iff.mp hmap
      obtain ⟨entries, rfl, hentries⟩ := h.entries _ hsome
      have hg : given = true := by rw [← h.map_given, hsome]; rfl
      refine ⟨entries ++ [st.closeRange], List.append_assoc _ _ _, ?_⟩
      rw [List.map_append]
      exact List.rel_append hentries (.cons (h.closeRange hg) .nil)
    · have hsome : st.source_map.isSome = true := h.map_given.trans hg
      refine ⟨(spaces indent).map fun c => (c, none), [], (List.append_nil _).symm, ?_, ?_, by simp⟩
      · simp only [if_pos hsome]
        rw [List.length_map, hlen]
      · simp only [if_pos hsome]
        refine attributes_nil fun x hx => ?_
        obtain ⟨c, -, rfl⟩ := List.mem_map.mp hx
        rfl

end

/-! ## Runs -/

section

variable [DecidableEq S] {given : Bool} {previous : List (List (SourceRange S))} {width : ℤ}

theorem rel_bind {α β : Type} {R : α → β → Prop} {x : Option α} {y : Option β} {f : α → Option α}
    {g : β → Option β} (h : Option.Rel R x y) (hf : ∀ a b, R a b → Option.Rel R (f a) (g b)) :
    Option.Rel R (x.bind f) (y.bind g) := by
  cases h with
  | none => exact .none
  | some h => exact hf _ _ h

omit [DecidableEq S] in
/-- A group is flat when it fits, whatever its annotations are. -/
theorem Sim.groupMode {st : FormatState S} {out : Out S} (h : Sim given previous width st out)
    (doc : Doc S) :
    st.groupMode doc = if fitsIn doc (out.room width) then .flat else .brk := by
  rw [FormatState.groupMode, Doc.doesFit_eq, Doc.isSparse_eq_true, Bool.and_true, h.width, h.k]
  rfl

mutual

/-- The run of a document prints the layout of the groups that fit. -/
theorem Doc.run_sim : ∀ (doc : Doc S) {indent : ℤ} {mode : BreakMode} {source source' : Option S}
    {st : FormatState S} {out : Out S}, (given = true → source' = source) →
    Sim given previous width st out →
    Option.Rel (Sim given previous width) (doc.run indent mode source' st)
      (doc.layout fitsIn width indent mode source out)
  | .nil, _, _, _, source', _, _, _, h => .some (h.switchSource source')
  | .text t annotation, _, _, source, source', st, _, hs, h => by
      rw [Doc.run, Doc.layout]
      refine .some ((h.switchSource source').put (fun hg => ?_) t annotation)
      rw [switchSource_source _ (h.map_given.trans hg), hs hg]
  | .concat children, _, _, source, source', st, _, hs, h => by
      rw [Doc.run, Doc.layout]
      refine runAll_sim children (fun hg => ?_) (h.switchSource source')
      rw [switchSource_source _ (h.map_given.trans hg), hs hg]
  | .brk t, indent, .brk, _, source', _, _, _, h => by
      rw [Doc.run, Doc.layout]
      exact (h.switchSource source').newline t indent
  | .brk t, indent, .flat, source, source', st, _, hs, h => by
      rw [Doc.run, Doc.layout]
      rw [putBreak_flat]
      refine .some ((h.switchSource source').put (fun hg => ?_) t none)
      rw [switchSource_source _ (h.map_given.trans hg), hs hg]
  | .group child, _, _, source, source', st, _, hs, h => by
      rw [Doc.run, Doc.layout, (h.switchSource source').groupMode]
      refine Doc.run_sim child (fun hg => ?_) (h.switchSource source')
      rw [switchSource_source _ (h.map_given.trans hg), hs hg]
  | .nest _ child, _, _, source, source', st, _, hs, h => by
      rw [Doc.run, Doc.layout]
      refine Doc.run_sim child (fun hg => ?_) (h.switchSource source')
      rw [switchSource_source _ (h.map_given.trans hg), hs hg]
  | .sourceMap child _, _, _, _, source', _, _, _, h => by
      rw [Doc.run, Doc.layout]
      exact Doc.run_sim child (fun _ => rfl) (h.switchSource source')
  | .color child, _, _, source, source', st, _, hs, h => by
      rw [Doc.run, Doc.layout]
      refine Doc.run_sim child (fun hg => ?_) (h.switchSource source')
      rw [switchSource_source _ (h.map_given.trans hg), hs hg]

theorem runAll_sim : ∀ (docs : List (Doc S)) {indent : ℤ} {mode : BreakMode}
    {source source' : Option S} {st : FormatState S} {out : Out S},
    (given = true → source' = source) → Sim given previous width st out →
    Option.Rel (Sim given previous width) (runAll docs indent mode source' st)
      (layoutAll fitsIn width docs indent mode source out)
  | [], _, _, _, _, _, _, _, h => .some h
  | doc :: docs, _, _, _, _, _, _, hs, h => by
      rw [runAll, layoutAll]
      exact rel_bind (Doc.run_sim doc hs h) fun _ _ h' => runAll_sim docs hs h'

end

/-- `Format` computes the layout of the groups that fit. -/
theorem finalState_sim (doc : Doc S) (width : ℤ)
    (source_map : Option (List (List (SourceRange S)))) :
    Option.Rel (Sim source_map.isSome (source_map.getD []) width)
      (finalState doc width source_map)
      (doc.layout fitsIn width 0 .brk none ⟨[], ⟨[], []⟩⟩) := by
  rw [finalState, formatLoop_eq, foldlM_child]
  refine Doc.run_sim doc (fun _ => rfl) ?_
  refine ⟨rfl, rfl, rfl, rfl, rfl, rfl, fun source_map' hsome => ?_, fun _ => ?_⟩
  · cases hsome
    exact ⟨[], (List.append_nil _).symm, .nil⟩
  · exact ⟨[], [], rfl, rfl, attributes_nil (by simp), by simp⟩

end

end JaxDas.PrettyPrinter
