import JaxDas.PrettyPrinter.Layout

/-!
# What a layout keeps

The texts and breaks of a document, what of the rows is kept when they are printed one by one, and
what a document looks like on one line.
-/

namespace JaxDas.PrettyPrinter

variable {S : Type}

/-- A leaf of a document that is printed. -/
inductive Token where
  | text (text : Str) (annotation_ : Option Str)
  | brk (text : Str)

namespace Token

def str : Token → Str
  | text t _ => t
  | brk t => t

def annotations : Token → List Str
  | text _ annotation => annotation.toList
  | brk _ => []

end Token

namespace Doc

mutual

/-- The texts and breaks of a document, in the order in which they are printed. -/
def tokens : Doc S → List Token
  | nil => []
  | text t annotation => [.text t annotation]
  | concat children => tokensAll children
  | brk t => [.brk t]
  | group child => child.tokens
  | nest _ child => child.tokens
  | sourceMap child _ => child.tokens
  | color child => child.tokens

def tokensAll : List (Doc S) → List Token
  | [] => []
  | doc :: docs => doc.tokens ++ tokensAll docs

end

def annotations (doc : Doc S) : List Str := doc.tokens.flatMap Token.annotations

mutual

/-- The nest amounts are not negative. -/
def NestsRight : Doc S → Prop
  | nil => True
  | text _ _ => True
  | concat children => NestsRightAll children
  | brk _ => True
  | group child => child.NestsRight
  | nest n child => 0 ≤ n ∧ child.NestsRight
  | sourceMap child _ => child.NestsRight
  | color child => child.NestsRight

def NestsRightAll : List (Doc S) → Prop
  | [] => True
  | doc :: docs => doc.NestsRight ∧ NestsRightAll docs

end

mutual

theorem length_annotations : ∀ doc : Doc S, doc.annotations.length = doc.numAnnotations
  | nil => rfl
  | text _ none => rfl
  | text _ (some _) => rfl
  | concat children => length_annotationsAll children
  | brk _ => rfl
  | group child => length_annotations child
  | nest _ child => length_annotations child
  | sourceMap child _ => length_annotations child
  | color child => length_annotations child

theorem length_annotationsAll : ∀ docs : List (Doc S),
    ((tokensAll docs).flatMap Token.annotations).length = totalNumAnnotations docs
  | [] => rfl
  | doc :: docs => by
      rw [tokensAll, List.flatMap_append, List.length_append, totalNumAnnotations,
        length_annotationsAll docs, ← length_annotations doc]
      rfl

end

end Doc

section

variable {isFlat : Doc S → ℤ → Bool} {width : ℤ}

/-! ## What is kept -/

section

variable {P : Out S → Prop}

mutual

/-- What the tokens of a document and the line breaks keep, its layout keeps. -/
theorem Doc.layout_preserves
    (hnewline : ∀ {indent out out'}, Out.newline indent out = some out' → P out → P out') :
    ∀ (doc : Doc S) {indent : ℤ} {mode : BreakMode} {source : Option S} {out out' : Out S},
      (∀ token ∈ doc.tokens, ∀ source out, P out →
        P (out.put token.str token.annotations.head? source)) →
      doc.layout isFlat width indent mode source out = some out' → P out → P out'
  | .nil, _, _, _, _, _, _, h, hP => by
      cases h
      exact hP
  | .text t annotation, _, _, source, out, _, hput, h, hP => by
      cases h
      have := hput (.text t annotation) (List.mem_singleton_self _) source out hP
      cases annotation <;> exact this
  | .concat children, _, _, _, _, _, hput, h, hP => by
      rw [Doc.layout] at h
      exact layoutAll_preserves hnewline children hput h hP
  | .brk t, _, .flat, source, out, _, hput, h, hP => by
      cases h
      exact hput (.brk t) (List.mem_singleton_self _) source out hP
  | .brk _, _, .brk, _, _, _, _, h, hP => hnewline h hP
  | .group child, _, _, _, _, _, hput, h, hP => by
      rw [Doc.layout] at h
      exact Doc.layout_preserves hnewline child hput h hP
  | .nest _ child, _, _, _, _, _, hput, h, hP => by
      rw [Doc.layout] at h
      exact Doc.layout_preserves hnewline child hput h hP
  | .sourceMap child _, _, _, _, _, _, hput, h, hP => by
      rw [Doc.layout] at h
      exact Doc.layout_preserves hnewline child hput h hP
  | .color child, _, _, _, _, _, hput, h, hP => by
      rw [Doc.layout] at h
      exact Doc.layout_preserves hnewline child hput h hP

theorem layoutAll_preserves
    (hnewline : ∀ {indent out out'}, Out.newline indent out = some out' → P out → P out') :
    ∀ (docs : List (Doc S)) {indent : ℤ} {mode : BreakMode} {source : Option S} {out out' : Out S},
      (∀ token ∈ Doc.tokensAll docs, ∀ source out, P out →
        P (out.put token.str token.annotations.head? source)) →
      layoutAll isFlat width docs indent mode source out = some out' → P out → P out'
  | [], _, _, _, _, _, _, h, hP => by
      cases h
      exact hP
  | doc :: docs, _, _, _, _, _, hput, h, hP => by
      rw [layoutAll] at h
      obtain ⟨out₁, hdoc, hdocs⟩ := Option.bind_eq_some_iff.mp h
      rw [Doc.tokensAll] at hput
      have hP₁ := Doc.layout_preserves hnewline doc
        (fun token htoken => hput token (List.mem_append_left _ htoken)) hdoc hP
      exact layoutAll_preserves hnewline docs
        (fun token htoken => hput token (List.mem_append_right _ htoken)) hdocs hP₁

end

end

/-- What is true of every row, when the tokens and the line breaks keep it. -/
theorem Doc.rows_preserve {Q : Row S → Prop} {doc : Doc S} {indent : ℤ} {mode : BreakMode}
    {source : Option S} {out out' : Out S}
    (hblank : ∀ indent, Q ⟨(spaces indent).map fun c => (c, none), []⟩)
    (hput : ∀ token ∈ doc.tokens, ∀ source out, Q (Out.row out) →
      Q (out.put token.str token.annotations.head? source).row)
    (h : doc.layout isFlat width indent mode source out = some out')
    (hQ : ∀ row ∈ out.allRows, Q row) : ∀ row ∈ out'.allRows, Q row := by
  refine Doc.layout_preserves (P := fun out => ∀ row ∈ out.allRows, Q row) ?_ doc ?_ h hQ
  · intro indent out out' hnew hrows
    unfold Out.newline at hnew
    split at hnew
    · cases hnew
    · cases hnew
      intro row hrow
      rcases List.mem_append.mp hrow with hrow | hrow
      · exact hrows row hrow
      · rw [List.mem_singleton.mp hrow]
        exact hblank indent
  · intro token htoken source out hrows row hrow
    rcases List.mem_append.mp hrow with hrow | hrow
    · exact hrows row (List.mem_append_left _ hrow)
    · rw [List.mem_singleton.mp hrow]
      exact hput token htoken source out
        (hrows _ (List.mem_append_right _ (List.mem_singleton_self _)))

/-! ## Nests to the right -/

mutual

/-- A document that only nests to the right has a layout. -/
theorem Doc.layout_total : ∀ (doc : Doc S) {indent : ℤ} (mode : BreakMode) (source : Option S)
    (out : Out S), doc.NestsRight → 0 ≤ indent →
    ∃ out', doc.layout isFlat width indent mode source out = some out'
  | .nil, _, _, _, out, _, _ => ⟨out, rfl⟩
  | .text _ _, _, _, _, _, _, _ => ⟨_, rfl⟩
  | .concat children, _, mode, source, out, hnest, h0 => by
      rw [Doc.layout]
      exact layoutAll_total children mode source out hnest h0
  | .brk _, _, .flat, _, _, _, _ => ⟨_, rfl⟩
  | .brk _, _, .brk, _, _, _, h0 => ⟨_, if_neg (Int.not_lt.mpr h0)⟩
  | .group child, _, _, source, out, hnest, h0 => by
      rw [Doc.layout]
      exact Doc.layout_total child _ source out hnest h0
  | .nest _ child, _, mode, source, out, hnest, h0 => by
      rw [Doc.layout]
      exact Doc.layout_total child mode source out hnest.2 (Int.add_nonneg h0 hnest.1)
  | .sourceMap child source, _, mode, _, out, hnest, h0 => by
      rw [Doc.layout]
      exact Doc.layout_total child mode (some source) out hnest h0
  | .color child, _, mode, source, out, hnest, h0 => by
      rw [Doc.layout]
      exact Doc.layout_total child mode source out hnest h0

theorem layoutAll_total : ∀ (docs : List (Doc S)) {indent : ℤ} (mode : BreakMode)
    (source : Option S) (out : Out S), Doc.NestsRightAll docs → 0 ≤ indent →
    ∃ out', layoutAll isFlat width docs indent mode source out = some out'
  | [], _, _, _, out, _, _ => ⟨out, rfl⟩
  | doc :: docs, _, mode, source, out, hnest, h0 => by
      obtain ⟨out₁, hdoc⟩ := Doc.layout_total doc mode source out hnest.1 h0
      obtain ⟨out', hdocs⟩ := layoutAll_total docs mode source out₁ hnest.2 h0
      refine ⟨out', ?_⟩
      rw [layoutAll, hdoc]
      exact hdocs

end

end

/-! ## On one line -/

mutual

/-- A document that fits and is flat is printed on the row, and the groups in it are flat. -/
theorem Doc.layout_flat {width : ℤ} : ∀ (doc : Doc S) (indent : ℤ) (source : Option S)
    (out : Out S), (doc.flatWidth : ℤ) ≤ out.room width →
    ∃ chars, doc.layout fitsIn width indent .flat source out = some
        ⟨out.rows, ⟨out.row.chars ++ chars, out.row.annotations ++ doc.annotations⟩⟩ ∧
      chars.length = doc.flatWidth
  | .nil, _, _, _, _ => ⟨[], by simp [Doc.layout, Doc.annotations, Doc.tokens], rfl⟩
  | .text t annotation, _, source, _, _ =>
      ⟨t.map fun c => (c, source), by
        simp [Doc.layout, Doc.annotations, Doc.tokens, Out.put, Token.annotations],
        List.length_map _⟩
  | .concat children, indent, source, out, hfits => by
      rw [Doc.layout]
      exact layoutAll_flat children indent source out hfits
  | .brk t, _, source, _, _ =>
      ⟨t.map fun c => (c, source), by
        simp [Doc.layout, Doc.annotations, Doc.tokens, Out.put, Token.annotations],
        List.length_map _⟩
  | .group child, indent, source, out, hfits => by
      have hflat : fitsIn (.group child) (out.room width) = true := decide_eq_true hfits
      rw [Doc.layout, hflat, if_pos rfl]
      exact Doc.layout_flat child indent source out hfits
  | .nest n child, indent, source, out, hfits => by
      rw [Doc.layout]
      exact Doc.layout_flat child (indent + n) source out hfits
  | .sourceMap child source, indent, _, out, hfits => by
      rw [Doc.layout]
      exact Doc.layout_flat child indent (some source) out hfits
  | .color child, indent, source, out, hfits => by
      rw [Doc.layout]
      exact Doc.layout_flat child indent source out hfits

theorem layoutAll_flat {width : ℤ} : ∀ (docs : List (Doc S)) (indent : ℤ) (source : Option S)
    (out : Out S), (Doc.flatWidths docs : ℤ) ≤ out.room width →
    ∃ chars, layoutAll fitsIn width docs indent .flat source out = some
        ⟨out.rows, ⟨out.row.chars ++ chars,
          out.row.annotations ++ (Doc.tokensAll docs).flatMap Token.annotations⟩⟩ ∧
      chars.length = Doc.flatWidths docs
  | [], _, _, _, _ => ⟨[], by simp [layoutAll, Doc.tokensAll], rfl⟩
  | doc :: docs, indent, source, out, hfits => by
      rw [Doc.flatWidths] at hfits
      push_cast at hfits
      have hdocFits : (doc.flatWidth : ℤ) ≤ out.room width := by omega
      obtain ⟨chars, hdoc, hlen⟩ := Doc.layout_flat doc indent source out hdocFits
      have hrest : (Doc.flatWidths docs : ℤ) ≤ Out.room width
          ⟨out.rows, ⟨out.row.chars ++ chars, out.row.annotations ++ doc.annotations⟩⟩ := by
        unfold Out.room at hfits ⊢
        rw [List.length_append, hlen]
        push_cast
        omega
      obtain ⟨chars', hdocs, hlen'⟩ := layoutAll_flat docs indent source _ hrest
      refine ⟨chars ++ chars', ?_, ?_⟩
      · rw [layoutAll, hdoc, Option.bind_some, hdocs, Doc.tokensAll, List.flatMap_append,
          List.append_assoc, List.append_assoc]
        rfl
      · rw [List.length_append, hlen, hlen', Doc.flatWidths]

end

end JaxDas.PrettyPrinter
