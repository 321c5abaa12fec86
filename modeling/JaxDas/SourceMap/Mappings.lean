import Mathlib.Data.List.Forall2
import JaxDas.SourceMap.Vlq

/-!
# Mappings as strings

The lines of a mapping are separated by semicolons, the segments of a line by commas, and
the fields of a segment by nothing: where one ends is seen from its digits, and how many
there are from where the segment ends.
-/

namespace JaxDas.SourceMap

/-- A segment of 1, 4 or 5 fields. -/
inductive Segment
  | one (col : ℤ)
  | four (col source sourceLine sourceCol : ℤ)
  | five (col source sourceLine sourceCol name : ℤ)
  deriving DecidableEq, Repr

/-- The segments of each line. -/
abbrev Mappings := List (List Segment)

namespace Segment

/-- A segment as a tuple. -/
def fields : Segment → List ℤ
  | one col => [col]
  | four col source sourceLine sourceCol => [col, source, sourceLine, sourceCol]
  | five col source sourceLine sourceCol name => [col, source, sourceLine, sourceCol, name]

end Segment

/-- `encode_segment` -/
def encodeSegment (seg : Segment) : List UInt8 :=
  (seg.fields.map encodeVlq).flatten

/-- `decode_segment`, with what is left of the iterator. -/
def decodeSegment (enc : List UInt8) : Except PyError (Segment × List UInt8) := do
  let (col, enc) ← decodeVlq enc
  match decodeVlq enc with
  | .error .stopIteration => return (.one col, [])
  | .error e => throw e
  | .ok (source, enc) =>
      let (sourceLine, enc) ← decodeVlq enc
      let (sourceCol, enc) ← decodeVlq enc
      match decodeVlq enc with
      | .error .stopIteration => return (.four col source sourceLine sourceCol, [])
      | .error e => throw e
      | .ok (name, enc) => return (.five col source sourceLine sourceCol name, enc)

/-- `list(map(decode_segment, encs))`. A `StopIteration` of `decode_segment` ends the list. -/
def decodeSegments : List (List UInt8) → Except PyError (List Segment)
  | [] => .ok []
  | enc :: encs =>
      match decodeSegment enc with
      | .error .stopIteration => .ok []
      | .error e => .error e
      | .ok (seg, _) => do
          let segs ← decodeSegments encs
          return seg :: segs

/-- `bytes(s, encoding="ascii")` -/
def asciiEncode (s : String) : Except PyError (List UInt8) :=
  if s.toList.all fun c => c.toNat < 128 then
    .ok (s.toList.map fun c => UInt8.ofNat c.toNat)
  else .error .unicodeError

/-- `enc.decode("ascii")` -/
def asciiDecode (enc : List UInt8) : Except PyError String :=
  if enc.all fun c => c.toNat < 128 then
    .ok (String.ofList (enc.map fun c => Char.ofNat c.toNat))
  else .error .unicodeError

/-- `b";"` -/
def semicolon : UInt8 := 59

/-- `b","` -/
def comma : UInt8 := 44

/-- `deserialize_mappings` -/
def deserializeMappings (mappingsStr : String) : Except PyError Mappings := do
  let mappingsBytes ← asciiEncode mappingsStr
  (mappingsBytes.splitOn semicolon).mapM fun mapping =>
    if mapping.isEmpty then .ok [] else decodeSegments (mapping.splitOn comma)

/-- `serialize_mappings` -/
def serializeMappings (mappings : Mappings) : Except PyError String :=
  asciiDecode ([semicolon].intercalate
    (mappings.map fun segs => [comma].intercalate (segs.map encodeSegment)))

/-! ### Segments -/

theorem decodeSegment_encodeSegment (seg : Segment) :
    decodeSegment (encodeSegment seg) = .ok (seg, []) := by
  have hend : decodeVlq [] = .error .stopIteration := rfl
  have hlast := fun v => decodeVlq_encodeVlq v []
  simp only [List.append_nil] at hlast
  cases seg with
  | one col =>
      simp only [encodeSegment, Segment.fields, List.map_cons, List.map_nil, List.flatten_cons,
        List.flatten_nil, List.append_nil]
      rw [decodeSegment, hlast]
      rfl
  | four col source sourceLine sourceCol =>
      simp only [encodeSegment, Segment.fields, List.map_cons, List.map_nil, List.flatten_cons,
        List.flatten_nil, List.append_nil]
      rw [decodeSegment, decodeVlq_encodeVlq]
      simp only [ok_bind, decodeVlq_encodeVlq, hlast, hend]
      rfl
  | five col source sourceLine sourceCol name =>
      simp only [encodeSegment, Segment.fields, List.map_cons, List.map_nil, List.flatten_cons,
        List.flatten_nil, List.append_nil]
      rw [decodeSegment, decodeVlq_encodeVlq]
      simp only [ok_bind, decodeVlq_encodeVlq, hlast]
      rfl

theorem decodeSegments_encode : ∀ segs : List Segment,
    decodeSegments (segs.map encodeSegment) = .ok segs
  | [] => rfl
  | seg :: segs => by
      simp only [List.map_cons, decodeSegments, decodeSegment_encodeSegment,
        decodeSegments_encode segs]
      rfl

theorem encodeSegment_mem {seg : Segment} {c : UInt8} (h : c ∈ encodeSegment seg) :
    c ∈ vlqAlphabet := by
  obtain ⟨enc, henc, hc⟩ := List.mem_flatten.mp h
  obtain ⟨v, _, rfl⟩ := List.mem_map.mp henc
  exact encodeDigits_mem hc

theorem encodeSegment_ne_nil (seg : Segment) : encodeSegment seg ≠ [] := by
  intro h
  have hfields := List.flatten_eq_nil_iff.mp h
  have hnil : ∀ v ∈ seg.fields, encodeVlq v = [] :=
    fun v hv => hfields _ (List.mem_map_of_mem hv)
  cases seg with
  | one col => exact encodeDigits_ne_nil _ (hnil col (by simp [Segment.fields]))
  | four col _ _ _ => exact encodeDigits_ne_nil _ (hnil col (by simp [Segment.fields]))
  | five col _ _ _ _ => exact encodeDigits_ne_nil _ (hnil col (by simp [Segment.fields]))

/-! ### Lines -/

/-- `serialize_mappings` of one line. -/
def encodeLine (segs : List Segment) : List UInt8 :=
  [comma].intercalate (segs.map encodeSegment)

theorem mem_intercalate {α : Type} {x c : α} : ∀ {ls : List (List α)},
    c ∈ [x].intercalate ls → c = x ∨ ∃ l ∈ ls, c ∈ l
  | [], h => by simp at h
  | [l], h => by
      rw [List.intercalate_singleton] at h
      exact .inr ⟨l, List.mem_singleton_self l, h⟩
  | l :: l' :: ls, h => by
      rw [List.intercalate_cons_cons, List.append_assoc] at h
      rcases List.mem_append.mp h with h | h
      · exact .inr ⟨l, List.mem_cons_self, h⟩
      · rcases List.mem_append.mp h with h | h
        · exact .inl (List.mem_singleton.mp h)
        · rcases mem_intercalate h with h | ⟨k, hk, hc⟩
          · exact .inl h
          · exact .inr ⟨k, List.mem_cons_of_mem _ hk, hc⟩

theorem encodeLine_mem {segs : List Segment} {c : UInt8} (h : c ∈ encodeLine segs) :
    c = comma ∨ c ∈ vlqAlphabet := by
  rcases mem_intercalate h with h | ⟨enc, henc, hc⟩
  · exact .inl h
  · obtain ⟨seg, _, rfl⟩ := List.mem_map.mp henc
    exact .inr (encodeSegment_mem hc)

theorem decodeLine_encodeLine (segs : List Segment) :
    (if (encodeLine segs).isEmpty then .ok []
      else decodeSegments ((encodeLine segs).splitOn comma)) = .ok segs := by
  cases segs with
  | nil => rfl
  | cons seg segs =>
      have hne : (seg :: segs).map encodeSegment ≠ [] := List.cons_ne_nil _ _
      have hcomma : ∀ enc ∈ (seg :: segs).map encodeSegment, comma ∉ enc := by
        intro enc henc hc
        obtain ⟨seg', _, rfl⟩ := List.mem_map.mp henc
        exact absurd (encodeSegment_mem hc) (by decide)
      have hsome : (encodeLine (seg :: segs)).isEmpty = false := by
        cases henc : encodeSegment seg with
        | nil => exact absurd henc (encodeSegment_ne_nil seg)
        | cons c enc =>
            cases segs with
            | nil => simp [encodeLine, henc]
            | cons seg' segs => simp [encodeLine, henc, List.intercalate_cons_cons]
      rw [hsome, if_neg Bool.false_ne_true, encodeLine,
        List.splitOn_intercalate comma hcomma hne, decodeSegments_encode]

/-! ### Mappings -/

theorem asciiEncode_asciiDecode {enc : List UInt8} (h : ∀ c ∈ enc, c.toNat < 128) :
    ∃ s, asciiDecode enc = .ok s ∧ asciiEncode s = .ok enc := by
  have hchar : ∀ n < 128, (Char.ofNat n).toNat = n := by
    intro n hn
    have hall : ∀ n : Fin 128, (Char.ofNat n.val).toNat = n.val := by decide
    exact hall ⟨n, hn⟩
  have hall : (enc.all fun c => c.toNat < 128) = true :=
    List.all_eq_true.mpr fun c hc => decide_eq_true (h c hc)
  refine ⟨_, if_pos hall, ?_⟩
  rw [asciiEncode, String.toList_ofList]
  have hback : (enc.map fun c => Char.ofNat c.toNat).all (fun c => c.toNat < 128) = true := by
    rw [List.all_map]
    refine List.all_eq_true.mpr fun c hc => decide_eq_true ?_
    rw [hchar _ (h c hc)]
    exact h c hc
  rw [if_pos hback, List.map_map]
  refine congrArg Except.ok ?_
  conv_rhs => rw [← List.map_id enc]
  refine List.map_congr_left fun c hc => ?_
  simp only [Function.comp_apply, hchar _ (h c hc), UInt8.ofNat_toNat, id]

theorem vlqAlphabet_ascii {c : UInt8} (h : c ∈ vlqAlphabet) : c.toNat < 128 := by
  have hall : vlqAlphabet.all (fun c => c.toNat < 128) = true := by decide +kernel
  simpa using List.all_eq_true.mp hall c h

/-- Mappings of at least one line come back from the string they are written to. -/
theorem deserialize_serialize (line : List Segment) (lines : Mappings) :
    (serializeMappings (line :: lines) >>= deserializeMappings) = .ok (line :: lines) := by
  have hline : ∀ enc ∈ (line :: lines).map encodeLine, semicolon ∉ enc := by
    intro enc henc hc
    obtain ⟨segs, _, rfl⟩ := List.mem_map.mp henc
    rcases encodeLine_mem hc with hc | hc
    · exact absurd hc (by decide)
    · exact absurd hc (by decide)
  have hascii : ∀ c ∈ [semicolon].intercalate ((line :: lines).map encodeLine),
      c.toNat < 128 := by
    intro c hc
    rcases mem_intercalate hc with rfl | ⟨enc, henc, hc⟩
    · decide
    · obtain ⟨segs, _, rfl⟩ := List.mem_map.mp henc
      rcases encodeLine_mem hc with rfl | hc
      · decide
      · exact vlqAlphabet_ascii hc
  obtain ⟨s, hs, hback⟩ := asciiEncode_asciiDecode hascii
  refine bind_ok.mpr ⟨s, hs, bind_ok.mpr ⟨_, hback, ?_⟩⟩
  rw [List.splitOn_intercalate semicolon hline (List.cons_ne_nil _ _), List.mapM_map]
  exact mapM_of_forall₂ (List.forall₂_same.mpr fun segs _ => decodeLine_encodeLine segs)

end JaxDas.SourceMap
