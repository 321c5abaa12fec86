import JaxDas.SourceMap.Mappings

/-!
# The mappings generator

`MappingsGenerator` takes segments with absolute fields and stores the difference of each
field to the field before it: in the same line for the column, in the whole mapping for the
others. Summing the differences gives the absolute segments back.
-/

namespace JaxDas.SourceMap

/-- The state of a `MappingsGenerator`. `curGroup` is the last element of `_mappings`; the
elements before it are `groups`. -/
structure MappingsGenerator where
  lastCol : Option ℤ
  lastSource : ℤ
  lastSourceLine : ℤ
  lastSourceCol : ℤ
  lastName : ℤ
  groups : Mappings
  curGroup : Option (List Segment)

namespace MappingsGenerator

/-- `__init__` -/
def init : MappingsGenerator := ⟨none, 0, 0, 0, 0, [], none⟩

/-- `mappings` -/
def mappings (g : MappingsGenerator) : Mappings :=
  g.groups ++ g.curGroup.toList

/-- `new_group` -/
def newGroup (g : MappingsGenerator) : MappingsGenerator :=
  { g with lastCol := some 0, groups := g.mappings, curGroup := some [] }

/-- `new_segment`. The column of the last segment is `None` only before the first group. -/
def newSegment (g : MappingsGenerator) (seg : List ℤ) : Except PyError MappingsGenerator :=
  match seg with
  | [] => .error .assertionError
  | c :: fields =>
      match g.curGroup with
      | none => .error .runtimeError
      | some group =>
          match g.lastCol with
          | none => .error .typeError
          | some lastCol =>
              let col := c - lastCol
              match fields with
              | [] => .ok { g with lastCol := some c, curGroup := some (group ++ [.one col]) }
              | [s, l, k] => .ok
                  { g with
                    lastCol := some c
                    lastSource := s
                    lastSourceLine := l
                    lastSourceCol := k
                    curGroup := some (group ++ [.four col (s - g.lastSource)
                      (l - g.lastSourceLine) (k - g.lastSourceCol)]) }
              | [s, l, k, n] => .ok
                  { g with
                    lastCol := some c
                    lastSource := s
                    lastSourceLine := l
                    lastSourceCol := k
                    lastName := n
                    curGroup := some (group ++ [.five col (s - g.lastSource)
                      (l - g.lastSourceLine) (k - g.lastSourceCol) (n - g.lastName)]) }
              | [_] => .error .indexError
              | [_, _] => .error .indexError
              | _ => .error .assertionError

end MappingsGenerator

/-- A call of the generator. -/
inductive Call
  | newGroup
  | newSegment (seg : Segment)

/-- A sequence of calls. -/
def runCalls : MappingsGenerator → List Call → Except PyError MappingsGenerator
  | g, [] => .ok g
  | g, .newGroup :: calls => runCalls g.newGroup calls
  | g, .newSegment seg :: calls => do
      let g ← g.newSegment seg.fields
      runCalls g calls

/-! ### Sums -/

/-- What the fields of the segments so far add up to. -/
structure Sums where
  col : ℤ
  source : ℤ
  sourceLine : ℤ
  sourceCol : ℤ
  name : ℤ

/-- A segment with its fields added to those before it. -/
def Sums.add (s : Sums) : Segment → Segment × Sums
  | .one c => (.one (s.col + c), { s with col := s.col + c })
  | .four c x l k =>
      (.four (s.col + c) (s.source + x) (s.sourceLine + l) (s.sourceCol + k),
        ⟨s.col + c, s.source + x, s.sourceLine + l, s.sourceCol + k, s.name⟩)
  | .five c x l k n =>
      (.five (s.col + c) (s.source + x) (s.sourceLine + l) (s.sourceCol + k) (s.name + n),
        ⟨s.col + c, s.source + x, s.sourceLine + l, s.sourceCol + k, s.name + n⟩)

/-- The segments of a line, summed. -/
def sumLine : Sums → List Segment → List Segment × Sums
  | s, [] => ([], s)
  | s, seg :: segs =>
      let r := s.add seg
      let rest := sumLine r.2 segs
      (r.1 :: rest.1, rest.2)

/-- The lines of a mapping, summed: the column starts again at 0 in every line. -/
def sumLines : Sums → Mappings → Mappings × Sums
  | s, [] => ([], s)
  | s, segs :: lines =>
      let r := sumLine { s with col := 0 } segs
      let rest := sumLines r.2 lines
      (r.1 :: rest.1, rest.2)

/-- The absolute segments of a mapping. -/
def absolute (m : Mappings) : Mappings :=
  (sumLines ⟨0, 0, 0, 0, 0⟩ m).1

/-- The segments given, by group. -/
def givenSegments : Mappings → List Segment → List Call → Mappings
  | groups, group, [] => groups ++ [group]
  | groups, group, .newGroup :: calls => givenSegments (groups ++ [group]) [] calls
  | groups, group, .newSegment seg :: calls => givenSegments groups (group ++ [seg]) calls

theorem sumLine_append (seg : Segment) : ∀ (segs : List Segment) (s : Sums),
    sumLine s (segs ++ [seg]) =
      ((sumLine s segs).1 ++ [((sumLine s segs).2.add seg).1], ((sumLine s segs).2.add seg).2)
  | [], _ => rfl
  | seg' :: segs, s => by
      simp only [List.cons_append, sumLine, sumLine_append seg segs]

theorem sumLines_append (segs : List Segment) : ∀ (lines : Mappings) (s : Sums),
    sumLines s (lines ++ [segs]) =
      ((sumLines s lines).1 ++ [(sumLine { (sumLines s lines).2 with col := 0 } segs).1],
        (sumLine { (sumLines s lines).2 with col := 0 } segs).2)
  | [], _ => rfl
  | segs' :: lines, s => by
      simp only [List.cons_append, sumLines, sumLines_append segs lines]

/-- The generator in a group: what it stored adds up to what it was given, and the sums are
the fields it remembers. -/
structure Follows (g : MappingsGenerator) (groups : Mappings) (group : List Segment) : Prop where
  stored : ∃ cur lastCol, g.curGroup = some cur ∧ g.lastCol = some lastCol ∧
    sumLines ⟨0, 0, 0, 0, 0⟩ (g.groups ++ [cur]) =
      (groups ++ [group],
        ⟨lastCol, g.lastSource, g.lastSourceLine, g.lastSourceCol, g.lastName⟩)

theorem Follows.newGroup {g : MappingsGenerator} {groups : Mappings} {group : List Segment}
    (h : Follows g groups group) : Follows g.newGroup (groups ++ [group]) [] := by
  obtain ⟨cur, lastCol, hcur, _, hsum⟩ := h.stored
  refine ⟨[], 0, rfl, rfl, ?_⟩
  have hgroups : g.newGroup.groups = g.groups ++ [cur] := by
    simp [MappingsGenerator.newGroup, MappingsGenerator.mappings, hcur]
  rw [hgroups, sumLines_append, hsum]
  rfl

theorem Follows.newSegment {g : MappingsGenerator} {groups : Mappings} {group : List Segment}
    (h : Follows g groups group) (seg : Segment) :
    ∃ g', g.newSegment seg.fields = .ok g' ∧ Follows g' groups (group ++ [seg]) := by
  obtain ⟨cur, lastCol, hcur, hcol, hsum⟩ := h.stored
  rw [sumLines_append] at hsum
  injection hsum with hlines hsums
  obtain ⟨hgroups, hgroup⟩ := List.append_inj' hlines rfl
  have hgroup := List.singleton_inj.mp hgroup
  -- in each case the difference is stored and the field remembered
  have hstep : ∀ {rel : Segment} {g' : MappingsGenerator}, g'.groups = g.groups →
      g'.curGroup = some (cur ++ [rel]) → ∀ {c : ℤ}, g'.lastCol = some c →
      (Sums.mk lastCol g.lastSource g.lastSourceLine g.lastSourceCol g.lastName).add rel =
        (seg, ⟨c, g'.lastSource, g'.lastSourceLine, g'.lastSourceCol, g'.lastName⟩) →
      Follows g' groups (group ++ [seg]) := by
    intro rel g' hg hc c hl hadd
    refine ⟨cur ++ [rel], c, hc, hl, ?_⟩
    rw [hg, sumLines_append, hgroups, sumLine_append, hgroup, hsums, hadd]
  cases seg with
  | one c =>
      refine ⟨{ g with lastCol := some c, curGroup := some (cur ++ [.one (c - lastCol)]) },
        ?_, hstep rfl rfl rfl ?_⟩
      · simp only [MappingsGenerator.newSegment, Segment.fields, hcur, hcol]
      · simp [Sums.add]
  | four c x l k =>
      refine ⟨{ g with
          lastCol := some c
          lastSource := x
          lastSourceLine := l
          lastSourceCol := k
          curGroup := some (cur ++ [.four (c - lastCol) (x - g.lastSource)
            (l - g.lastSourceLine) (k - g.lastSourceCol)]) }, ?_, hstep rfl rfl rfl ?_⟩
      · simp only [MappingsGenerator.newSegment, Segment.fields, hcur, hcol]
      · simp [Sums.add]
  | five c x l k n =>
      refine ⟨{ g with
          lastCol := some c
          lastSource := x
          lastSourceLine := l
          lastSourceCol := k
          lastName := n
          curGroup := some (cur ++ [.five (c - lastCol) (x - g.lastSource)
            (l - g.lastSourceLine) (k - g.lastSourceCol) (n - g.lastName)]) }, ?_,
        hstep rfl rfl rfl ?_⟩
      · simp only [MappingsGenerator.newSegment, Segment.fields, hcur, hcol]
      · simp [Sums.add]

theorem runCalls_follows : ∀ (calls : List Call) {g : MappingsGenerator} {groups : Mappings}
    {group : List Segment}, Follows g groups group →
    ∃ g', runCalls g calls = .ok g' ∧ absolute g'.mappings = givenSegments groups group calls
  | [], g, groups, group, h => by
      obtain ⟨cur, _, hcur, _, hsum⟩ := h.stored
      refine ⟨g, rfl, ?_⟩
      rw [absolute, MappingsGenerator.mappings, hcur, Option.toList_some, hsum]
      rfl
  | .newGroup :: calls, g, groups, group, h => runCalls_follows calls h.newGroup
  | .newSegment seg :: calls, g, groups, group, h => by
      obtain ⟨g₁, hg₁, h₁⟩ := h.newSegment seg
      obtain ⟨g', hg', habs⟩ := runCalls_follows calls h₁
      exact ⟨g', bind_ok.mpr ⟨g₁, hg₁, hg'⟩, habs⟩

/-- Calls that begin with `new_group` give a mapping whose sums are the segments given. -/
theorem absolute_runCalls (calls : List Call) :
    ∃ g, runCalls .init (.newGroup :: calls) = .ok g ∧
      absolute g.mappings = givenSegments [] [] calls :=
  runCalls_follows calls ⟨[], 0, rfl, rfl, rfl⟩

/-- **Source-map mappings round-trip.** -/
theorem mappings_round_trip :
    (∀ line lines, (serializeMappings (line :: lines) >>= deserializeMappings) =
      .ok (line :: lines)) ∧
    (∀ v rest, decodeVlq (encodeVlq v ++ rest) = .ok (v, rest)) ∧
    (∀ seg, decodeSegment (encodeSegment seg) = .ok (seg, [])) ∧
    (∀ calls, ∃ g, runCalls .init (.newGroup :: calls) = .ok g ∧
      absolute g.mappings = givenSegments [] [] calls) ∧
    ∀ seg calls, runCalls .init (.newSegment seg :: calls) = .error .runtimeError := by
  refine ⟨deserialize_serialize, decodeVlq_encodeVlq, decodeSegment_encodeSegment,
    absolute_runCalls, fun seg calls => ?_⟩
  cases seg <;> rfl

end JaxDas.SourceMap
