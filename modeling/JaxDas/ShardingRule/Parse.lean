import JaxDas.ShardingRule.Mapping

/-!
# The parser of sharding rules

A rule gives the values of the operands, an arrow, and the values of the results. The values
are parsed one character after the other, with the array mappings that are done, the one
that is being read, the factor that is being read and the compound factor that is open.
-/

namespace JaxDas.ShardingRule

variable (P : CharClasses)

/-- `rule.split()` -/
def split : List Char → List (List Char)
  | [] => []
  | c :: s =>
      if P.isspace c then split s
      else if s.head?.all P.isspace then [c] :: split s
      else
        match split s with
        | [] => [[c]]
        | w :: ws => (c :: w) :: ws

/-- `" ".join(rule.split())` -/
def normalize (s : List Char) : List Char := [' '].intercalate (split P s)

/-- The local variables of `_parse_values`. -/
structure Reading where
  allValues : List (ArrayMapping P)
  value : List (Dim P)
  currentFactor : Option (List Char)
  currentCompoundDim : Option (List (List Char))

namespace Reading

variable {P}

/-- `add_factor` -/
def addFactor (st : Reading P) (x : List Char) : Reading P :=
  match st.currentCompoundDim with
  | none => { st with value := st.value ++ [.factor x] }
  | some dims => { st with currentCompoundDim := some (dims ++ [x]) }

/-- The factor that is being read is complete. -/
def flush (st : Reading P) : Reading P :=
  match st.currentFactor with
  | none => st
  | some x => { st.addFactor x with currentFactor := none }

/-- A bracket, a comma or a space, once the factor before it is complete. -/
def separator (c : Char) (st : Reading P) : Except String (Reading P) :=
  if c = '(' then
    match st.currentCompoundDim with
    | some _ => .error
        "Compound factors should be one level, nested brackets are not allowed"
    | none => .ok { st with currentCompoundDim := some [] }
  else if c = ')' then
    match st.currentCompoundDim with
    | none => .error "Brackets are not balanced"
    | some dims =>
        if dims.length ≤ 1 then .error "Brackets should contain at least two factors"
        else CompoundFactor.new P dims >>= fun compound =>
          .ok { st with value := st.value ++ [.compound compound], currentCompoundDim := none }
  else if c = ',' then
    ArrayMapping.new P st.value >>= fun mapping =>
      .ok { st with allValues := st.allValues ++ [mapping], value := [] }
  else .ok st

/-- A character of a factor. -/
def extend (c : Char) (st : Reading P) : Except String (Reading P) :=
  match st.currentFactor with
  | none =>
      if P.isdigit c then
        .error ("Factor names have to start with a letter, but got '" ++ toString c ++ "'")
      else .ok { st with currentFactor := some [c] }
  | some x => .ok { st with currentFactor := some (x ++ [c]) }

/-- A character other than `BATCHING`. -/
def char (c : Char) (st : Reading P) : Except String (Reading P) :=
  if c ∈ ['(', ')', ',', ' '] then st.flush.separator c
  else if P.isWord c then st.extend c
  else .error ("Unknown character '" ++ toString c ++ "'")

/-- `BATCHING`, before the rest of the rule, whose digits number the group. -/
def ellipsis (rest : List Char) (st : Reading P) : Except String (Reading P) :=
  if st.currentFactor.isSome || st.currentCompoundDim.isSome || !st.value.isEmpty then
    .error "Ellipsis can only be used at the beginning of a dimension"
  else
    (if (rest.takeWhile P.isdigit).isEmpty then .ok 0 else P.int (rest.takeWhile P.isdigit)) >>=
      fun group => .ok (st.addFactor (batching :: str group))

/-- The loop over the characters of the rule. -/
def loop : List Char → Reading P → Except String (Reading P)
  | [], st => .ok st
  | c :: rest, st =>
      if c = batching then st.ellipsis rest >>= loop (rest.dropWhile P.isdigit)
      else st.char c >>= loop rest
  termination_by s => s.length
  decreasing_by
    · have := (List.dropWhile_sublist P.isdigit (l := rest)).length_le
      simp only [List.length_cons]
      omega
    · simp

/-- What follows the loop. -/
def finish (rule : List Char) (st : Reading P) : Except String (List (ArrayMapping P)) :=
  if st.currentCompoundDim.isSome then
    .error ("Brackets are not balanced in rule: '" ++ String.ofList rule ++ "'")
  else ArrayMapping.new P st.flush.value >>= fun mapping => .ok (st.allValues ++ [mapping])

end Reading

/-- `_parse_values` -/
def parseValues (rule : List Char) : Except String (List (ArrayMapping P)) :=
  if (normalize P rule).isEmpty then ArrayMapping.new P [] >>= fun scalar => .ok [scalar]
  else Reading.loop (normalize P rule) ⟨[], [], none, none⟩ >>=
    Reading.finish (normalize P rule)

/-- `rule.replace("...", BATCHING)` -/
def replaceDots : List Char → List Char
  | '.' :: '.' :: '.' :: s => batching :: replaceDots s
  | c :: s => c :: replaceDots s
  | [] => []

/-- `rule.split("->")` -/
def splitArrow : List Char → List (List Char)
  | '-' :: '>' :: s => [] :: splitArrow s
  | c :: s =>
      match splitArrow s with
      | [] => [[c]]
      | w :: ws => (c :: w) :: ws
  | [] => [[]]

/-- The part of `str_to_sdy_sharding_rule` that reads the rule: the mappings of the operands
and of the results. -/
def parseRule (rule : List Char) :
    Except String (List (ArrayMapping P) × List (ArrayMapping P)) :=
  if batching ∈ rule then .error "Unknown character '…'"
  else if '.' ∈ replaceDots rule then
    .error "Character '.' must be used inside ellipsis '...'"
  else
    match splitArrow (replaceDots rule) with
    | [operands, results] => do
        let operandMappings ← parseValues P operands
        let resultMappings ← parseValues P results
        return (operandMappings, resultMappings)
    | _ => .error ("There is no -> in rule: '" ++ String.ofList (replaceDots rule) ++ "'")

end JaxDas.ShardingRule
