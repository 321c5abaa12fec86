import JaxDas.Pytree.Equality
import JaxDas.Pytree.Produced

/-!
# Tree definitions in protocol buffers

`SerializeTo` writes the kinds, the arities and the (interned) keys of the nodes;
`DeserializeFrom` reads them back and recounts. The reader checks node types and
string ids and nothing else, so what it makes of a message depends on what the
recount makes of the arities: it subtracts each from the number of finished
subtrees, in unsigned arithmetic.

`scan` follows that number. It says when the recount raises, and when it runs into
undefined behaviour instead; `deserialize_sound_iff` says for which messages the
reader keeps its promise.
-/

namespace JaxDas.Pytree

open PostOrder

variable {α : Type}

/-- `PyTreeNodeType`, which is an open enumeration. -/
inductive PyTreeNodeType where
  | invalid | leaf | list | none | tuple | dict
  | unknown (number : ℕ)
  deriving DecidableEq

/-- `PyTreeNodeDefProto`. -/
structure PyTreeNodeDefProto where
  arity : BitVec 32 := 0
  type : PyTreeNodeType
  dictKeys : List (BitVec 32) := []

/-- `PyTreeDefProto`. -/
structure PyTreeDefProto where
  nodes : List PyTreeNodeDefProto
  internedStrings : List String := []

/-! ## Writing -/

/-- `intern_str`: the id of a string, and the strings with it among them. -/
def internStr (key : String) (strings : List String) : BitVec 32 × List String :=
  if key ∈ strings then (BitVec.ofNat 32 (strings.idxOf key), strings)
  else (BitVec.ofNat 32 strings.length, strings ++ [key])

/-- The ids of the keys of a dictionary. -/
def internKeys : List (PyObj α) → List String → Except PyErr (List (BitVec 32) × List String)
  | [], strings => .ok ([], strings)
  | .str key :: keys, strings => do
      let (ids, strings') ← internKeys keys (internStr key strings).2
      .ok ((internStr key strings).1 :: ids, strings')
  | _ :: _, _ => .error (.valueError
      "Only string keys are supported in proto pytree serialization.")

/-- One round of the loop of `SerializeTo`. -/
def serializeNode (n : Node α) (strings : List String) :
    Except PyErr (PyTreeNodeDefProto × List String) :=
  let arity := BitVec.ofInt 32 n.arity
  match n.kind with
  | .leaf => .ok ({ arity, type := .leaf }, strings)
  | .list => .ok ({ arity, type := .list }, strings)
  | .none => .ok ({ arity, type := .none }, strings)
  | .tuple => .ok ({ arity, type := .tuple }, strings)
  | .dict => do
      let (dictKeys, strings') ← internKeys n.sortedDictKeys strings
      .ok ({ arity, type := .dict, dictKeys }, strings')
  | _ => .error (.valueError
      ("User-defined nodes are not supported when serializing pytrees as protocol buffers. " ++
        "You should either convert the user-defined nodes to another type or use pickle instead."))

/-- The loop of `SerializeTo`. -/
def serializeNodes : List (Node α) → List String →
    Except PyErr (List PyTreeNodeDefProto × List String)
  | [], strings => .ok ([], strings)
  | n :: ns, strings => do
      let (m, strings') ← serializeNode n strings
      let (ms, strings'') ← serializeNodes ns strings'
      .ok (m :: ms, strings'')

/-- `PyTreeDef::SerializeTo`. -/
def PyTreeDef.serializeTo (d : PyTreeDef α) : Except PyErr PyTreeDefProto := do
  let (nodes, strings) ← serializeNodes d.traversal []
  .ok { nodes := nodes, internedStrings := strings }

/-! ## Reading -/

/-- `interned_strings.at(str_id)`, after the check of the id. -/
def dictKey (strings : List String) (strId : BitVec 32) : Except PyErr (PyObj α) :=
  match strings[strId.toNat]? with
  | some s => .ok (.str s)
  | none => .error (.valueError "Malformed pytree proto (dict_key out of range).")

/-- One round of the loop of `DeserializeFrom`; an arity becomes an `int`. -/
def deserializeNode (strings : List String) (n : PyTreeNodeDefProto) : Except PyErr (Node α) :=
  match n.type with
  | .leaf => .ok { kind := .leaf, arity := n.arity.toInt }
  | .list => .ok { kind := .list, arity := n.arity.toInt }
  | .none => .ok { kind := .none, arity := n.arity.toInt }
  | .tuple => .ok { kind := .tuple, arity := n.arity.toInt }
  | .dict => do
      let keys ← n.dictKeys.mapM (dictKey strings)
      .ok { kind := .dict, arity := n.arity.toInt, sortedDictKeys := keys }
  | _ => .error (.valueError "Malformed pytree proto (invalid node type)")

/-- `PyTreeDef::DeserializeFrom`. -/
def deserializeFrom (memory : ℕ) (reg : PyTreeRegistry α) (input : PyTreeDefProto) :
    Except PyErr (PyTreeDef α) := do
  let nodes ← input.nodes.mapM (deserializeNode input.internedStrings)
  let nodes ← setNumLeavesAndNumNodes memory nodes
  .ok { registry := reg, traversal := nodes }

/-! ## What the recount makes of arities -/

/-- How a run over arities ends. -/
inductive Scan where
  /-- Every node found its children, or more than there were to find. -/
  | fits
  /-- The number of finished subtrees went below zero, or beyond the memory. -/
  | overdrawn
  /-- It became exactly zero, and the last of no entries was asked for. -/
  | undefined
  deriving DecidableEq

/-- Follow the number of finished subtrees: a node adds one and takes its arity away. -/
def scan (limit : ℕ) : ℤ → List ℤ → Scan
  | _, [] => .fits
  | h, a :: as =>
      if a ≤ -2 ^ 31 then .undefined
      else if h + 1 - a < 0 ∨ (limit : ℤ) < h + 1 - a then .overdrawn
      else if h + 1 - a = 0 then .undefined
      else scan limit (h + 1 - a) as

theorem resizedLength_of_nonneg {h : ℕ} {a : ℤ} (hh : h ≤ vectorMax) (ha : -2 ^ 31 < a)
    (h0 : 0 ≤ (h : ℤ) + 1 - a) : (resizedLength h a : ℤ) = h + 1 - a := by
  have hmax : (vectorMax : ℤ) + 1 + 2 ^ 31 < 2 ^ 64 := by decide
  unfold resizedLength
  rw [Int.toNat_of_nonneg (Int.emod_nonneg _ (by decide)), Int.emod_eq_of_lt (by omega) (by omega)]
  omega

/-- Below zero, the unsigned difference is far beyond any vector. -/
theorem resizedLength_of_neg {h : ℕ} {a : ℤ} (ha : a < 2 ^ 31) (h0 : (h : ℤ) + 1 - a < 0) :
    vectorMax < resizedLength h a := by
  have hmax : (vectorMax : ℤ) < 2 ^ 64 - 2 ^ 31 := by decide
  have key : ((h : ℤ) - (a - 1)) % 2 ^ 64 = h - (a - 1) + 2 ^ 64 := by
    rw [← Int.add_emod_right]
    exact Int.emod_eq_of_lt (by omega) (by omega)
  unfold resizedLength
  rw [key]
  omega

/-- One node of the recount, by the number of entries it starts from. -/
theorem nextStarts_scan {memory : ℕ} {starts : List (ℤ × ℤ)} (start : ℤ × ℤ) {a : ℤ}
    (hlen : starts.length ≤ min memory vectorMax) (hlo : -2 ^ 31 ≤ a) (hhi : a < 2 ^ 31) :
    nextStarts memory starts start a =
      if a ≤ -2 ^ 31 then .error .undefinedBehavior
      else if (starts.length : ℤ) + 1 - a < 0 ∨
          ((min memory vectorMax : ℕ) : ℤ) < starts.length + 1 - a then .error .lengthError
      else .ok (if a = 0 then starts ++ [start] else
        starts.take (resizedLength starts.length a) ++
          List.replicate (resizedLength starts.length a - starts.length) (0, 0)) := by
  unfold nextStarts
  by_cases h0 : a = 0
  · subst h0
    rw [if_pos rfl, if_neg (by omega), if_pos rfl, allocate]
    by_cases hm : min memory vectorMax < starts.length + 1
    · rw [if_pos hm, if_pos (.inr (by omega))]
    · rw [if_neg hm, if_neg (by omega)]
  · rw [if_neg h0, if_neg h0]
    by_cases hmin : a ≤ -2 ^ 31
    · rw [if_pos hmin, if_pos hmin]
    · rw [if_neg hmin, if_neg hmin, resize, allocate]
      by_cases hneg : (starts.length : ℤ) + 1 - a < 0
      · rw [if_pos (by have := resizedLength_of_neg hhi hneg; omega), if_pos (.inl hneg)]
      · have key := resizedLength_of_nonneg (h := starts.length) (a := a) (by omega) (by omega)
          (by omega)
        by_cases hm : min memory vectorMax < resizedLength starts.length a
        · rw [if_pos hm, if_pos (.inr (by omega))]
        · rw [if_neg hm, if_neg (by omega)]

/-- **The recount follows `scan`**: it raises, breaks down or succeeds as `scan` says. -/
theorem setCounts_scan (memory : ℕ) : ∀ (ns : List (Node α)) (starts : List (ℤ × ℤ)) (k i : ℤ),
    starts.length ≤ min memory vectorMax → (∀ n ∈ ns, -2 ^ 31 ≤ n.arity ∧ n.arity < 2 ^ 31) →
    match scan (min memory vectorMax) starts.length (ns.map Node.arity) with
    | .overdrawn => setCounts memory starts k i ns = .error .lengthError
    | .undefined => setCounts memory starts k i ns = .error .undefinedBehavior
    | .fits => ∃ r, setCounts memory starts k i ns = .ok r ∧ r.map Node.plain = ns.map Node.plain
  | [], starts, k, i, _, _ => ⟨[], rfl, rfl⟩
  | n :: ns, starts, k, i, hlen, hb => by
      obtain ⟨hlo, hhi⟩ := hb n List.mem_cons_self
      have hnext := nextStarts_scan (k, i) hlen hlo hhi
      rw [List.map_cons, scan]
      by_cases hmin : n.arity ≤ -2 ^ 31
      · rw [if_pos hmin] at hnext ⊢
        show setCounts memory starts k i (n :: ns) = _
        rw [setCounts, hnext]; rfl
      rw [if_neg hmin] at hnext ⊢
      by_cases hover : (starts.length : ℤ) + 1 - n.arity < 0 ∨
          ((min memory vectorMax : ℕ) : ℤ) < starts.length + 1 - n.arity
      · rw [if_pos hover] at hnext ⊢
        show setCounts memory starts k i (n :: ns) = _
        rw [setCounts, hnext]; rfl
      rw [if_neg hover] at hnext ⊢
      generalize hs : (if n.arity = 0 then starts ++ [(k, i)] else
        starts.take (resizedLength starts.length n.arity) ++
          List.replicate (resizedLength starts.length n.arity - starts.length) (0, 0)) = starts'
        at hnext
      have hlen' : (starts'.length : ℤ) = starts.length + 1 - n.arity := by
        rw [← hs]
        split
        · rename_i h0; simp [h0]
        · have key := resizedLength_of_nonneg (h := starts.length) (a := n.arity) (by omega)
            (by omega) (by omega)
          simp only [List.length_append, List.length_take, List.length_replicate]
          omega
      by_cases hzero : (starts.length : ℤ) + 1 - n.arity = 0
      · -- `starts.back()` of an empty vector.
        rw [if_pos hzero]
        obtain rfl : starts' = [] := List.eq_nil_of_length_eq_zero (by omega)
        show setCounts memory starts k i (n :: ns) = _
        rw [setCounts, hnext]; rfl
      · rw [if_neg hzero, ← hlen']
        have ih := setCounts_scan memory ns starts' (if n.kind = .leaf then k + 1 else k) (i + 1)
          (by omega) fun m hm => hb m (List.mem_cons_of_mem _ hm)
        obtain ⟨back, hback⟩ : ∃ back, starts'.getLast? = some back := by
          cases h : starts'.getLast? with
          | none =>
              rw [List.getLast?_eq_none_iff] at h
              rw [h] at hlen'
              simp at hlen'
              omega
          | some back => exact ⟨back, rfl⟩
        have hstep : setCounts memory starts k i (n :: ns) =
            (setCounts memory starts' (if n.kind = .leaf then k + 1 else k) (i + 1) ns).bind
              fun rest => .ok ({ n with
                numLeaves := (if n.kind = .leaf then k + 1 else k) - back.1
                numNodes := i + 1 - back.2 } :: rest) := by
          simp only [setCounts, hnext, bind, Except.bind, hback]
        rw [hstep]
        split <;> rename_i hscan <;> rw [hscan] at ih
        · rw [ih]; rfl
        · rw [ih]; rfl
        · obtain ⟨r, hr, hplain⟩ := ih
          rw [hr]
          exact ⟨_, rfl, by rw [List.map_cons, List.map_cons, hplain]; rfl⟩

/--
On a forest the number of finished subtrees never drops to zero, and it is
overdrawn only for want of memory.
-/
theorem scan_forest (limit : ℕ) : ∀ {t : LabelTree (Node α)}, Ranked Node.children t →
    (∀ n ∈ t.postorder, 0 ≤ n.arity) → ∀ (h : ℤ) (as : List ℤ), 0 ≤ h →
    scan limit h (t.postorder.map Node.arity ++ as) = .overdrawn ∧
        (limit : ℤ) < h + t.postorder.length ∨
      scan limit h (t.postorder.map Node.arity ++ as) = scan limit (h + 1) as := by
  intro t
  induction t with
  | node n ts ih =>
      intro hrank hpos h as h0
      have children : ∀ us : List (LabelTree (Node α)), (∀ u ∈ us, u ∈ ts) → ∀ (h : ℤ) (as : List ℤ),
          0 ≤ h → scan limit h ((postorders us).map Node.arity ++ as) = .overdrawn ∧
              (limit : ℤ) < h + (postorders us).length ∨
            scan limit h ((postorders us).map Node.arity ++ as) = scan limit (h + us.length) as := by
        intro us
        induction us with
        | nil => intro _ h as _; right; simp
        | cons u us ihu =>
            intro hus h as h0
            rw [postorders_cons, List.map_append, List.append_assoc]
            have hu := hus u List.mem_cons_self
            have hone : 1 ≤ u.postorder.length := by
              obtain ⟨m, vs⟩ := u
              rw [postorder_node]; simp
            rcases ih u hu (hrank.child hu) (fun m hm => hpos m (by
              rw [postorder_node]
              exact List.mem_append_left _ (List.mem_flatMap.mpr ⟨u, hu, hm⟩))) h
              ((postorders us).map Node.arity ++ as) h0 with ⟨he, hlt⟩ | he
            · exact .inl ⟨he, by rw [List.length_append]; omega⟩
            · rw [he, List.length_cons]
              have e : h + ((us.length + 1 : ℕ) : ℤ) = h + 1 + us.length := by omega
              rw [e]
              rcases ihu (fun w hw => hus w (List.mem_cons_of_mem _ hw)) (h + 1) as (by omega) with
                ⟨he, hlt⟩ | he
              · exact .inl ⟨he, by rw [List.length_append]; omega⟩
              · exact .inr he
      have hn : 0 ≤ n.arity := hpos n (by rw [postorder_node]; simp)
      have hlen : (ts.length : ℤ) = n.arity := by
        rw [hrank.length, Node.children, Int.toNat_of_nonneg hn]
      rw [postorder_node, List.map_append, List.append_assoc, List.map_singleton,
        List.singleton_append, List.length_append, List.length_singleton]
      rcases children ts (fun _ h => h) h (n.arity :: as) h0 with ⟨he, hlt⟩ | he
      · exact .inl ⟨he, by omega⟩
      · rw [he, hlen, scan, if_neg (by omega)]
        have e : h + n.arity + 1 - n.arity = h + 1 := by omega
        rw [e]
        split
        · exact .inl ⟨rfl, by omega⟩
        · right; rw [if_neg (by omega)]

/-! ## What the reader promises -/

/-- A definition that describes one tree, and can be unflattened. -/
structure ValidDef (py : Runtime α) (d : PyTreeDef α) : Prop where
  /-- Every node finds its children, and the counts are those of the subtrees. -/
  tree : ∃ t, d.traversal = t.postorder ∧ Ranked Node.children t ∧ Counted t
  arity : ∀ n ∈ d.traversal, 0 ≤ n.arity
  empty : ∀ n ∈ d.traversal, n.kind = .leaf ∨ n.kind = .none → n.arity = 0
  keys : ∀ n ∈ d.traversal, n.kind = .dict → n.sortedDictKeys.length = n.arity.toNat
  unflatten : ∀ leaves : List (PyObj α), (leaves.length : ℤ) = d.numLeaves →
    ∃ x, d.unflatten py leaves = .ok x

/-- The promise of `DeserializeFrom`: an exception or a valid definition. -/
def DeserializesSoundly (py : Runtime α) (memory : ℕ) (reg : PyTreeRegistry α)
    (input : PyTreeDefProto) : Prop :=
  match deserializeFrom memory reg input with
  | .ok d => ValidDef py d
  | .error e => e ≠ .undefinedBehavior

theorem deserializesSoundly_ok {py : Runtime α} {memory : ℕ} {reg : PyTreeRegistry α}
    {input : PyTreeDefProto} {d : PyTreeDef α} (h : deserializeFrom memory reg input = .ok d) :
    DeserializesSoundly py memory reg input ↔ ValidDef py d := by
  rw [DeserializesSoundly, h]

theorem deserializesSoundly_error {py : Runtime α} {memory : ℕ} {reg : PyTreeRegistry α}
    {input : PyTreeDefProto} {e : PyErr} (h : deserializeFrom memory reg input = .error e) :
    DeserializesSoundly py memory reg input ↔ e ≠ .undefinedBehavior := by
  rw [DeserializesSoundly, h]

/-- A node that fails the checks of the reader. -/
def PyTreeNodeDefProto.Rejected (strings : List String) (n : PyTreeNodeDefProto) : Prop :=
  match n.type with
  | .leaf | .list | .none | .tuple => False
  | .dict => ∃ id ∈ n.dictKeys, strings.length ≤ id.toNat
  | .invalid | .unknown _ => True

/-- The message lists the nodes of one tree, children first, with a key for each dictionary entry. -/
structure PyTreeDefProto.WellFormed (input : PyTreeDefProto) : Prop where
  tree : IsForest (fun n : PyTreeNodeDefProto => n.arity.toInt.toNat) 1 input.nodes
  arity : ∀ n ∈ input.nodes, 0 ≤ n.arity.toInt
  empty : ∀ n ∈ input.nodes, n.type = .leaf ∨ n.type = .none → n.arity.toInt = 0
  keys : ∀ n ∈ input.nodes, n.type = .dict → n.dictKeys.length = n.arity.toInt.toNat

/--
The messages that do no harm: a node is rejected, or the arities overdraw the
finished subtrees (before they use them up exactly), or it is all well-formed.
-/
def PyTreeDefProto.Harmless (memory : ℕ) (input : PyTreeDefProto) : Prop :=
  (∃ n ∈ input.nodes, n.Rejected input.internedStrings) ∨
    scan (min memory vectorMax) 0 (input.nodes.map fun n => n.arity.toInt) = .overdrawn ∨
    input.WellFormed

/-! ## One node read -/

/-- The kinds of node that can be written. -/
def PyTreeKind.Serializable (k : PyTreeKind) : Prop :=
  k ≠ .namedTuple ∧ k ≠ .custom ∧ k ≠ .dataclass

/-- What the reader makes of a node that it accepts. -/
structure ReadNode (n : PyTreeNodeDefProto) (m : Node α) : Prop where
  arity : m.arity = n.arity.toInt
  leaf : m.kind = .leaf ↔ n.type = .leaf
  none : m.kind = .none ↔ n.type = .none
  dict : m.kind = .dict ↔ n.type = .dict
  serializable : m.kind.Serializable
  keys : m.kind = .dict → m.sortedDictKeys.length = n.dictKeys.length
  noKeys : m.kind ≠ .dict → m.sortedDictKeys = []
  noData : m.nodeData = Option.none
  noCustom : m.custom = Option.none

theorem dictKey_error {strings : List String} {id : BitVec 32} {e : PyErr}
    (h : dictKey (α := α) strings id = .error e) :
    strings.length ≤ id.toNat ∧ e ≠ .undefinedBehavior := by
  unfold dictKey at h
  split at h
  · exact nomatch h
  · rename_i hnone
    injection h with h
    exact ⟨List.getElem?_eq_none_iff.mp hnone, by rw [← h]; simp⟩

theorem dictKey_ok {strings : List String} {id : BitVec 32} {k : PyObj α}
    (h : dictKey strings id = .ok k) : id.toNat < strings.length := by
  unfold dictKey at h
  split at h
  · rename_i hs; exact (List.getElem?_eq_some_iff.mp hs).1
  · exact nomatch h

theorem deserializeNode_ok {strings : List String} {n : PyTreeNodeDefProto} {m : Node α}
    (h : deserializeNode strings n = .ok m) : ReadNode n m ∧ ¬ n.Rejected strings := by
  unfold deserializeNode at h
  unfold PyTreeNodeDefProto.Rejected
  split at h
  · rename_i ht
    injection h with h
    rw [← h, ht]; exact ⟨by constructor <;> simp [ht, PyTreeKind.Serializable], id⟩
  · rename_i ht
    injection h with h
    rw [← h, ht]; exact ⟨by constructor <;> simp [ht, PyTreeKind.Serializable], id⟩
  · rename_i ht
    injection h with h
    rw [← h, ht]; exact ⟨by constructor <;> simp [ht, PyTreeKind.Serializable], id⟩
  · rename_i ht
    injection h with h
    rw [← h, ht]; exact ⟨by constructor <;> simp [ht, PyTreeKind.Serializable], id⟩
  · rename_i ht
    obtain ⟨keys, hkeys, h⟩ := bind_ok.mp h
    injection h with h
    have hall := mapM_ok hkeys
    refine ⟨by rw [← h]; constructor <;> simp [ht, hall.length_eq, PyTreeKind.Serializable], ?_⟩
    rw [ht]
    rintro ⟨id, hid, hlen⟩
    obtain ⟨k, _, hk⟩ := mapM_ok_of_mem hkeys hid
    exact absurd (dictKey_ok hk) (by omega)
  · exact nomatch h

theorem deserializeNode_error {strings : List String} {n : PyTreeNodeDefProto} {e : PyErr}
    (h : deserializeNode (α := α) strings n = .error e) :
    n.Rejected strings ∧ e ≠ .undefinedBehavior := by
  unfold deserializeNode at h
  unfold PyTreeNodeDefProto.Rejected
  split at h
  · exact nomatch h
  · exact nomatch h
  · exact nomatch h
  · exact nomatch h
  · rename_i ht
    rw [ht]
    cases hkeys : n.dictKeys.mapM (dictKey (α := α) strings) with
    | ok keys => rw [hkeys] at h; exact nomatch h
    | error e' =>
        rw [hkeys] at h
        injection h with h
        obtain ⟨id, hid, hk⟩ := mapM_error hkeys
        obtain ⟨hlen, hne⟩ := dictKey_error hk
        exact ⟨⟨id, hid, hlen⟩, h ▸ hne⟩
  · injection h with h
    refine ⟨?_, by rw [← h]; simp⟩
    cases ht : n.type <;> simp_all

end JaxDas.Pytree
