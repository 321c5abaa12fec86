import Mathlib.Data.List.Nodup
import Mathlib.Logic.Function.Basic
import Mathlib.Tactic.Common

/-!
# Intrusive lists

A doubly linked list whose links are fields of its elements, around a head that is
a node itself. `next` pointers lead from the head to a last element and end there;
`prev` pointers go round, from the head to the last element and from the first
element to the head.

`Represents` says which list the pointers stand for. The operations on pointers are
the operations on lists: `pushFront` is `cons`, `unlink` is `erase`, and `tail` is
the last element.
-/

namespace JaxDas.IntrusiveList

variable {ι : Type}

/-- The pointers of a node. A `prev` pointer points to an element, or to the head (`none`). -/
structure Node (ι : Type) where
  next : Option ι := none
  prev : Option (Option ι) := none

/-- The head, and the nodes of all the elements there are. -/
structure Links (ι : Type) where
  head : Node ι
  nodes : ι → Node ι

namespace Links

/-- A list without elements: the head is its own last node. -/
def empty : Links ι where
  head := { prev := some none }
  nodes := fun _ => {}

/-- Is the element in the list? -/
def isLinked (l : Links ι) (i : ι) : Bool := (l.nodes i).prev.isSome

/-- The node of an element, or the head. -/
def node (l : Links ι) : Option ι → Node ι
  | none => l.head
  | some i => l.nodes i

/-- The last element: the head's last node, the one before it, and forward again. -/
def tail (l : Links ι) : Option ι := do
  let last ← l.head.prev
  let before ← (l.node last).prev
  (l.node before).next

variable [DecidableEq ι]

/-- Overwrite the node of an element, or the head. -/
def setNode (l : Links ι) (p : Option ι) (n : Node ι) : Links ι :=
  match p with
  | none => { l with head := n }
  | some i => { l with nodes := Function.update l.nodes i n }

/-- `p->next = next`. -/
def setNext (l : Links ι) (p next : Option ι) : Links ι :=
  l.setNode p { l.node p with next := next }

/-- `p->prev = prev`. -/
def setPrev (l : Links ι) (p prev : Option ι) : Links ι :=
  l.setNode p { l.node p with prev := some prev }

/-- Put an element that is not in the list in front of it. -/
def pushFront (l : Links ι) (i : ι) : Links ι :=
  let l₁ := l.setNode (some i) { next := l.head.next, prev := some none }
  let l₂ := l₁.setPrev l.head.next (some i)
  l₂.setNext none (some i)

/-- Take an element out of the list; the head follows the last element. -/
def unlink (l : Links ι) (i : ι) : Links ι :=
  match (l.nodes i).prev with
  | none => l
  | some p =>
      let l₁ := l.setNext p (l.nodes i).next
      let l₂ := l₁.setPrev (l.nodes i).next p
      l₂.setNode (some i) {}

end Links

/-! ## Stretches of a list -/

/-- The nodes of `is` are linked one after the other, between `p` and `q`. -/
def Segment (nodes : ι → Node ι) : Option ι → List ι → Option ι → Prop
  | _, [], _ => True
  | p, i :: is, q =>
      nodes i = { next := is.head?.or q, prev := some p } ∧ Segment nodes (some i) is q

theorem segment_append {nodes : ι → Node ι} {q : Option ι} : ∀ {p : Option ι} {is js : List ι},
    Segment nodes p (is ++ js) q ↔
      Segment nodes p is (js.head?.or q) ∧ Segment nodes (is.getLast?.or p) js q
  | p, [], js => by simp [Segment]
  | p, i :: is, js => by
      rw [List.cons_append, Segment, Segment, segment_append, and_assoc]
      cases is with
      | nil => simp [Segment]
      | cons j is =>
          have hlast : (j :: is).getLast?.or (some i) = (i :: j :: is).getLast?.or p := by
            rw [List.getLast?_cons_cons, List.getLast?_cons]; rfl
          rw [hlast]
          simp

/-- A segment depends on the nodes of its elements only. -/
theorem Segment.congr {nodes nodes' : ι → Node ι} {q : Option ι} :
    ∀ {p : Option ι} {is : List ι}, Segment nodes p is q → (∀ i ∈ is, nodes' i = nodes i) →
      Segment nodes' p is q
  | _, [], _, _ => trivial
  | _, i :: _, ⟨hi, his⟩, h =>
      ⟨(h i List.mem_cons_self).trans hi, his.congr fun j hj => h j (List.mem_cons_of_mem _ hj)⟩

/-- Every element of a segment has a `prev` pointer. -/
theorem Segment.prev {nodes : ι → Node ι} {q : Option ι} :
    ∀ {p : Option ι} {is : List ι}, Segment nodes p is q → ∀ i ∈ is, (nodes i).prev.isSome
  | _, [], _, i, hi => absurd hi (by simp)
  | _, j :: is, ⟨hj, his⟩, i, hi => by
      rcases List.mem_cons.mp hi with rfl | hi
      · rw [hj]; rfl
      · exact his.prev i hi

section Update

variable [DecidableEq ι] {l : Links ι}

@[simp] theorem setNode_none (n : Node ι) : (l.setNode none n).nodes = l.nodes := rfl

theorem setNode_of_ne {p : Option ι} {n : Node ι} {i : ι} (h : p ≠ some i) :
    (l.setNode p n).nodes i = l.nodes i := by
  cases p with
  | none => rfl
  | some j =>
      have hij : i ≠ j := fun he => h (by rw [he])
      exact Function.update_of_ne hij _ _

@[simp] theorem setNode_head (i : ι) (n : Node ι) : (l.setNode (some i) n).head = l.head := rfl

/-- Nodes other than the one written keep their place in a segment. -/
theorem Segment.setNode {p q r : Option ι} {is : List ι} {n : Node ι}
    (h : Segment l.nodes p is q) (hr : ∀ i ∈ is, r ≠ some i) :
    Segment (l.setNode r n).nodes p is q :=
  h.congr fun i hi => setNode_of_ne (hr i hi)

/-- Redirecting the last `next` pointer of a segment. -/
theorem Segment.setNext {q q' : Option ι} : ∀ {p : Option ι} {is : List ι}, is.Nodup →
    Segment l.nodes p is q → Segment (l.setNext is.getLast? q').nodes p is q'
  | _, [], _, _ => trivial
  | p, [i], _, ⟨hi, _⟩ => by
      refine ⟨?_, trivial⟩
      show Function.update l.nodes i _ i = _
      rw [Function.update_self]
      show { l.nodes i with next := q' } = _
      rw [hi]; rfl
  | p, i :: j :: is, hnd, ⟨hi, his⟩ => by
      have hlast : (i :: j :: is).getLast? = (j :: is).getLast? := by simp
      have hne : (j :: is).getLast? ≠ some i := fun h =>
        (List.nodup_cons.mp hnd).1 (List.mem_of_getLast? h)
      rw [hlast]
      exact ⟨(setNode_of_ne hne).trans hi, Segment.setNext (List.nodup_cons.mp hnd).2 his⟩

/-- Redirecting the first `prev` pointer of a segment. -/
theorem Segment.setPrev {p p' q : Option ι} {is : List ι} (hnd : is.Nodup)
    (h : Segment l.nodes p is q) : Segment (l.setPrev is.head? p').nodes p' is q := by
  cases is with
  | nil => trivial
  | cons i is =>
      obtain ⟨hi, his⟩ := h
      refine ⟨?_, his.setNode fun j hj h => ?_⟩
      · show Function.update l.nodes i _ i = _
        rw [Function.update_self]
        show { l.nodes i with prev := some p' } = _
        rw [hi]
      · injection h with h
        exact (List.nodup_cons.mp hnd).1 (h ▸ hj)

end Update

/-! ## Whole lists -/

/-- The pointers stand for the list `is`, and all other elements are unlinked. -/
structure Represents (l : Links ι) (is : List ι) : Prop where
  nodup : is.Nodup
  head : l.head = { next := is.head?, prev := some is.getLast? }
  segment : Segment l.nodes none is none
  unlinked : ∀ i, i ∉ is → l.nodes i = {}

theorem represents_empty : Represents (Links.empty : Links ι) [] where
  nodup := List.nodup_nil
  head := rfl
  segment := trivial
  unlinked _ _ := rfl

theorem Represents.isLinked_iff {l : Links ι} {is : List ι} (h : Represents l is) (i : ι) :
    l.isLinked i = true ↔ i ∈ is := by
  constructor
  · intro hi
    by_contra hmem
    rw [Links.isLinked, h.unlinked i hmem] at hi
    exact absurd hi (by simp)
  · exact h.segment.prev i

/-- **The last element.** -/
theorem Represents.tail_eq {l : Links ι} {is : List ι} (h : Represents l is) :
    l.tail = is.getLast? := by
  unfold Links.tail
  rw [h.head]
  rcases List.eq_nil_or_concat is with rfl | ⟨is', i, rfl⟩
  · show (do let before ← l.head.prev; (l.node before).next) = _
    rw [h.head]
    show (l.node none).next = _
    rw [Links.node, h.head]; rfl
  · have hseg := h.segment
    rw [List.concat_eq_append] at hseg ⊢
    obtain ⟨hinit, hi, _⟩ := segment_append.mp hseg
    rw [List.getLast?_concat]
    show (do let before ← (l.nodes i).prev; (l.node before).next) = _
    rw [hi]
    -- One step back from the last element, and forward again.
    rcases List.eq_nil_or_concat is' with rfl | ⟨is'', j, rfl⟩
    · show (l.node none).next = _
      rw [Links.node, h.head]; rfl
    · rw [List.concat_eq_append] at hinit ⊢
      obtain ⟨_, hj, _⟩ := segment_append.mp hinit
      simp only [List.getLast?_concat, Option.some_or]
      show (l.nodes j).next = _
      rw [hj]; rfl

variable [DecidableEq ι]

/-- **`pushFront` is `cons`.** -/
theorem Represents.pushFront {l : Links ι} {is : List ι} (h : Represents l is) {i : ι}
    (hi : i ∉ is) : Represents (l.pushFront i) (i :: is) := by
  have hnext : l.head.next = is.head? := by rw [h.head]
  have hne : ∀ j ∈ is, some i ≠ some j := fun j hj h => hi (by injection h with h; exact h ▸ hj)
  have hhead : is.head? ≠ some i := fun h => hi (List.mem_of_head? h)
  have hseg : Segment ((l.setNode (some i) { next := is.head?, prev := some none }).setPrev
      is.head? (some i)).nodes (some i) is none := (h.segment.setNode hne).setPrev h.nodup
  unfold Links.pushFront
  rw [hnext]
  refine ⟨List.nodup_cons.mpr ⟨hi, h.nodup⟩, ?_, ⟨?_, hseg⟩, fun j hj => ?_⟩
  · cases is with
    | nil => rfl
    | cons k is =>
        show { ({ l.head with next := some i } : Node ι) with } = _
        rw [h.head]; rfl
  · -- The new node was written first, and only its successor after it.
    show ((l.setNode (some i) { next := is.head?, prev := some none }).setPrev is.head?
      (some i)).nodes i = _
    rw [Links.setPrev, setNode_of_ne hhead]
    show Function.update l.nodes i _ i = _
    rw [Function.update_self, Option.or_none]
  · have hji : j ≠ i := fun he => hj (he ▸ List.mem_cons_self)
    have hjis : j ∉ is := fun hmem => hj (List.mem_cons_of_mem _ hmem)
    show ((l.setNode (some i) { next := is.head?, prev := some none }).setPrev is.head?
      (some i)).nodes j = _
    rw [Links.setPrev, setNode_of_ne fun he => hjis (List.mem_of_head? he),
      setNode_of_ne fun he => hji (by injection he with he; exact he.symm)]
    exact h.unlinked j hjis

theorem Represents.unlink_append {l : Links ι} {is js : List ι} {i : ι}
    (h : Represents l (is ++ i :: js)) : Represents (l.unlink i) (is ++ js) := by
  obtain ⟨his, hi, hjs⟩ := segment_append.mp h.segment
  rw [Option.or_none, Option.or_none] at hi
  have hnd := List.nodup_append.mp h.nodup
  have hndjs := List.nodup_cons.mp hnd.2.1
  -- Neither neighbour is in the other half, and `i` is in none.
  have hlast : ∀ j ∈ js, is.getLast? ≠ some j := fun j hj he =>
    hnd.2.2 j (List.mem_of_getLast? he) j (List.mem_cons_of_mem _ hj) rfl
  have hhead : ∀ j ∈ is, js.head? ≠ some j := fun j hj he =>
    hnd.2.2 j hj j (List.mem_cons_of_mem _ (List.mem_of_head? he)) rfl
  have hmid : ∀ j ∈ is ++ js, some i ≠ some j := fun j hj he => by
    injection he with he
    subst he
    rcases List.mem_append.mp hj with hj | hj
    · exact hnd.2.2 i hj i List.mem_cons_self rfl
    · exact hndjs.1 hj
  have hunlink : l.unlink i =
      ((l.setNext is.getLast? js.head?).setPrev js.head? is.getLast?).setNode (some i) {} := by
    rw [Links.unlink, hi]
  rw [hunlink]
  refine ⟨?_, ?_, ?_, fun j hj => ?_⟩
  · exact (h.nodup.sublist (List.Sublist.append_left (List.sublist_cons_self i js) is))
  · show ((l.setNext is.getLast? js.head?).setPrev js.head? is.getLast?).head = _
    have hh := h.head
    rcases List.eq_nil_or_concat is with rfl | ⟨is', k, rfl⟩ <;> cases js with
    | nil => simp_all [Links.setPrev, Links.setNext, Links.setNode, Links.node]
    | cons j js => simp_all [Links.setPrev, Links.setNext, Links.setNode, Links.node]
  · refine Segment.setNode (segment_append.mpr ⟨?_, ?_⟩) hmid
    · rw [Option.or_none]
      exact Segment.setNode (Segment.setNext hnd.1 his) hhead
    · rw [Option.or_none]
      exact Segment.setPrev hndjs.2 (Segment.setNode hjs hlast)
  · by_cases hji : j = i
    · subst hji
      exact Function.update_self _ _ _
    · have hj' : j ∉ is ∧ j ∉ js := by simpa using hj
      rw [setNode_of_ne fun he => hji (by injection he with he; exact he.symm), Links.setPrev,
        setNode_of_ne fun he => hj'.2 (List.mem_of_head? he), Links.setNext,
        setNode_of_ne fun he => hj'.1 (List.mem_of_getLast? he)]
      exact h.unlinked j (by simp [hj', hji])

/-- **`unlink` is `erase`.** -/
theorem Represents.unlink {l : Links ι} {is : List ι} (h : Represents l is) {i : ι} (hi : i ∈ is) :
    Represents (l.unlink i) (is.erase i) := by
  obtain ⟨before, after, rfl⟩ := List.append_of_mem hi
  have hnot : i ∉ before := fun hmem =>
    (List.nodup_append.mp h.nodup).2.2 i hmem i List.mem_cons_self rfl
  rw [List.erase_append_right _ hnot, List.erase_cons_head]
  exact h.unlink_append

end JaxDas.IntrusiveList
