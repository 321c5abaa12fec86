import Mathlib.Data.List.Basic

/-!
# The MIOpen calls of the attention kernel

`miOpenMhaFwd_` and the workspace query of `miopen_mha_kernel.cc` as sequences of calls. Every call
may fail, and `MIOPEN_CHECK_RETURN` then returns at once. A trace records what was obtained, used and
destroyed on the way.
-/

namespace JaxDas.MiopenMha

/-- The tensors of the problem. -/
inductive Tensor where
  | q
  | k
  | v
  | paddingmask
  | bias
  | o
deriving DecidableEq, Repr

/-- What MIOpen hands out and the caller has to destroy. -/
inductive Resource where
  | mhaDescriptor
  | problem
  | tensorDescriptor (t : Tensor)
  | solution (i : ℕ)
deriving DecidableEq, Repr

inductive Event where
  | obtained (r : Resource)
  | used (r : Resource)
  | destroyed (r : Resource)
deriving DecidableEq, Repr

inductive Call where
  | createMhaDescriptor
  | setMhaDescriptor
  | createMhaProblem
  | createTensorDescriptor (t : Tensor)
  | setTensorDescriptorV2 (t : Tensor)
  | setProblemTensorDescriptor (t : Tensor)
  | findSolutions
  | getSolutionWorkspaceSize
  | runSolution
  | destroyTensorDescriptor (t : Tensor)
  | destroyProblem
deriving DecidableEq, Repr

/-- What is not in the caller's hands. -/
structure Library where
  /-- Unpacking the descriptor and borrowing a handle. -/
  starts : Bool
  succeeds : Call → Bool
  /-- How many solutions `miopenFindSolutions` finds. -/
  found : ℕ
  /-- What `miopenGetSolutionWorkspaceSize` writes. -/
  workspace_size : UInt64

namespace Call

/-- The resources that are passed to a call. -/
def uses : Call → List Resource
  | createMhaDescriptor => []
  | setMhaDescriptor => [.mhaDescriptor]
  | createMhaProblem => [.mhaDescriptor]
  | createTensorDescriptor _ => []
  | setTensorDescriptorV2 t => [.tensorDescriptor t]
  | setProblemTensorDescriptor t => [.problem, .tensorDescriptor t]
  | findSolutions => [.problem]
  | getSolutionWorkspaceSize => [.solution 0]
  | runSolution =>
      [.solution 0, .tensorDescriptor .q, .tensorDescriptor .k, .tensorDescriptor .v,
        .tensorDescriptor .bias, .tensorDescriptor .paddingmask, .tensorDescriptor .o]
  | destroyTensorDescriptor t => [.tensorDescriptor t]
  | destroyProblem => [.problem]

/-- What a call does when it succeeds, after it has used its arguments. -/
def effects (found : ℕ) : Call → List Event
  | createMhaDescriptor => [.obtained .mhaDescriptor]
  | createMhaProblem => [.obtained .problem]
  | createTensorDescriptor t => [.obtained (.tensorDescriptor t)]
  | findSolutions => (List.range found).map fun i => .obtained (.solution i)
  | destroyTensorDescriptor t => [.destroyed (.tensorDescriptor t)]
  | destroyProblem => [.destroyed .problem]
  | _ => []

end Call

inductive Step where
  | call (c : Call)
  /-- `if (found == 0) return` -/
  | requireFound
deriving DecidableEq, Repr

inductive Status where
  | notStarted
  | failed (c : Call)
  | noSolution
deriving DecidableEq, Repr

/-- The events of a sequence of steps, and why it returned early. -/
def run (lib : Library) : List Step → List Event × Except Status Unit
  | [] => ([], .ok ())
  | .requireFound :: rest =>
      if lib.found = 0 then ([], .error .noSolution) else run lib rest
  | .call c :: rest =>
      let used := c.uses.map Event.used
      if lib.succeeds c then
        let (events, status) := run lib rest
        (used ++ c.effects lib.found ++ events, status)
      else (used, .error (.failed c))

/-- From the descriptor of the attention to the solutions; the same in both functions. -/
def prepare : List Step :=
  [.call .createMhaDescriptor,
   .call .setMhaDescriptor,
   .call .createMhaProblem,
   .call (.createTensorDescriptor .q),
   .call (.createTensorDescriptor .k),
   .call (.createTensorDescriptor .v),
   .call (.createTensorDescriptor .paddingmask),
   .call (.setTensorDescriptorV2 .paddingmask),
   .call (.setProblemTensorDescriptor .paddingmask),
   .call (.createTensorDescriptor .bias),
   .call (.setTensorDescriptorV2 .bias),
   .call (.setProblemTensorDescriptor .bias),
   .call (.setTensorDescriptorV2 .q),
   .call (.setTensorDescriptorV2 .k),
   .call (.setTensorDescriptorV2 .v),
   .call (.setProblemTensorDescriptor .q),
   .call (.setProblemTensorDescriptor .k),
   .call (.setProblemTensorDescriptor .v),
   .call (.createTensorDescriptor .o),
   .call (.setTensorDescriptorV2 .o),
   .call (.setProblemTensorDescriptor .o),
   .call .findSolutions,
   .requireFound]

/-- The release sequence at the end of both functions. -/
def release : List Step :=
  [.call (.destroyTensorDescriptor .q),
   .call (.destroyTensorDescriptor .k),
   .call (.destroyTensorDescriptor .v),
   .call (.destroyTensorDescriptor .o),
   .call (.destroyTensorDescriptor .paddingmask),
   .call (.destroyTensorDescriptor .bias),
   .call .destroyProblem]

/-- A function whose own call comes between the preparation and the release. -/
def mhaFunction (own : Call) (lib : Library) : List Event × Except Status Unit :=
  if lib.starts then run lib (prepare ++ .call own :: release)
  else ([], .error .notStarted)

/-- `miOpenMhaFwd_` -/
def miOpenMhaFwd (lib : Library) : List Event × Except Status Unit :=
  mhaFunction .runSolution lib

/-- `DoMiopenComputeWorkspaceReserveSpaceSizes`, up to its result. -/
def workspaceQuery (lib : Library) : List Event × Except Status Unit :=
  mhaFunction .getSolutionWorkspaceSize lib

/-! ## What is released -/

/-- Everything that was obtained has been destroyed once, and was not touched after that. -/
structure Released (events : List Event) : Prop where
  destroyed_once : ∀ r, .obtained r ∈ events → events.count (.destroyed r) = 1
  not_used_after : ∀ r before after, events = before ++ .destroyed r :: after → .used r ∉ after

theorem released_nil : Released [] where
  destroyed_once _ h := by cases h
  not_used_after _ before _ h := by cases before <;> cases h

/-- What a call does when it succeeds. -/
def Call.events (found : ℕ) (c : Call) : List Event := c.uses.map .used ++ c.effects found

def Step.events (found : ℕ) : Step → List Event
  | .call c => c.events found
  | .requireFound => []

theorem run_of_succeeds {lib : Library} (hcalls : ∀ c, lib.succeeds c = true)
    (hfound : lib.found ≠ 0) :
    ∀ steps : List Step, run lib steps = (steps.flatMap (Step.events lib.found), .ok ())
  | [] => rfl
  | .requireFound :: rest => by
      rw [run, if_neg hfound, run_of_succeeds hcalls hfound rest]
      rfl
  | .call c :: rest => by
      rw [run, if_pos (hcalls c), run_of_succeeds hcalls hfound rest]
      rfl

theorem count_destroyed_events (found : ℕ) (c : Call) (t : Tensor) :
    (c.events found).count (.destroyed (.tensorDescriptor t)) =
      if c = .destroyTensorDescriptor t then 1 else 0 := by
  have hused : (c.uses.map Event.used).count (.destroyed (.tensorDescriptor t)) = 0 :=
    List.count_eq_zero.mpr (by simp)
  rw [Call.events, List.count_append, hused, Nat.zero_add]
  cases c with
  | findSolutions => exact List.count_eq_zero.mpr (by simp [Call.effects])
  | destroyTensorDescriptor t' => cases t <;> cases t' <;> rfl
  | _ => rfl

/-- When nothing fails, the descriptors of the tensors are destroyed once. -/
theorem tensorDescriptors_destroyed {lib : Library} (hcalls : ∀ c, lib.succeeds c = true)
    (hfound : lib.found ≠ 0) (own : Call) (hown : ∀ t, own ≠ .destroyTensorDescriptor t)
    (t : Tensor) : (run lib (prepare ++ .call own :: release)).1.count
      (.destroyed (.tensorDescriptor t)) = 1 := by
  rw [run_of_succeeds hcalls hfound]
  simp only [prepare, release, List.cons_append, List.nil_append, List.flatMap_cons,
    List.flatMap_nil, Step.events, List.count_append, count_destroyed_events, List.count_nil, hown t, if_false]
  cases t <;> rfl

/-- No call destroys the descriptor of the attention. -/
theorem destroyed_mhaDescriptor_notMem (lib : Library) :
    ∀ steps : List Step, .destroyed .mhaDescriptor ∉ (run lib steps).1
  | [] => List.not_mem_nil
  | .requireFound :: rest => by
      rw [run]
      split
      · exact List.not_mem_nil
      · exact destroyed_mhaDescriptor_notMem lib rest
  | .call c :: rest => by
      have hused : Event.destroyed .mhaDescriptor ∉ c.uses.map Event.used := by
        simp
      have heffects : Event.destroyed .mhaDescriptor ∉ c.effects lib.found := by
        cases c <;> simp [Call.effects]
      rw [run]
      split
      · simp only [List.mem_append, not_or]
        exact ⟨⟨hused, heffects⟩, destroyed_mhaDescriptor_notMem lib rest⟩
      · exact hused

theorem obtained_mhaDescriptor_mem {lib : Library} (h : lib.succeeds .createMhaDescriptor = true)
    (rest : List Step) :
    .obtained .mhaDescriptor ∈ (run lib (.call .createMhaDescriptor :: rest)).1 := by
  rw [run, if_pos h]
  exact List.mem_append_left _ (List.mem_append_right _ List.mem_cons_self)

theorem mhaFunction_released_iff (own : Call) (lib : Library) :
    Released (mhaFunction own lib).1 ↔
      ¬ (lib.starts = true ∧ lib.succeeds .createMhaDescriptor = true) := by
  constructor
  · rintro hreleased ⟨hstarts, hcreate⟩
    rw [mhaFunction, if_pos hstarts] at hreleased
    have hobtained := obtained_mhaDescriptor_mem hcreate
      (prepare.tail ++ .call own :: release)
    have honce := hreleased.destroyed_once _ hobtained
    have hnever := List.count_eq_zero.mpr
      (destroyed_mhaDescriptor_notMem lib (prepare ++ .call own :: release))
    omega
  · intro hnot
    have hempty : (mhaFunction own lib).1 = [] := by
      unfold mhaFunction
      split
      · next hstarts =>
          have hfails : ¬ lib.succeeds .createMhaDescriptor = true := fun h => hnot ⟨hstarts, h⟩
          rw [prepare, List.cons_append, run, if_neg hfails]
          rfl
      · rfl
    rw [hempty]
    exact released_nil

/-- Both functions release everything only if they obtain nothing. -/
theorem released_iff (lib : Library) :
    (Released (miOpenMhaFwd lib).1 ↔
      ¬ (lib.starts = true ∧ lib.succeeds .createMhaDescriptor = true)) ∧
    (Released (workspaceQuery lib).1 ↔
      ¬ (lib.starts = true ∧ lib.succeeds .createMhaDescriptor = true)) :=
  ⟨mhaFunction_released_iff _ lib, mhaFunction_released_iff _ lib⟩

/-- Every call succeeds, and one solution is found. -/
def noFailure : Library := ⟨true, fun _ => true, 1, 0⟩

theorem noFailure_not_released : ¬ Released (miOpenMhaFwd noFailure).1 := by
  intro h
  have honce := h.destroyed_once .mhaDescriptor (by decide)
  exact absurd honce (by decide)

end JaxDas.MiopenMha
