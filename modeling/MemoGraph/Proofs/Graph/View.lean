import Mathlib.Data.List.Basic
import Mathlib.Tactic.Tauto
import MemoGraph.Graph.Basic

namespace MemoGraph

/-! A graph as a total function from keys to nodes.

`nodeAt` reads a key without a node as a blank one, which is what every
operation of a round makes of it. What an operation does to a graph is said by
what it does to `nodeAt` at each key, and to the set of keys with a node.
-/

namespace Node

variable {κ ν φ : Type} {node : Node κ ν φ}

/-- Whether a round can take the node up: its result is not valid, and no round
works on it. -/
def isIdle (node : Node κ ν φ) : Bool := node.takeUp?.isSome

theorem result?_eq_some_iff {result : Result κ ν φ} :
    node.result? = some result ↔ node.work = none ∧ node.memo = .valid result := by
  unfold result?
  cases node.work <;> cases node.memo <;> simp

theorem isSettled_iff :
    node.isSettled = true ↔ node.work = none ∧ ∃ result, node.memo = .valid result := by
  unfold isSettled
  rw [Option.isSome_iff_exists]
  constructor
  · rintro ⟨result, found⟩
    exact ⟨(result?_eq_some_iff.mp found).1, result, (result?_eq_some_iff.mp found).2⟩
  · rintro ⟨free, result, valid⟩
    exact ⟨result, result?_eq_some_iff.mpr ⟨free, valid⟩⟩

theorem result?_of_work (taken : node.work.isSome = true) : node.result? = none := by
  cases found : node.result? with
  | none => rfl
  | some result => simp [(result?_eq_some_iff.mp found).1] at taken

theorem isIdle_iff : node.isIdle = true ↔ node.work = none ∧ node.result? = none := by
  unfold isIdle takeUp? result? firstPhase?
  cases node.work <;> cases node.memo <;> simp

theorem isIdle_eq_false_iff :
    node.isIdle = false ↔ node.work.isSome = true ∨ node.result?.isSome = true := by
  rw [← Bool.not_eq_true, isIdle_iff]
  cases node.work <;> cases node.result? <;> simp

theorem takeUp?_eq_some_iff {taken : Node κ ν φ} :
    node.takeUp? = some taken ↔ node.work = none ∧
      ∃ phase, firstPhase? node.memo = some phase ∧
        taken = { node with work := some { phase } } := by
  unfold takeUp?
  cases node.work <;> cases firstPhase? node.memo <;> simp [eq_comm]

theorem takeUp?_of_not_idle (busy : node.isIdle = false) : node.takeUp? = none := by
  unfold isIdle at busy
  exact Option.isSome_eq_false_iff.mp busy |> Option.isNone_iff_eq_none.mp

theorem state_eq_evaluating_iff : node.state = .evaluating ↔ node.work.isSome = true := by
  unfold state
  split
  · rename_i taken
    simp [taken]
  · rename_i free
    refine ⟨fun same => ?_, fun taken => absurd taken free⟩
    unfold Memo.state at same
    split at same <;> cases same

section UpdateWork

variable (change : Work κ φ → Work κ φ)

@[simp] theorem updateWork_work : (node.updateWork change).work = node.work.map change := rfl
@[simp] theorem updateWork_dependencies :
    (node.updateWork change).dependencies = node.dependencies := rfl
@[simp] theorem updateWork_dependents :
    (node.updateWork change).dependents = node.dependents := rfl

@[simp] theorem updateWork_result? : (node.updateWork change).result? = node.result? := by
  unfold result? updateWork
  cases node.work <;> rfl

theorem updateWork_of_fixed (fixed : ∀ work, node.work = some work → change work = work) :
    node.updateWork change = node := by
  obtain ⟨_, _, _, _, _, _, work⟩ := node
  cases work with
  | none => rfl
  | some work => simp [updateWork, fixed work rfl]

theorem updateWork_updateWork (first second : Work κ φ → Work κ φ) :
    (node.updateWork first).updateWork second = node.updateWork (second ∘ first) := by
  simp [updateWork]

theorem updateWork_id : node.updateWork id = node := updateWork_of_fixed id fun _ _ => rfl

theorem updateWork_work_of_work {work : Work κ φ} (found : node.work = some work) :
    (node.updateWork change).work = some (change work) := by
  rw [updateWork_work, found]
  rfl

end UpdateWork

variable [DecidableEq κ]

/-- The node once `dependent`, which needed it or not, needs it or not. -/
def relinked (node : Node κ ν φ) (dependent : κ) (needed needs : Bool) : Node κ ν φ :=
  { node with
    dependents :=
      if needed && !needs then node.dependents.filter (· ≠ dependent)
      else if needs && !needed && dependent ∉ node.dependents then dependent :: node.dependents
      else node.dependents }

@[simp] theorem relinked_dependencies (dependent : κ) (needed needs : Bool) :
    (node.relinked dependent needed needs).dependencies = node.dependencies := rfl

theorem addDependent_eq (dependent : κ) :
    node.addDependent dependent = node.relinked dependent false true := by
  unfold addDependent relinked
  by_cases listed : dependent ∈ node.dependents <;> simp [listed]

theorem removeDependent_eq (dependent : κ) :
    node.removeDependent dependent = node.relinked dependent true false := by
  simp [removeDependent, filterDependents, relinked]

theorem relinked_self (dependent : κ) (needed : Bool) :
    node.relinked dependent needed needed = node := by
  cases needed <;> simp [relinked]

theorem relinked_relinked (dependent : κ) (needed needs : Bool) :
    (node.relinked dependent needed needs).relinked dependent needed needs =
      node.relinked dependent needed needs := by
  cases needed <;> cases needs <;> simp [relinked]
  split <;> simp_all

theorem mem_dependents_relinked {dependent key : κ} {needed needs : Bool} :
    key ∈ (node.relinked dependent needed needs).dependents ↔
      if key = dependent ∧ needed ≠ needs then needs = true else key ∈ node.dependents := by
  unfold relinked
  by_cases same : key = dependent
  · subst same
    cases needed <;> cases needs <;> simp
    split <;> simp_all
  · cases needed <;> cases needs <;> simp [same]
    split <;> simp [same]

end Node

namespace Graph

variable {κ ν φ : Type} [Key κ] {graph : Graph κ ν φ}

/-- The node of a key, blank if the key has none. -/
def nodeAt (graph : Graph κ ν φ) (key : κ) : Node κ ν φ := (graph.node? key).getD {}

theorem nodeAt_of_node? {key : κ} {node : Node κ ν φ} (found : graph.node? key = some node) :
    graph.nodeAt key = node := by
  simp [nodeAt, found]

theorem node?_of_mem {key : κ} (known : key ∈ graph.keys) :
    graph.node? key = some (graph.nodeAt key) := by
  obtain ⟨node, found⟩ := Option.isSome_iff_exists.mp (mem_keys.mp known)
  rw [found, nodeAt_of_node? found]

theorem node?_of_not_mem {key : κ} (unknown : key ∉ graph.keys) : graph.node? key = none := by
  rwa [mem_keys, Option.not_isSome_iff_eq_none] at unknown

theorem nodeAt_of_not_mem {key : κ} (unknown : key ∉ graph.keys) : graph.nodeAt key = {} := by
  rw [mem_keys, Option.not_isSome_iff_eq_none] at unknown
  simp [nodeAt, unknown]

theorem mem_keys_of_work {key : κ} (taken : (graph.nodeAt key).work.isSome = true) :
    key ∈ graph.keys := by
  by_contra unknown
  simp [nodeAt_of_not_mem unknown] at taken

theorem mem_keys_of_not_idle {key : κ} (busy : (graph.nodeAt key).isIdle = false) :
    key ∈ graph.keys := by
  by_contra unknown
  rw [nodeAt_of_not_mem unknown] at busy
  cases busy

theorem result?_eq (key : κ) : graph.result? key = (graph.nodeAt key).result? := by
  unfold result? nodeAt
  cases graph.node? key <;> rfl

theorem result?_of_unsettled {key : κ} (unsettled : (graph.nodeAt key).isSettled = false) :
    graph.result? key = none := by
  rw [result?_eq]
  exact Option.isNone_iff_eq_none.mp (Option.isSome_eq_false_iff.mp unsettled)

theorem mem_keys_of_result? {key : κ} (settled : (graph.result? key).isSome = true) :
    key ∈ graph.keys := by
  by_contra unknown
  rw [result?_eq, nodeAt_of_not_mem unknown] at settled
  cases settled

theorem dependencies_eq (key : κ) : graph.dependencies key = (graph.nodeAt key).dependencies := by
  unfold dependencies nodeAt
  cases graph.node? key <;> rfl

theorem work_eq (key : κ) : (graph.node? key).bind Node.work = (graph.nodeAt key).work := by
  unfold nodeAt
  cases graph.node? key <;> rfl

theorem nodeAt_ensure (key other : κ) : (graph.ensure key).nodeAt other = graph.nodeAt other := by
  unfold nodeAt
  rw [node?_ensure]
  split
  · rename_i same
    subst same
    rfl
  · rfl

theorem mem_keys_ensure {key other : κ} :
    other ∈ (graph.ensure key).keys ↔ other = key ∨ other ∈ graph.keys := by
  rw [mem_keys, node?_ensure, mem_keys]
  split <;> simp_all

theorem nodeAt_update {key : κ} (known : key ∈ graph.keys) (other : κ)
    (change : Node κ ν φ → Node κ ν φ) :
    (graph.update key change).nodeAt other =
      if other = key then change (graph.nodeAt key) else graph.nodeAt other := by
  unfold nodeAt
  rw [node?_update]
  split
  · rw [node?_of_mem known]
    rfl
  · rfl

/-- A change that leaves a blank node blank may be made at any key. -/
theorem nodeAt_update_of_blank {change : Node κ ν φ → Node κ ν φ} (blank : change {} = {})
    (key other : κ) :
    (graph.update key change).nodeAt other =
      if other = key then change (graph.nodeAt key) else graph.nodeAt other := by
  unfold nodeAt
  rw [node?_update]
  split
  · cases graph.node? key with
    | none => exact blank.symm
    | some node => rfl
  · rfl

theorem mem_keys_update {key other : κ} {change : Node κ ν φ → Node κ ν φ} :
    other ∈ (graph.update key change).keys ↔ other ∈ graph.keys := by
  rw [mem_keys, node?_update, mem_keys]
  split
  · rename_i same
    subst same
    simp
  · rfl

theorem nodeAt_updateWork (key other : κ) (change : Work κ φ → Work κ φ) :
    (graph.updateWork key change).nodeAt other =
      if other = key then (graph.nodeAt key).updateWork change else graph.nodeAt other :=
  nodeAt_update_of_blank rfl key other

theorem mem_keys_updateWork {key other : κ} {change : Work κ φ → Work κ φ} :
    other ∈ (graph.updateWork key change).keys ↔ other ∈ graph.keys :=
  mem_keys_update

section Relink

variable {key other : κ}

private theorem nodeAt_foldl_remove (dropped : List κ) :
    (dropped.foldl (fun graph dependency => graph.update dependency (·.removeDependent key))
      graph).nodeAt other =
      (graph.nodeAt other).relinked key (decide (other ∈ dropped)) false := by
  induction dropped generalizing graph with
  | nil => simp [Node.relinked_self]
  | cons first rest ih =>
      rw [List.foldl_cons, ih, nodeAt_update_of_blank rfl, Node.removeDependent_eq]
      by_cases same : other = first
      · subst same
        by_cases again : other ∈ rest <;>
          simp [again, Node.relinked_relinked, Node.relinked_self]
      · simp [same]

private theorem mem_keys_foldl_remove (dropped : List κ) :
    other ∈ (dropped.foldl (fun graph dependency =>
      graph.update dependency (·.removeDependent key)) graph).keys ↔ other ∈ graph.keys := by
  induction dropped generalizing graph with
  | nil => rfl
  | cons first rest ih => rw [List.foldl_cons, ih, mem_keys_update]

private theorem nodeAt_foldl_add (added : List κ) :
    (added.foldl (fun graph dependency =>
      (graph.ensure dependency).update dependency (·.addDependent key)) graph).nodeAt other =
      (graph.nodeAt other).relinked key false (decide (other ∈ added)) := by
  induction added generalizing graph with
  | nil => simp [Node.relinked_self]
  | cons first rest ih =>
      rw [List.foldl_cons, ih, nodeAt_update (mem_keys_ensure.mpr (.inl rfl)), nodeAt_ensure,
        nodeAt_ensure, Node.addDependent_eq]
      by_cases same : other = first
      · subst same
        by_cases again : other ∈ rest <;>
          simp [again, Node.relinked_relinked, Node.relinked_self]
      · simp [same]

private theorem mem_keys_foldl_add (added : List κ) :
    other ∈ (added.foldl (fun graph dependency =>
      (graph.ensure dependency).update dependency (·.addDependent key)) graph).keys ↔
      other ∈ added ∨ other ∈ graph.keys := by
  induction added generalizing graph with
  | nil => simp
  | cons first rest ih =>
      rw [List.foldl_cons, ih, mem_keys_update, mem_keys_ensure, List.mem_cons]
      tauto

theorem nodeAt_relink (key other : κ) (old new : Grouping κ) :
    (graph.relink key old new).nodeAt other =
      (graph.nodeAt other).relinked key (decide (other ∈ old)) (decide (other ∈ new)) := by
  unfold relink
  simp only
  rw [nodeAt_foldl_add, nodeAt_foldl_remove]
  have needed : other ∈ old.keys ↔ other ∈ old := .rfl
  have needs : other ∈ new.keys ↔ other ∈ new := .rfl
  by_cases wasNeeded : other ∈ old <;> by_cases isNeeded : other ∈ new <;>
    simp [needed, needs, wasNeeded, isNeeded, Node.relinked_self]

theorem mem_keys_relink {old new : Grouping κ} :
    other ∈ (graph.relink key old new).keys ↔
      (other ∈ new ∧ other ∉ old) ∨ other ∈ graph.keys := by
  unfold relink
  simp only
  rw [mem_keys_foldl_add, mem_keys_foldl_remove]
  simp only [List.mem_filter, decide_eq_true_eq]
  rfl

end Relink

section State

variable {key : κ}

theorem state?_of_result? {result : Result κ ν φ} (found : graph.result? key = some result) :
    graph.state? key = some (Memo.valid result).state := by
  obtain ⟨node, isNode, valid⟩ := Option.bind_eq_some_iff.mp found
  obtain ⟨free, memo⟩ := Node.result?_eq_some_iff.mp valid
  simp [state?, isNode, Node.state, free, memo]

theorem state?_of_settled {result : Result κ ν φ} (found : graph.result? key = some result) :
    graph.state? key = some .done ∨ graph.state? key = some .error := by
  rw [state?_of_result? found]
  cases result with
  | ok value => exact .inl rfl
  | error failure => exact .inr rfl

theorem result?_of_done (done : graph.state? key = some .done) :
    ∃ value, graph.result? key = some (.ok value) := by
  obtain ⟨node, found, state⟩ := Option.map_eq_some_iff.mp done
  obtain ⟨memo, _, _, _, _, _, work⟩ := node
  cases work with
  | some work => cases state
  | none =>
      cases memo with
      | valid result =>
          cases result with
          | ok value => exact ⟨value, by simp [result?, found, Node.result?]⟩
          | error failure => cases state
      | _ => cases state

theorem result?_of_error (failed : graph.state? key = some .error) :
    ∃ failure, graph.result? key = some (.error failure) := by
  obtain ⟨node, found, state⟩ := Option.map_eq_some_iff.mp failed
  obtain ⟨memo, _, _, _, _, _, work⟩ := node
  cases work with
  | some work => cases state
  | none =>
      cases memo with
      | valid result =>
          cases result with
          | ok value => cases state
          | error failure => exact ⟨failure, by simp [result?, found, Node.result?]⟩
      | _ => cases state

theorem isSettled_iff : (graph.nodeAt key).isSettled = true ↔
    graph.state? key = some .done ∨ graph.state? key = some .error := by
  rw [Node.isSettled, ← result?_eq]
  constructor
  · intro settled
    obtain ⟨result, found⟩ := Option.isSome_iff_exists.mp settled
    exact state?_of_settled found
  · rintro (done | failed)
    · obtain ⟨value, found⟩ := result?_of_done done
      rw [found]
      rfl
    · obtain ⟨failure, found⟩ := result?_of_error failed
      rw [found]
      rfl

theorem result?_of_value? {value : ν} (found : graph.value? key = some value) :
    graph.result? key = some (.ok value) := by
  unfold value? at found
  split at found
  · cases found
    assumption
  · cases found

theorem result?_of_failure? {failure : Failure κ φ} (found : graph.failure? key = some failure) :
    graph.result? key = some (.error failure) := by
  unfold failure? at found
  split at found
  · cases found
    assumption
  · cases found

theorem failure?_eq_some_iff {failure : Failure κ φ} :
    graph.failure? key = some failure ↔ (graph.nodeAt key).result? = some (.error failure) := by
  refine ⟨fun found => result?_eq key ▸ result?_of_failure? found, fun found => ?_⟩
  rw [← result?_eq] at found
  simp [failure?, found]

end State

/-- Edges are kept at both ends. -/
def Linked (graph : Graph κ ν φ) : Prop :=
  ∀ dependent dependency, dependent ∈ (graph.nodeAt dependency).dependents ↔
    dependency ∈ (graph.nodeAt dependent).dependencies

end Graph

end MemoGraph
