import MemoGraph.Version
import MemoGraph.Grouping
import MemoGraph.Failure

namespace MemoGraph

/-! What the graph keeps for one key.

A node remembers the last result of its key and how far that result can be
trusted. While a round works on the key, the node also holds the work in
progress; throwing the work away restores the node.
-/

/-- The state of a key as an observer sees it. -/
inductive State where
  /-- Referred to, but never evaluated. -/
  | new
  /-- Taken up in the running round. -/
  | evaluating
  | done
  /-- Something that it depends on may have changed. -/
  | dirty
  /-- It has to be computed again. -/
  | changed
  | error
deriving DecidableEq, Repr

/-- All states, in the order of a key's life. -/
def State.all : List State := [.new, .evaluating, .done, .dirty, .changed, .error]

def State.isSettled : State → Bool
  | .done | .error => true
  | .new | .evaluating | .dirty | .changed => false

/-- What a node remembers between rounds. -/
inductive Memo (κ ν φ : Type) where
  | blank
  /-- The result holds. -/
  | valid (result : Result κ ν φ)
  /-- The result holds if no recorded dependency changed since. -/
  | dirty (result : Result κ ν φ)
  /-- The result is kept only to be compared with the next one. -/
  | changed (result : Result κ ν φ)

namespace Memo

variable {κ ν φ : Type}

/-- The remembered result, valid or not. -/
def result? : Memo κ ν φ → Option (Result κ ν φ)
  | .blank => none
  | .valid result | .dirty result | .changed result => some result

def state : Memo κ ν φ → State
  | .blank => .new
  | .valid (.ok _) => .done
  | .valid (.error _) => .error
  | .dirty _ => .dirty
  | .changed _ => .changed

end Memo

/-- What a round is doing for a key. -/
inductive Phase where
  /-- Comparing the recorded dependencies group by group. The group is awaited
  before it is compared. -/
  | checking (group : Nat) (awaiting : Bool)
  /-- Running the function. -/
  | computing
deriving DecidableEq, Repr

/-- A test on errors with which a function asks to handle a dependency's failure. -/
abbrev Handler (φ : Type) := φ → Bool

/-- The work of a round on one key. -/
structure Work (κ φ : Type) where
  phase : Phase
  /-- How many of the awaited dependencies have no result yet. -/
  pending : Nat := 0
  /-- The dependencies awaited before the next step. -/
  batch : List κ := []
  /-- What the last run of the function asked for. -/
  requested : Grouping κ := .empty
  /-- Which failures the last run of the function can handle. -/
  handlers : List (κ × Handler φ) := []
  /-- The keys that wait for this one. -/
  waiters : List κ := []
  /-- How many runs of the function were cut short by missing dependencies. -/
  attempts : Nat := 0

structure Node (κ ν φ : Type) where
  memo : Memo κ ν φ := .blank
  /-- What the last result was computed from. -/
  dependencies : Grouping κ := .empty
  /-- The keys whose last result was computed from this one. -/
  dependents : List κ := []
  lastChanged : Version := .initial
  lastEvaluated : Version := .initial
  /-- Whether the value was set from outside. -/
  injected : Bool := false
  work : Option (Work κ φ) := none

namespace Node

variable {κ ν φ : Type}

instance : Inhabited (Node κ ν φ) := ⟨{}⟩

def state (node : Node κ ν φ) : State :=
  if node.work.isSome then .evaluating else node.memo.state

/-- The result, if it is valid. -/
def result? (node : Node κ ν φ) : Option (Result κ ν φ) :=
  match node.work, node.memo with
  | none, .valid result => some result
  | _, _ => none

def isSettled (node : Node κ ν φ) : Bool := node.result?.isSome

/-- How a round begins with a key that has this memo. -/
def firstPhase? : Memo κ ν φ → Option Phase
  | .blank | .changed _ => some .computing
  | .dirty _ => some (.checking 0 false)
  | .valid _ => none

/-- The node once a round has taken it up, unless its result is valid or the
round works on it already. -/
def takeUp? (node : Node κ ν φ) : Option (Node κ ν φ) :=
  match node.work, firstPhase? node.memo with
  | none, some phase => some { node with work := some { phase } }
  | _, _ => none

/-- The node with the work in progress changed, if there is any. -/
def updateWork (node : Node κ ν φ) (change : Work κ φ → Work κ φ) : Node κ ν φ :=
  { node with work := node.work.map change }

/-- The node without its unfinished work, as it was before the round took it up. -/
def rollBack (node : Node κ ν φ) : Node κ ν φ :=
  { node with work := none }

/-- The node once its recorded dependencies turned out unchanged. -/
def revalidate (node : Node κ ν φ) (version : Version) : Node κ ν φ :=
  { node with
    memo := (node.memo.result?.map Memo.valid).getD .blank
    lastEvaluated := version
    work := none }

/-- Whether the node remembers a value, and the result is a value equal to it. -/
def keeps [BEq ν] (node : Node κ ν φ) : Result κ ν φ → Bool
  | .ok value =>
      match node.memo.result? with
      | some (.ok old) => old == value
      | _ => false
  | .error _ => false

/-- The node once the key has a result computed from the given dependencies. A
value equal to the remembered one does not count as a change. -/
def commit [BEq ν] (node : Node κ ν φ) (version : Version) (result : Result κ ν φ)
    (dependencies : Grouping κ) : Node κ ν φ :=
  let kept := node.keeps result
  { node with
    memo := .valid (if kept then node.memo.result?.getD result else result)
    dependencies
    lastChanged := if kept then node.lastChanged else version
    lastEvaluated := version
    work := none }

/-- The node without the dependents that are not to be kept. -/
def filterDependents (node : Node κ ν φ) (keep : κ → Bool) : Node κ ν φ :=
  { node with dependents := node.dependents.filter keep }

theorem filterDependents_filterDependents (node : Node κ ν φ) (keep : κ → Bool) :
    (node.filterDependents keep).filterDependents keep = node.filterDependents keep := by
  simp [filterDependents]

variable [DecidableEq κ]

def addDependent (node : Node κ ν φ) (dependent : κ) : Node κ ν φ :=
  if dependent ∈ node.dependents then node
  else { node with dependents := dependent :: node.dependents }

def removeDependent (node : Node κ ν φ) (dependent : κ) : Node κ ν φ :=
  node.filterDependents (· ≠ dependent)

end Node

end MemoGraph
