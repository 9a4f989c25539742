import MemoGraph.Node

namespace MemoGraph

/-! How a node is stored.

In storage the state, the value and the failure of a key are fields of their
own, and every operation assigns those that it changes. Nothing in a record
keeps the fields in step; that the operations do so is proved of them.
`Node.record` is the record in which a node is stored.
-/

/-- Work in progress, and the state to return to if it is thrown away. -/
structure Building (κ φ : Type) where
  prior : State
  work : Work κ φ

structure Record (κ ν φ : Type) where
  state : State := .new
  /-- The last value, kept while it may hold again or serve for comparison. -/
  value : Option ν := none
  failure : Option (Failure κ φ) := none
  dependencies : Grouping κ := .empty
  dependents : List κ := []
  lastChanged : Version := .initial
  lastEvaluated : Version := .initial
  injected : Bool := false
  building : Option (Building κ φ) := none

namespace Record

variable {κ ν φ : Type}

/-- How a round begins with a key in this state. -/
def firstPhase? : State → Option Phase
  | .new | .changed => some .computing
  | .dirty => some (.checking 0 false)
  | .evaluating | .done | .error => none

/-- Take the key up, unless its result is valid or a round works on it already. -/
def takeUp? (record : Record κ ν φ) : Option (Record κ ν φ) :=
  (firstPhase? record.state).map fun phase =>
    { record with
      state := .evaluating
      building := some ⟨record.state, { phase }⟩ }

def updateWork (record : Record κ ν φ) (change : Work κ φ → Work κ φ) : Record κ ν φ :=
  { record with
    building := record.building.map fun building => { building with work := change building.work } }

/-- What a function finds when it asks for the key. -/
def lookup? (record : Record κ ν φ) : Option (Result κ ν φ) :=
  match record.state, record.value, record.failure with
  | .done, some value, _ => some (.ok value)
  | .error, _, some failure => some (.error failure)
  | _, _, _ => none

/-- Whether the stored value is one to which the given value is equal. -/
def holds [BEq ν] (record : Record κ ν φ) (value : ν) : Bool :=
  record.value.any (· == value)

/-- Store the result of a key. -/
def commit [BEq ν] (record : Record κ ν φ) (version : Version) (result : Result κ ν φ)
    (dependencies : Grouping κ) : Record κ ν φ :=
  match result with
  | .ok value =>
      let unchanged := record.failure.isNone && record.holds value
      { record with
        state := .done
        value := if unchanged then record.value else some value
        failure := none
        dependencies
        lastChanged := if unchanged then record.lastChanged else version
        lastEvaluated := version
        building := none }
  | .error failure =>
      { record with
        state := .error
        value := none
        failure := some failure
        dependencies
        lastChanged := version
        lastEvaluated := version
        building := none }

/-- Accept the stored result again. The failure tells which state that is. -/
def revalidate (record : Record κ ν φ) (version : Version) : Record κ ν φ :=
  { record with
    state := if record.failure.isSome then .error else .done
    lastEvaluated := version
    building := none }

/-- Throw unfinished work away. -/
def rollBack (record : Record κ ν φ) : Record κ ν φ :=
  match record.state, record.building with
  | .evaluating, some building => { record with state := building.prior, building := none }
  | _, _ => record

/-- Set the value from outside. -/
def inject [BEq ν] (record : Record κ ν φ) (version : Version) (value : ν) : Record κ ν φ :=
  if record.state = .done && record.holds value then { record with injected := true }
  else
    { record with
      state := .done
      value := some value
      failure := none
      dependencies := .empty
      lastChanged := version
      lastEvaluated := version
      injected := true
      building := none }

/-- The data behind the key changed. -/
def markChanged (record : Record κ ν φ) : Record κ ν φ :=
  if record.injected then record
  else
    match record.state with
    | .done | .error | .dirty => { record with state := .changed }
    | .new | .changed | .evaluating => record

/-- Something that the result was computed from may have changed. -/
def markDirty (record : Record κ ν φ) : Record κ ν φ :=
  if record.state.isSettled then { record with state := .dirty } else record

end Record

def Phase.isChecking : Phase → Bool
  | .checking _ _ => true
  | .computing => false

namespace Memo

variable {κ ν φ : Type}

def value? (memo : Memo κ ν φ) : Option ν :=
  match memo.result? with
  | some (.ok value) => some value
  | _ => none

def failure? (memo : Memo κ ν φ) : Option (Failure κ φ) :=
  match memo.result? with
  | some (.error failure) => some failure
  | _ => none

end Memo

/-- The record in which a node is stored. -/
def Node.record {κ ν φ : Type} (node : Node κ ν φ) : Record κ ν φ :=
  { state := node.state
    value := node.memo.value?
    failure := node.memo.failure?
    dependencies := node.dependencies
    dependents := node.dependents
    lastChanged := node.lastChanged
    lastEvaluated := node.lastEvaluated
    injected := node.injected
    building := node.work.map fun work => ⟨node.memo.state, work⟩ }

end MemoGraph
