import MemoGraph.Computation.Basic
import MemoGraph.Graph.Basic

namespace MemoGraph

/-- What a run asked for and reported. -/
structure Attempt (κ φ : Type) where
  /-- Everything requested, in groups. -/
  requested : Grouping κ := .empty
  /-- The requested keys without a result, each once. -/
  missing : List κ := []
  /-- The first request that was answered by nothing because the key failed. -/
  unhandled : Option (κ × Failure κ φ) := none
  /-- Which failures of which keys the run offered to handle. -/
  handlers : List (κ × Handler φ) := []
  events : List (Event κ) := []
  /-- Whether the run cancelled the round. -/
  interrupts : Bool := false

/-- Whether the error behind a failure passes the handler. Cycles have none. -/
def Failure.passes {κ φ : Type} (failure : Failure κ φ) (handler : Handler φ) : Bool :=
  failure.error?.any handler

namespace Attempt

variable {κ ν φ : Type}

/-- Whether anything requested so far is missing or failed unhandled. -/
def isShort (attempt : Attempt κ φ) : Bool :=
  !attempt.missing.isEmpty || attempt.unhandled.isSome

variable [DecidableEq κ]

def addMissing (attempt : Attempt κ φ) (key : κ) : Attempt κ φ :=
  if key ∈ attempt.missing then attempt
  else { attempt with missing := attempt.missing ++ [key] }

def addUnhandled (attempt : Attempt κ φ) (key : κ) (failure : Failure κ φ) : Attempt κ φ :=
  { attempt with unhandled := attempt.unhandled.or (some (key, failure)) }

/-- Answer the request of one key, given its valid result if it has one. -/
def answer (attempt : Attempt κ φ) (handler : Option (Handler φ)) (key : κ) :
    Option (Result κ ν φ) → Attempt κ φ × Answer ν φ
  | some (.ok value) => (attempt, .value value)
  | none => (attempt.addMissing key, .absent)
  | some (.error failure) =>
      match handler, failure.error? with
      | some handles, some error =>
          if handles error then (attempt, .caught error)
          else (attempt.addUnhandled key failure, .absent)
      | _, _ => (attempt.addUnhandled key failure, .absent)

/-- Answer the keys of one group from the first to the last. -/
def answerAll (results : κ → Option (Result κ ν φ)) (handler : Option (Handler φ)) :
    Attempt κ φ → List κ → Attempt κ φ × List (Answer ν φ)
  | attempt, [] => (attempt, [])
  | attempt, key :: keys =>
      let (attempt, answered) := attempt.answer handler key (results key)
      let (attempt, rest) := answerAll results handler attempt keys
      (attempt, answered :: rest)

/-- Record a group and its handler, and answer it. -/
def request (results : κ → Option (Result κ ν φ)) (attempt : Attempt κ φ) (keys : List κ)
    (handler : Option (Handler φ)) : Attempt κ φ × List (Answer ν φ) :=
  answerAll results handler
    { attempt with
      requested := attempt.requested.push keys
      handlers := attempt.handlers ++ handler.toList.flatMap fun handles =>
        keys.map fun key => (key, handles) }
    keys

/-- Run a computation for `key` against the given results. -/
def run (results : κ → Option (Result κ ν φ)) (key : κ) :
    Computation κ ν φ → Attempt κ φ → Attempt κ φ × Outcome ν φ
  | .request keys handler resume, attempt =>
      let (attempt, answers) := attempt.request results keys handler
      run results key (resume answers) attempt
  | .inspect resume, attempt => run results key (resume attempt.isShort) attempt
  | .report severity message rest, attempt =>
      run results key rest { attempt with events := attempt.events ++ [⟨severity, key, message⟩] }
  | .interrupt rest, attempt => run results key rest { attempt with interrupts := true }
  | .finish outcome, attempt => (attempt, outcome)

end Attempt

/-- Whether one of the handlers named for `key` accepts its failure. -/
def handled {κ φ : Type} [DecidableEq κ] (handlers : List (κ × Handler φ)) (key : κ)
    (failure : Failure κ φ) : Bool :=
  handlers.any fun (named, handler) => named = key && failure.passes handler

/-- The first requested key that failed with no handler named for it that
accepts the failure. -/
def firstUnhandled? {κ ν φ : Type} [Key κ] (graph : Graph κ ν φ)
    (requested : Grouping κ) (handlers : List (κ × Handler φ)) : Option (κ × Failure κ φ) :=
  requested.keys.findSome? fun key =>
    match graph.failure? key with
    | some failure => if handled handlers key failure then none else some (key, failure)
    | none => none

/-- What becomes of a key after a run of its function. -/
inductive Verdict (κ ν φ : Type) where
  /-- The key has a result, which rests on the recorded dependencies. The events
  are delivered with it. -/
  | commit (result : Result κ ν φ) (dependencies : Grouping κ) (events : List (Event κ))
  /-- The function runs again once the missing keys have results. -/
  | restart

/-- Judge a run of the function of `key`.

A crash decides at once. Otherwise nothing is decided while a requested key is
missing, so which dependency is blamed does not depend on which of them
finished first. -/
def Attempt.verdict {κ ν φ : Type} [Key κ] (graph : Graph κ ν φ) (key : κ)
    (attempt : Attempt κ φ) (outcome : Outcome ν φ) : Verdict κ ν φ :=
  match outcome with
  | .crashed message =>
      .commit (.error (.infrastructure key (.ofInfrastructure (.crashed message))))
        attempt.requested []
  | .value value =>
      match attempt.missing, attempt.unhandled with
      | _ :: _, _ => .restart
      | [], some first => blame first
      | [], none => .commit (.ok value) attempt.requested attempt.events
  | .refused refusal =>
      match attempt.missing, attempt.unhandled, refusal with
      | _ :: _, _, _ => .restart
      | [], some first, _ => blame first
      | [], none, .incomplete =>
          .commit (.error (.infrastructure key
            ((Fault.ofInfrastructure .incomplete).withTransience .persistent)))
            attempt.requested []
      | [], none, .failed fault =>
          .commit (.error (.ofFault key fault)) attempt.requested attempt.events
where
  /-- Fail because of the first request that nothing handles. -/
  blame (first : κ × Failure κ φ) : Verdict κ ν φ :=
    let (dependency, cause) :=
      (firstUnhandled? graph attempt.requested attempt.handlers).getD first
    .commit (.error (.dependency key dependency cause)) attempt.requested []

end MemoGraph
