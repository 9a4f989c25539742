import MemoGraph.Proofs.Computation.Runs
import MemoGraph.Proofs.Round.Waiting
import MemoGraph.Round.Step

namespace MemoGraph.Round

variable {κ ν φ : Type} [Key κ]

/-- The round once the function of a key was run. -/
def ran (round : Round κ ν φ) (key : κ) (attempts : Nat) (attempt : Attempt κ φ) : Round κ ν φ :=
  { round.tell (.compute key attempts) with
    runs := round.runs + 1
    interrupted := round.interrupted || attempt.interrupts }

/-- The failure of a key that no function computes. -/
def unregistered (registry : Registry κ ν φ) (key : κ) : Failure κ φ :=
  .infrastructure key
    ((Fault.ofInfrastructure (.unregistered (registry.kindName key))).withTransience .persistent)

/-- The steps of a key that waits for nothing: what the work on it calls for,
and the round and the ready keys that come of it. -/
inductive Stepping [BEq ν] (registry : Registry κ ν φ) (round : Round κ ν φ) (key : κ)
    (work : Work κ φ) : Round κ ν φ × List κ → Prop
  /-- The next group of recorded dependencies is brought up to date. -/
  | await (group : Nat) (dependencies : List κ)
      (phase : work.phase = .checking group false)
      (found : (round.graph.nodeAt key).dependencies.group? group = some dependencies) :
      Stepping registry round key work
        ((round.updateWork key fun work => { work with phase := .checking group true }).await key
          dependencies)
  /-- The group is up to date and is compared. -/
  | compare (group : Nat) (dependencies : List κ)
      (phase : work.phase = .checking group true)
      (found : (round.graph.nodeAt key).dependencies.group? group = some dependencies) :
      Stepping registry round key work
        (round.compare key group dependencies (round.graph.nodeAt key).lastEvaluated)
  /-- No recorded dependency changed. -/
  | revalidate (group : Nat) (awaiting : Bool)
      (phase : work.phase = .checking group awaiting)
      (finished : (round.graph.nodeAt key).dependencies.group? group = none) :
      Stepping registry round key work (round.revalidate key)
  /-- Something that the run before asked for failed, and it offered no handler. -/
  | fail (dependency : κ) (cause : Failure κ φ)
      (phase : work.phase = .computing)
      (unhandled : firstUnhandled? round.graph work.requested work.handlers =
        some (dependency, cause)) :
      Stepping registry round key work
        (round.commit key (.error (.dependency key dependency cause)) work.requested [])
  /-- No function computes the key. -/
  | refuse (phase : work.phase = .computing)
      (handled : firstUnhandled? round.graph work.requested work.handlers = none)
      (absent : registry.function? key = none) :
      Stepping registry round key work
        (round.commit key (.error (unregistered registry key)) .empty [])
  /-- The function was run to a result. -/
  | finish (function : Nat → Computation κ ν φ) (attempt : Attempt κ φ) (outcome : Outcome ν φ)
      (result : Result κ ν φ) (dependencies : Grouping κ) (events : List (Event κ))
      (phase : work.phase = .computing)
      (handled : firstUnhandled? round.graph work.requested work.handlers = none)
      (registered : registry.function? key = some function)
      (run : Attempt.run round.graph.result? key (function round.runs) {} = (attempt, outcome))
      (verdict : attempt.verdict round.graph key outcome = .commit result dependencies events) :
      Stepping registry round key work
        ((round.ran key work.attempts attempt).commit key result dependencies events)
  /-- The function was run and found something missing. -/
  | restart (function : Nat → Computation κ ν φ) (attempt : Attempt κ φ) (outcome : Outcome ν φ)
      (phase : work.phase = .computing)
      (handled : firstUnhandled? round.graph work.requested work.handlers = none)
      (registered : registry.function? key = some function)
      (run : Attempt.run round.graph.result? key (function round.runs) {} = (attempt, outcome))
      (verdict : attempt.verdict round.graph key outcome = .restart) :
      Stepping registry round key work
        ((round.ran key work.attempts attempt).restart key attempt)

variable [BEq ν] (registry : Registry κ ν φ) {round : Round κ ν φ} {key : κ} {work : Work κ φ}

theorem stepping_compute (phase : work.phase = .computing) :
    Stepping registry round key work (round.compute registry key work) := by
  unfold compute
  cases unhandled : firstUnhandled? round.graph work.requested work.handlers with
  | some blamed => exact .fail blamed.1 blamed.2 phase unhandled
  | none =>
      cases registered : registry.function? key with
      | none => exact .refuse phase unhandled registered
      | some function =>
          cases run : Attempt.run round.graph.result? key (function round.runs) {} with
          | mk attempt outcome =>
              simp only [tell, run]
              cases verdict : attempt.verdict round.graph key outcome with
              | commit result dependencies events =>
                  exact .finish function attempt outcome result dependencies events phase unhandled
                    registered run verdict
              | restart =>
                  exact .restart function attempt outcome phase unhandled registered run verdict

theorem stepping (found : (round.graph.nodeAt key).work = some work) (free : work.pending = 0) :
    Stepping registry round key work (round.step registry key) := by
  have taken : (round.graph.nodeAt key).work.isSome = true := by simp [found]
  have known := Graph.mem_keys_of_work taken
  have nothing : ¬ 0 < work.pending := by omega
  unfold step
  rw [Graph.node?_of_mem known]
  simp only [found, if_neg nothing]
  cases phase : work.phase with
  | computing => exact stepping_compute registry phase
  | checking group awaiting =>
      cases recorded : (round.graph.nodeAt key).dependencies.group? group with
      | none =>
          simp only [recorded]
          exact .revalidate group awaiting phase recorded
      | some dependencies =>
          simp only [recorded]
          cases awaiting with
          | true => exact .compare group dependencies phase recorded
          | false => exact .await group dependencies phase recorded

end MemoGraph.Round
