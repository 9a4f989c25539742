import MemoGraph.Computation.Attempt
import MemoGraph.Round.Commit

namespace MemoGraph.Round

variable {κ ν φ : Type} [Key κ]

/-- Whether a dependency has no valid result, or one that changed after the
given version. -/
def changedSince (round : Round κ ν φ) (since : Version) (dependency : κ) : Bool :=
  match round.graph.node? dependency with
  | some node => !node.isSettled || since < node.lastChanged
  | none => true

/-- Compare an awaited group of recorded dependencies with the last evaluation
of the key, and go on with the function or with the next group. -/
def compare (round : Round κ ν φ) (key : κ) (group : Nat) (dependencies : List κ)
    (since : Version) : Round κ ν φ × List κ :=
  let changed := dependencies.any (round.changedSince since)
  let round := round.updateWork key fun work =>
    { work with
      batch := []
      phase := if changed then .computing else .checking (group + 1) false }
  (if changed then round.tell (.dirtyCheck key true) else round, [key])

/-- Let the function of a key run again once the missing keys have results. -/
def restart (round : Round κ ν φ) (key : κ) (attempt : Attempt κ φ) : Round κ ν φ × List κ :=
  let round := round.tell (.restart key attempt.missing)
  let round := round.updateWork key fun work =>
    { work with
      requested := attempt.requested
      handlers := attempt.handlers
      attempts := work.attempts + 1 }
  round.await key attempt.missing

/-- Compute a key. Everything that the run before asked for has a result now, so
a failure among it that the run did not offer to handle decides without running
the function again. -/
def compute [BEq ν] (registry : Registry κ ν φ) (round : Round κ ν φ) (key : κ)
    (work : Work κ φ) : Round κ ν φ × List κ :=
  match firstUnhandled? round.graph work.requested work.handlers with
  | some (dependency, cause) =>
      round.commit key (.error (.dependency key dependency cause)) work.requested []
  | none =>
      match registry.function? key with
      | none =>
          let fault := (Fault.ofInfrastructure (.unregistered (registry.kindName key)))
            |>.withTransience .persistent
          round.commit key (.error (.infrastructure key fault)) .empty []
      | some function =>
          let round := round.tell (.compute key work.attempts)
          let (attempt, outcome) :=
            Attempt.run round.graph.result? key (function round.runs) {}
          let round :=
            { round with
              runs := round.runs + 1
              interrupted := round.interrupted || attempt.interrupts }
          match attempt.verdict round.graph key outcome with
          | .commit result dependencies events => round.commit key result dependencies events
          | .restart => round.restart key attempt

/-- Step a key. Nothing happens to a key that has a result or still waits. -/
def step [BEq ν] (registry : Registry κ ν φ) (round : Round κ ν φ) (key : κ) :
    Round κ ν φ × List κ :=
  match round.graph.node? key with
  | none => (round, [])
  | some node =>
      match node.work with
      | none => (round, [])
      | some work =>
          if 0 < work.pending then (round, [])
          else
            match work.phase with
            | .computing => round.compute registry key work
            | .checking group awaiting =>
                match node.dependencies.group? group with
                | none => round.revalidate key
                | some dependencies =>
                    if awaiting then
                      round.compare key group dependencies node.lastEvaluated
                    else
                      (round.updateWork key fun work =>
                        { work with phase := .checking group true }).await key dependencies

end MemoGraph.Round
