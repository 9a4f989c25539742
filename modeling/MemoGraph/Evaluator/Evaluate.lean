import MemoGraph.Evaluator.Inputs
import MemoGraph.Evaluator.Results
import MemoGraph.Round.Schedule

namespace MemoGraph.Evaluator

variable {κ ν φ : Type} [Key κ]

/-- Why an evaluation has no results. -/
inductive Stop where
  | interrupted
  /-- The bound on the number of steps was reached. -/
  | exhausted
deriving DecidableEq, Repr

def Stop.message : Stop → String
  | .interrupted => "evaluation interrupted"
  | .exhausted => "evaluation exceeded its steps"

/-- Have everything that failed transiently attempted again. -/
def retryTransient (evaluator : Evaluator κ ν φ) : Evaluator κ ν φ :=
  match evaluator.retries with
  | [] => evaluator
  | retries => ({ evaluator with retries := [] }.invalidateFor .transientRetry retries).1

/-- The round that an evaluation runs. -/
def openRound (evaluator : Evaluator κ ν φ) : Round κ ν φ :=
  { graph := evaluator.graph
    version := evaluator.version
    interrupted := evaluator.interrupted
    runs := evaluator.runs
    log := evaluator.log }

/-- The evaluator after a round. A cancellation is over once it took effect. -/
def closeRound (evaluator : Evaluator κ ν φ) (round : Round κ ν φ) (halt : Round.Halt) :
    Evaluator κ ν φ :=
  { evaluator with
    graph := round.graph
    retries := evaluator.retries ++ round.transient.toList
    interrupted := round.interrupted && halt ≠ .interrupted
    runs := round.runs
    log := round.log }

/-- The result of a root after a round that was not cut short. -/
def resultOf (graph : Graph κ ν φ) (root : κ) : Result κ ν φ :=
  (graph.result? root).getD
    (.error (.infrastructure root (.ofInfrastructure .unfinished)))

/-- Evaluate the roots and everything that they need, in at most `bound` steps.
Failures of keys are results; an evaluation has no results only if it was cut
short. -/
def evaluate [BEq ν] (registry : Registry κ ν φ) (bound : Nat) (evaluator : Evaluator κ ν φ)
    (roots : List κ) : Evaluator κ ν φ × Except Stop (Results κ ν φ) :=
  let roots := distinct roots
  let evaluator := evaluator.retryTransient
  let (round, halt) := (evaluator.openRound.tell (.round roots)).run registry bound roots
  let evaluator := evaluator.closeRound round halt
  match halt with
  | .interrupted => (evaluator, .error .interrupted)
  | .exhausted => (evaluator, .error .exhausted)
  | .complete =>
      (evaluator, .ok ⟨roots.map fun root => (root, resultOf evaluator.graph root)⟩)

end MemoGraph.Evaluator
