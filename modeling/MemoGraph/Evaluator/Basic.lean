import MemoGraph.Graph.Basic
import MemoGraph.Settings
import MemoGraph.Signal

namespace MemoGraph

structure Evaluator (κ ν φ : Type) [Key κ] where
  settings : Settings
  graph : Graph κ ν φ := {}
  version : Version := .initial
  /-- The keys that failed transiently and are attempted again in the next round. -/
  retries : List κ := []
  /-- Whether the running or the next round is to be cancelled. -/
  interrupted : Bool := false
  /-- How many runs of functions there were. -/
  runs : Nat := 0
  /-- What the observer was told. -/
  log : Array (Signal κ φ) := #[]

namespace Evaluator

variable {κ ν φ : Type} [Key κ]

/-- Cancel the running or the next round. -/
def interrupt (evaluator : Evaluator κ ν φ) : Evaluator κ ν φ :=
  { evaluator with interrupted := true }

/-- Forget what the observer was told. -/
def clearLog (evaluator : Evaluator κ ν φ) : Evaluator κ ν φ :=
  { evaluator with log := #[] }

def tellInvalidated (evaluator : Evaluator κ ν φ) (records : List (Invalidation κ)) :
    Evaluator κ ν φ :=
  { evaluator with
    log := evaluator.log.appendList
      (records.map fun record => .invalidated record.key record.reason) }

end Evaluator

end MemoGraph
