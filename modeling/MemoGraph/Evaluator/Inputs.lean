import MemoGraph.Evaluator.Basic
import MemoGraph.Graph.Invalidation
import MemoGraph.Graph.Pruning

namespace MemoGraph.Evaluator

variable {κ ν φ : Type} [Key κ]

/-- Mark keys changed and whatever depends on them dirty, for the given reason. -/
def invalidateFor (reason : Reason) (evaluator : Evaluator κ ν φ) (keys : List κ) :
    Evaluator κ ν φ × List (Invalidation κ) :=
  let marking := evaluator.graph.invalidate keys reason
  let records := marking.records.toList
  ({ evaluator with
    graph := marking.graph
    version := evaluator.version.next }.tellInvalidated records, records)

/-- The data behind the keys changed outside the graph. Nothing is computed
before the next evaluation. -/
def invalidate (evaluator : Evaluator κ ν φ) (keys : List κ) :
    Evaluator κ ν φ × List (Invalidation κ) :=
  evaluator.invalidateFor .manual keys

/-- Set the value of a key from outside. A value equal to the one that the key
has changes nothing but where it comes from. -/
def inject [BEq ν] (evaluator : Evaluator κ ν φ) (key : κ) (value : ν) :
    Evaluator κ ν φ × List (Invalidation κ) :=
  let graph := evaluator.graph.ensure key
  if (graph.value? key).any (· == value) then
    ({ evaluator with
      graph := graph.update key fun node => { node with injected := true } }, [])
  else
    let version := evaluator.version.next
    let old := graph.dependencies key
    let graph := graph.update key fun node =>
      { node with
        memo := .valid (.ok value)
        dependencies := .empty
        lastChanged := version
        lastEvaluated := version
        injected := true
        work := none }
    let marking := Graph.markDependents key
      { graph := graph.relink key old .empty
        records := #[.ofSource key .injected] }
    let records := marking.records.toList
    ({ evaluator with graph := marking.graph, version }.tellInvalidated records, records)

/-- Drop every node that neither one of the given keys nor a value set from
outside depends on. Says how many were dropped. -/
def prune (evaluator : Evaluator κ ν φ) (keep : List κ) : Evaluator κ ν φ × Nat :=
  let kept := evaluator.graph.reachable (keep ++ evaluator.graph.injectedKeys)
  let dropped := evaluator.graph.keys.filter fun key => !kept.contains key
  ({ evaluator with
    graph := evaluator.graph.restrict kept
    retries := evaluator.retries.filter kept.contains }, dropped.length)

/-- An evaluator with the given values set from outside, in order. -/
def build [BEq ν] (settings : Settings) (injections : List (κ × ν)) : Evaluator κ ν φ :=
  injections.foldl (fun evaluator (key, value) => (evaluator.inject key value).1) { settings }

end MemoGraph.Evaluator
