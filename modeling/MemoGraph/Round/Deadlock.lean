import MemoGraph.Digraph.Components
import MemoGraph.Digraph.ShortestCycle
import MemoGraph.Round.Commit

namespace MemoGraph.Round

/-! Keys that wait for themselves.

When nothing is left to step, every key that the round still works on waits for
another such key, so some of them wait in a circle. Those fail, each with a
shortest circle through it; the keys that merely wait for them go on.
-/

variable {κ ν φ : Type} [Key κ]

def isEvaluating (round : Round κ ν φ) (key : κ) : Bool :=
  round.graph.state? key = some .evaluating

/-- The keys that the round still works on: the roots first, so that the order
of the walk only depends on them, then the others as they were taken up. -/
def stuck (round : Round κ ν φ) (roots : List κ) : List κ :=
  distinct ((roots ++ round.started.toList).filter round.isEvaluating)

/-- The keys that a key waits for, as far as the round still works on them. -/
def awaited (round : Round κ ν φ) (key : κ) : List κ :=
  match (round.graph.node? key).bind Node.work with
  | some work => work.batch.filter round.isEvaluating
  | none => []

/-- Who waits for whom. -/
def waits (round : Round κ ν φ) (roots : List κ) : Digraph κ :=
  { vertices := round.stuck roots, next := round.awaited }

/-- What to record as the dependencies of a key that gets a result while it
waits. -/
def pendingDependencies (round : Round κ ν φ) (key : κ) : Grouping κ :=
  match round.graph.node? key with
  | some { work := some { phase := .computing, requested, .. }, .. } => requested
  | some node => node.dependencies
  | none => .empty

/-- Give a key that waits a failure, and add the keys that wait for it to those
to be woken. -/
def abandon [BEq ν] (wakes : Round κ ν φ × List κ) (failure : Failure κ φ) :
    Round κ ν φ × List κ :=
  let (round, waiters) := wakes
  let (round, more) :=
    round.record failure.key (.error failure) (round.pendingDependencies failure.key) []
  (round, waiters ++ more)

/-- Fail every member of a component because of a shortest circle through it. -/
def breakComponent [BEq ν] (waits : Digraph κ) (wakes : Round κ ν φ × List κ)
    (component : List κ) : Round κ ν φ × List κ :=
  let (round, waiters) := wakes
  (component.map fun key => Failure.cycle key (waits.shortestCycle component key)).foldl abandon
    (round.tell (.cycle component), waiters)

/-- Fail every key that waits in a circle, and collect the keys that became
ready. All of them fail before any waiter is woken, so that no member sees the
failure of another as one of a plain dependency. -/
def breakDeadlock [BEq ν] (round : Round κ ν φ) (roots : List κ) : Round κ ν φ × List κ :=
  let waits := round.waits roots
  let (round, waiters) :=
    match waits.vertices, waits.cyclicComponents with
    | [], _ => (round, [])
    | stuck, [] =>
        (stuck.map fun key => Failure.infrastructure key (.ofInfrastructure .stalled)).foldl
          abandon (round, [])
    | _, components => components.foldl (breakComponent waits) (round, [])
  round.wake waiters

end MemoGraph.Round
