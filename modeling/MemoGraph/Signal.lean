import MemoGraph.Failure
import MemoGraph.Event
import MemoGraph.Invalidation

namespace MemoGraph

/-- How a key left a round. -/
inductive Ending (κ φ : Type) where
  /-- Its function returned a value unlike the one before. -/
  | changed
  /-- Its function returned the value that it had before. -/
  | unchanged
  /-- No dependency changed, so its result still holds. -/
  | revalidated
  /-- Its result was valid from the start. -/
  | cacheHit
  /-- It is on a dependency cycle or failed because of one. -/
  | cycleDetected
  | failed (failure : Failure κ φ)
deriving DecidableEq, Repr

inductive Signal (κ φ : Type) where
  | round (roots : List κ)
  /-- The key is taken up in this round. -/
  | start (key : κ)
  /-- The function of the key is about to run; attempts count from zero. -/
  | compute (key : κ) (attempt : Nat)
  /-- The function has to run again when the missing keys have results. -/
  | restart (key : κ) (missing : List κ)
  /-- The dependencies of the key were checked. -/
  | dirtyCheck (key : κ) (changed : Bool)
  /-- The new value was compared with the one before. -/
  | cutoff (key : κ) (changed : Bool)
  | finish (key : κ) (ending : Ending κ φ)
  | invalidated (key : κ) (reason : Reason)
  /-- The keys wait for one another. -/
  | cycle (keys : List κ)
  | event (event : Event κ)
deriving DecidableEq, Repr

/-- How the observer is told that a key failed. -/
def Ending.ofFailure {κ φ : Type} (failure : Failure κ φ) : Ending κ φ :=
  if failure.isCycle then .cycleDetected else .failed failure

/-- The reported event, if the signal is one. -/
def Signal.event? {κ φ : Type} : Signal κ φ → Option (Event κ)
  | .event reported => some reported
  | _ => none

end MemoGraph
