import MemoGraph.Failure
import MemoGraph.Event
import MemoGraph.Node

namespace MemoGraph

/-! What functions are.

A function computes one kind of keys. One run of it is a computation: a tree of
requests to the graph, each followed by what the function does with the answers,
down to an outcome. A computation sees the graph only through its requests.
-/

/-- What a computation is told about one requested key. -/
inductive Answer (ν φ : Type) where
  | value (value : ν)
  /-- The key has no result yet, or a failure that was not asked for. -/
  | absent
  /-- The key failed with an error that the request offered to handle. -/
  | caught (error : φ)
deriving DecidableEq, Repr

/-- How a run ends. -/
inductive Outcome (ν φ : Type) where
  | value (value : ν)
  | refused (refusal : Refusal φ)
  /-- The run was cut off by a crash, which may have left a message. -/
  | crashed (message : Option String)
deriving DecidableEq, Repr

inductive Computation (κ ν φ : Type) where
  /-- Ask for keys as one group. With a handler, failures whose error passes it
  are answered instead of passed on. -/
  | request (keys : List κ) (handler : Option (Handler φ))
      (resume : List (Answer ν φ) → Computation κ ν φ)
  /-- Ask whether anything requested so far is missing or failed unhandled. -/
  | inspect (resume : Bool → Computation κ ν φ)
  | report (severity : Severity) (message : String) (rest : Computation κ ν φ)
  /-- Cancel the running round once this run is over. -/
  | interrupt (rest : Computation κ ν φ)
  | finish (outcome : Outcome ν φ)

/-- Go on only if everything requested so far is available. -/
def Computation.check {κ ν φ : Type} (rest : Computation κ ν φ) : Computation κ ν φ :=
  .inspect fun missing => if missing then .finish (.refused .incomplete) else rest

/-- The functions of a graph. Keys are sorted into kinds, and one function
computes all keys of a kind. -/
structure Registry (κ ν φ : Type) where
  /-- The name of a key's kind. -/
  kindName : κ → String
  /-- The function of a key's kind, if there is one. It is told how many runs of
  functions went before, so that no two runs of it need to be alike. -/
  function? : κ → Option (Nat → Computation κ ν φ)

end MemoGraph
