import MemoGraph.Graph.Basic
import MemoGraph.Invalidation

namespace MemoGraph.Graph

/-! Marking results that may no longer hold.

A key whose own data changed has to be computed again. Whatever was computed
from it, directly or not, is dirty: it has to be checked before it is used.
-/

variable {κ ν φ : Type} [Key κ]

/-- A graph together with the records of what was marked in it. -/
structure Marking (κ ν φ : Type) [Key κ] where
  graph : Graph κ ν φ
  records : Array (Invalidation κ) := #[]

/-- Mark a dependent of an invalid key dirty if its result is valid, and add it at
the end of the keys whose dependents are marked in turn. -/
def markDirty (source : κ) (state : Marking κ ν φ × List κ) (dependent : κ) :
    Marking κ ν φ × List κ :=
  let (marking, pending) := state
  match marking.graph.result? dependent with
  | some result =>
      ({ graph := marking.graph.update dependent fun node => { node with memo := .dirty result }
         records := marking.records.push ⟨dependent, source, .dependencyInvalidated⟩ },
        pending ++ [dependent])
  | none => (marking, pending)

/-- Mark the dependents of the pending keys, and theirs in turn, breadth first. A key
becomes pending when it loses a valid result, so the number of nodes bounds the walk. -/
def spread (source : κ) : Nat → List κ → Marking κ ν φ → Marking κ ν φ
  | 0, _, marking => marking
  | _, [], marking => marking
  | bound + 1, key :: pending, marking =>
      let dependents := ((marking.graph.node? key).map Node.dependents).getD []
      let (marking, pending) := dependents.foldl (markDirty source) (marking, pending)
      spread source bound pending marking

/-- Mark everything that depends on `source`, directly or not. -/
def markDependents (source : κ) (marking : Marking κ ν φ) : Marking κ ν φ :=
  spread source (marking.graph.size + 1) [source] marking

/-- Mark one key changed and its dependents dirty. Keys without a result to
lose and keys whose value was set from outside stay as they are. -/
def invalidateKey (reason : Reason) (marking : Marking κ ν φ) (key : κ) : Marking κ ν φ :=
  match marking.graph.node? key with
  | some { injected := false, work := none, memo := .valid result, .. }
  | some { injected := false, work := none, memo := .dirty result, .. } =>
      markDependents key
        { graph := marking.graph.update key fun node => { node with memo := .changed result }
          records := marking.records.push (.ofSource key reason) }
  | _ => marking

/-- Mark the given keys changed and whatever depends on them dirty. -/
def invalidate (graph : Graph κ ν φ) (keys : List κ) (reason : Reason) : Marking κ ν φ :=
  keys.foldl (invalidateKey reason) { graph }

end MemoGraph.Graph
