import MemoGraph.Graph.Basic

namespace MemoGraph

inductive Discrepancy (κ : Type) where
  /-- `node` depends on a key without a node. -/
  | missingNode (node dependency : κ)
  /-- `node` depends on `dependency`, which does not list it as a dependent. -/
  | missingReverseEdge (node dependency : κ)
  /-- `node` lists `dependent`, which does not depend on it. -/
  | danglingReverseEdge (node dependent : κ)
  /-- `node` is done although `dependency` has no valid result. -/
  | invalidDependency (node dependency : κ) (state : State)
deriving DecidableEq, Repr

namespace Graph

variable {κ ν φ : Type} [Key κ]

/-- What is wrong with the edge from `key`, whose node is given, to a
dependency. -/
def edgeDiscrepancies (graph : Graph κ ν φ) (key : κ) (node : Node κ ν φ) (dependency : κ) :
    List (Discrepancy κ) :=
  match graph.node? dependency with
  | none => [.missingNode key dependency]
  | some target =>
      (if key ∈ target.dependents then [] else [.missingReverseEdge key dependency]) ++
      (if node.state = .done ∧ ¬ target.state.isSettled then
        [.invalidDependency key dependency target.state]
      else [])

/-- What is wrong with the edges at `key`, whose node is given. -/
def nodeDiscrepancies (graph : Graph κ ν φ) (key : κ) (node : Node κ ν φ) :
    List (Discrepancy κ) :=
  node.dependencies.keys.flatMap (graph.edgeDiscrepancies key node) ++
  (node.dependents.filter fun dependent => key ∉ graph.dependencies dependent).map
    (.danglingReverseEdge key)

/-- Everything that breaks the invariants, in no particular order. -/
def discrepancies (graph : Graph κ ν φ) : List (Discrepancy κ) :=
  graph.keys.flatMap fun key =>
    match graph.node? key with
    | none => []
    | some node => graph.nodeDiscrepancies key node

end Graph

end MemoGraph
