import MemoGraph.Key
import MemoGraph.Node

namespace MemoGraph

/-! The store of all nodes.

`node?` is the meaning of a graph: the node of every key that was ever referred
to. The edges of a graph are kept at both ends, so the operations that change
them here change both.
-/

structure Graph (κ ν φ : Type) [Key κ] where
  nodes : Std.TreeMap κ (Node κ ν φ) := ∅

namespace Graph

variable {κ ν φ : Type} [Key κ]

def node? (graph : Graph κ ν φ) (key : κ) : Option (Node κ ν φ) := graph.nodes[key]?

def contains (graph : Graph κ ν φ) (key : κ) : Bool := graph.nodes.contains key

def size (graph : Graph κ ν φ) : Nat := graph.nodes.size

/-- Every key with a node, in the order of keys. -/
def keys (graph : Graph κ ν φ) : List κ := graph.nodes.keys

def state? (graph : Graph κ ν φ) (key : κ) : Option State := (graph.node? key).map Node.state

/-- The valid result of a key, if it has one. -/
def result? (graph : Graph κ ν φ) (key : κ) : Option (Result κ ν φ) :=
  (graph.node? key).bind Node.result?

def value? (graph : Graph κ ν φ) (key : κ) : Option ν :=
  match graph.result? key with
  | some (.ok value) => some value
  | _ => none

def failure? (graph : Graph κ ν φ) (key : κ) : Option (Failure κ φ) :=
  match graph.result? key with
  | some (.error failure) => some failure
  | _ => none

/-- The recorded dependencies of a key; none for a key without a node. -/
def dependencies (graph : Graph κ ν φ) (key : κ) : Grouping κ :=
  ((graph.node? key).map Node.dependencies).getD .empty

/-- The graph with a blank node for `key` unless it has one. -/
def ensure (graph : Graph κ ν φ) (key : κ) : Graph κ ν φ :=
  { graph with nodes := graph.nodes.insertIfNew key {} }

/-- The graph with the node of `key` changed, if there is one. -/
def update (graph : Graph κ ν φ) (key : κ) (change : Node κ ν φ → Node κ ν φ) : Graph κ ν φ :=
  { graph with nodes := graph.nodes.modify key change }

def updateWork (graph : Graph κ ν φ) (key : κ) (change : Work κ φ → Work κ φ) : Graph κ ν φ :=
  graph.update key (·.updateWork change)

def erase (graph : Graph κ ν φ) (key : κ) : Graph κ ν φ :=
  { graph with nodes := graph.nodes.erase key }

/-- The graph with `key` listed as a dependent of exactly the new dependencies,
where it was listed at the old ones. -/
def relink (graph : Graph κ ν φ) (key : κ) (old new : Grouping κ) : Graph κ ν φ :=
  let dropped := old.keys.filter (· ∉ new)
  let added := new.keys.filter (· ∉ old)
  let graph := dropped.foldl (fun graph dependency =>
    graph.update dependency (·.removeDependent key)) graph
  added.foldl (fun graph dependency =>
    (graph.ensure dependency).update dependency (·.addDependent key)) graph

theorem mem_keys {graph : Graph κ ν φ} {key : κ} :
    key ∈ graph.keys ↔ (graph.node? key).isSome = true := by
  unfold keys node?
  rw [Std.TreeMap.mem_keys, Std.TreeMap.isSome_getElem?_iff_mem]

theorem node?_ensure (graph : Graph κ ν φ) (key other : κ) :
    (graph.ensure key).node? other =
      if other = key then some ((graph.node? key).getD {}) else graph.node? other := by
  unfold ensure node?
  rw [Std.TreeMap.getElem?_insertIfNew]
  by_cases same : other = key
  · subst same
    by_cases present : other ∈ graph.nodes
    · simp [present]
    · simp [present]
  · have different : ¬ key = other := fun equal => same equal.symm
    simp [same, different]

theorem node?_update (graph : Graph κ ν φ) (key other : κ) (change : Node κ ν φ → Node κ ν φ) :
    (graph.update key change).node? other =
      if other = key then (graph.node? key).map change else graph.node? other := by
  unfold update node?
  rw [Std.TreeMap.getElem?_modify]
  by_cases same : other = key
  · simp [same]
  · have different : ¬ key = other := fun equal => same equal.symm
    simp [same, different]

theorem node?_erase (graph : Graph κ ν φ) (key other : κ) :
    (graph.erase key).node? other = if other = key then none else graph.node? other := by
  unfold erase node?
  rw [Std.TreeMap.getElem?_erase]
  by_cases same : other = key
  · simp [same]
  · have different : ¬ key = other := fun equal => same equal.symm
    simp [same, different]

end Graph

end MemoGraph
