import MemoGraph.Graph.Basic
import MemoGraph.Digraph.Walk

namespace MemoGraph.Graph

variable {κ ν φ : Type} [Key κ]

/-- The keys whose value was set from outside. -/
def injectedKeys (graph : Graph κ ν φ) : List κ :=
  graph.keys.filter fun key => (graph.node? key).any Node.injected

/-- The given keys and whatever they depend on, directly or not. -/
def reachable (graph : Graph κ ν φ) (keys : List κ) : Std.TreeSet κ :=
  (keys.foldl (Walk.visit (graph.dependencies · |>.keys) (graph.size + 1)) {}).seen

/-- Drop a node that is not kept, or its edges to nodes that are not. -/
def restrictAt (kept : Std.TreeSet κ) (graph : Graph κ ν φ) (key : κ) : Graph κ ν φ :=
  if kept.contains key then graph.update key (·.filterDependents kept.contains)
  else graph.erase key

/-- Keep only the nodes of the given keys, and only edges between them. -/
def restrict (graph : Graph κ ν φ) (kept : Std.TreeSet κ) : Graph κ ν φ :=
  graph.keys.foldl (restrictAt kept) graph

theorem node?_restrictAt (kept : Std.TreeSet κ) (graph : Graph κ ν φ) (key other : κ) :
    (restrictAt kept graph key).node? other =
      if other = key then
        if kept.contains key then (graph.node? key).map (·.filterDependents kept.contains)
        else none
      else graph.node? other := by
  unfold restrictAt
  by_cases keep : kept.contains key
  · rw [if_pos keep, if_pos keep, node?_update]
  · rw [if_neg keep, if_neg keep, node?_erase]

theorem node?_foldl_restrictAt (kept : Std.TreeSet κ) (keys : List κ) (graph : Graph κ ν φ)
    (key : κ) :
    (keys.foldl (restrictAt kept) graph).node? key =
      if key ∈ keys then
        if kept.contains key then (graph.node? key).map (·.filterDependents kept.contains)
        else none
      else graph.node? key := by
  induction keys generalizing graph with
  | nil => simp
  | cons first rest ih =>
      rw [List.foldl_cons, ih, node?_restrictAt]
      by_cases same : key = first
      · subst same
        by_cases keep : kept.contains key <;> by_cases again : key ∈ rest <;>
          simp [keep, again, Function.comp_def, Node.filterDependents_filterDependents]
      · simp [same]

/-- A kept node stays, without its edges to nodes that are not kept. -/
theorem node?_restrict (graph : Graph κ ν φ) (kept : Std.TreeSet κ) (key : κ) :
    (graph.restrict kept).node? key =
      if kept.contains key then (graph.node? key).map (·.filterDependents kept.contains)
      else none := by
  unfold restrict
  rw [node?_foldl_restrictAt]
  by_cases listed : key ∈ graph.keys
  · rw [if_pos listed]
  · rw [if_neg listed]
    have absent : graph.node? key = none := by
      rw [mem_keys] at listed
      exact Option.not_isSome_iff_eq_none.mp listed
    simp [absent]

end MemoGraph.Graph
