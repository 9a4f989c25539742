import MemoGraph.Digraph.Walk

namespace MemoGraph.Digraph

/-! Strongly connected components that contain a cycle.

Vertices are finished after everything they reach that is not on a cycle with
them. So among the vertices that no component holds yet, the one that was
finished last is only reached by vertices of its own component, and a walk
against the edges from it collects that component.
-/

variable {α : Type} [Key α]

/-- What the collection of components has come to. -/
structure Collection (α : Type) [Key α] where
  assigned : Std.TreeSet α := ∅
  /-- The components, the latest first. -/
  components : List (List α) := []

/-- Collect the component of a vertex unless it belongs to an earlier one. -/
def Collection.add (back : Digraph α) (collection : Collection α) (vertex : α) : Collection α :=
  if collection.assigned.contains vertex then collection
  else
    let walk := Walk.visit back.next back.vertices.length { seen := collection.assigned } vertex
    { assigned := walk.seen, components := walk.discovered :: collection.components }

/-- All strongly connected components. One that reaches another comes after it. -/
def components (graph : Digraph α) : List (List α) :=
  (graph.walk.finished.foldl (Collection.add graph.reverse) {}).components

/-- Whether a strongly connected component contains a cycle: it has several
members, or an edge from its only member to itself. -/
def isCyclic (graph : Digraph α) : List α → Bool
  | [] => false
  | [vertex] => vertex ∈ graph.next vertex
  | _ :: _ :: _ => true

/-- The components that contain a cycle, each in the order in which its members
are discovered. -/
def cyclicComponents (graph : Digraph α) : List (List α) :=
  let discovered := graph.walk.discovered.reverse
  (graph.components.filter graph.isCyclic).map fun component =>
    discovered.filter (· ∈ component)

end MemoGraph.Digraph
