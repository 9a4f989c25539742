import MemoGraph.Key

namespace MemoGraph

/-! Depth-first walks.

A walk visits a vertex, then everything that can be reached from it over
vertices not seen before, and then finishes the vertex. The order in which
vertices are discovered and the order in which they are finished is all that
the users of a walk look at.
-/

/-- A finite directed graph: its vertices, and for each the vertices that its
edges lead to. -/
structure Digraph (α : Type) where
  vertices : List α
  next : α → List α

namespace Digraph

variable {α : Type} [DecidableEq α]

/-- The graph with every edge turned round. -/
def reverse (graph : Digraph α) : Digraph α :=
  { graph with next := fun vertex => graph.vertices.filter fun other => vertex ∈ graph.next other }

end Digraph

/-- How far a depth-first walk has come. -/
structure Walk (α : Type) [Key α] where
  seen : Std.TreeSet α := ∅
  /-- The seen vertices, the latest first. -/
  discovered : List α := []
  /-- The vertices from which the walk has returned, the latest first. -/
  finished : List α := []

namespace Walk

variable {α : Type} [Key α]

def discover (walk : Walk α) (vertex : α) : Walk α :=
  { walk with
    seen := walk.seen.insert vertex
    discovered := vertex :: walk.discovered }

def finish (walk : Walk α) (vertex : α) : Walk α :=
  { walk with finished := vertex :: walk.finished }

/-- Visit a vertex and whatever it leads to. The bound is on the length of a
path without repetition. -/
def visit (next : α → List α) : Nat → Walk α → α → Walk α
  | 0, walk, _ => walk
  | bound + 1, walk, vertex =>
      if walk.seen.contains vertex then walk
      else ((next vertex).foldl (visit next bound) (walk.discover vertex)).finish vertex

end Walk

/-- The walk that visits the vertices of a graph in their order. -/
def Digraph.walk {α : Type} [Key α] (graph : Digraph α) : Walk α :=
  graph.vertices.foldl (Walk.visit graph.next graph.vertices.length) {}

end MemoGraph
