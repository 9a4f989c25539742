import MemoGraph.Digraph.Walk

namespace MemoGraph.Digraph

variable {α : Type} [Key α]

/-- One level of the search: paths away from the start, each the latest vertex
first, and the vertices that some path has come to. -/
structure Frontier (α : Type) [Key α] where
  seen : Std.TreeSet α := ∅
  /-- The paths of the next level, the latest first. -/
  paths : List (List α) := []

/-- Prolong a path by an edge unless a path to its end is known. -/
def Frontier.prolong (path : List α) (frontier : Frontier α) (vertex : α) : Frontier α :=
  if frontier.seen.contains vertex then frontier
  else { seen := frontier.seen.insert vertex, paths := (vertex :: path) :: frontier.paths }

/-- Prolong the paths of a level in order, up to the first that an edge closes. -/
def advance (next : α → List α) (start : α) :
    List (List α) → Frontier α → Except (List α) (Frontier α)
  | [], frontier => .ok frontier
  | path :: paths, frontier =>
      let targets := (path.head?.map next).getD []
      if start ∈ targets then .error path
      else advance next start paths (targets.foldl (Frontier.prolong path) frontier)

/-- The path that an edge closes to a cycle, found on at most the given number
of levels. -/
def search (next : α → List α) (start : α) : Nat → Frontier α → Option (List α)
  | 0, _ => none
  | levels + 1, frontier =>
      match advance next start frontier.paths.reverse { frontier with paths := [] } with
      | .error closed => some closed
      | .ok frontier => if frontier.paths.isEmpty then none else search next start levels frontier

/-- A shortest cycle through `start` that stays inside a component, from
`start` on. -/
def shortestCycle (graph : Digraph α) (component : List α) (start : α) : List α :=
  let members := Std.TreeSet.ofList component
  let inside := fun vertex => (graph.next vertex).filter members.contains
  ((search inside start component.length { paths := [[start]] }).map List.reverse).getD [start]

end MemoGraph.Digraph
