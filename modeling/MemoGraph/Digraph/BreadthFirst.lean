import MemoGraph.Digraph.LowLinks

namespace MemoGraph

/-- The graph with the given successors of each index and a key for each. -/
def Digraph.ofKeys {κ : Type} [DecidableEq κ] (keys : List κ) (successors : Array (List Nat)) :
    Digraph κ where
  vertices := keys
  next key := (successors[keys.idxOf key]?.getD []).filterMap (keys[·]?)

/-! The shortest cycles through the members of a component, each found by a search
with a queue and a table of where every member was come to from.

Members are known by their places in the component. As in the search for
components, there is no result if an access is out of range, nor if the way back
from the closing edge comes by a place that was never come to.
-/

namespace BreadthFirst

open LowLinks (write?)

variable {κ : Type}

/-- The place of every member. -/
def places (component : List Nat) : Std.TreeMap Nat Nat := .ofList component.zipIdx

/-- The places of the members that the edges of one of them lead to. -/
def targets? (graph : Array (List Nat)) (component : List Nat) (place : Nat) :
    Option (List Nat) := do
  let successors ← graph[← component[place]?]?
  return successors.filterMap fun vertex => (places component)[vertex]?

def key? (keys : List κ) (component : List Nat) (place : Nat) : Option κ := do
  keys[← component[place]?]?

structure Search where
  /-- For each place the one that it was come to from. -/
  parent : Array (Option Nat)
  /-- The places whose edges were not followed yet. -/
  queue : List Nat

namespace Search

def new (size start : Nat) : Search where
  parent := .replicate size none
  queue := [start]

/-- Come to a place, unless it was come to before. -/
def visit (search : Search) (source target : Nat) : Option Search := do
  match ← search.parent[target]? with
  | some _ => return search
  | none =>
      let parent ← write? search.parent target (some source)
      return { parent, queue := search.queue ++ [target] }

/-- Follow edges up to one that leads back to the start. Says whether there was one. -/
def follow (start source : Nat) : List Nat → Search → Option (Search × Bool)
  | [], search => some (search, false)
  | target :: targets, search =>
      if target = start then some (search, true)
      else do follow start source targets (← search.visit source target)

def unvisited (search : Search) : Nat := search.parent.countP Option.isNone

theorem unvisited_visit {search after : Search} {source target : Nat}
    (visited : search.visit source target = some after) :
    after.unvisited + after.queue.length = search.unvisited + search.queue.length := by
  simp only [visit, bind, pure, Option.bind_eq_some_iff] at visited
  obtain ⟨parent, found, visited⟩ := visited
  split at visited
  · cases visited
    rfl
  · obtain ⟨bound, free⟩ := Array.getElem?_eq_some_iff.mp found
    simp only [write?, bound, dif_pos, Option.bind_some, Option.some.injEq] at visited
    subst visited
    have counted : 0 < search.parent.countP Option.isNone :=
      Array.countP_pos_iff.mpr ⟨none, free ▸ Array.getElem_mem bound, rfl⟩
    simp only [unvisited, Array.countP_set bound, free, Option.isNone_none, Option.isNone_some,
      if_true, Bool.false_eq_true, if_false, List.length_append, List.length_singleton]
    omega

theorem unvisited_follow {search after : Search} {start source : Nat} {targets : List Nat}
    {closed : Bool} (followed : follow start source targets search = some (after, closed)) :
    after.unvisited + after.queue.length = search.unvisited + search.queue.length := by
  induction targets generalizing search with
  | nil =>
      cases followed
      rfl
  | cons target targets ih =>
      rw [follow] at followed
      split at followed
      · cases followed
        rfl
      · obtain ⟨middle, visited, followed⟩ := Option.bind_eq_some_iff.mp followed
        exact (ih followed).trans (unvisited_visit visited)

end Search

/-- Search for the first edge back to the start. Gives the place that it leaves,
or the start if there is none. -/
def close (targets? : Nat → Option (List Nat)) (start : Nat) (search : Search) :
    Option (Search × Nat) :=
  match _queued : search.queue with
  | [] => some (search, start)
  | source :: queue => do
      let targets ← targets? source
      match _followed : Search.follow start source targets { search with queue } with
      | none => none
      | some (after, true) => some (after, source)
      | some (after, false) => close targets? start after
termination_by search.unvisited + search.queue.length
decreasing_by
  have kept := Search.unvisited_follow _followed
  simp only [Search.unvisited, _queued, List.length_cons] at kept ⊢
  omega

/-- The keys on the way from a place back to the start. The bound is on the length
of a way without repetition. -/
def wayBack (key? : Nat → Option κ) (parent : Array (Option Nat)) (start : Nat) :
    Nat → Nat → Option (List κ)
  | 0, _ => none
  | bound + 1, place => do
      let key ← key? place
      if place = start then return [key]
      return key :: (← wayBack key? parent start bound (← ← parent[place]?))

/-- A shortest cycle through the member with the given place, from that member on. -/
def cycleFrom (graph : Array (List Nat)) (keys : List κ) (component : List Nat) (start : Nat) :
    Option (List κ) := do
  let (search, closing) ← close (targets? graph component) start (.new component.length start)
  let way ← wayBack (key? keys component) search.parent start component.length closing
  return way.reverse

/-- For every member of a component a shortest cycle through it. -/
def describe (graph : Array (List Nat)) (keys : List κ) (component : List Nat) :
    Option (List (List κ)) :=
  (List.range component.length).mapM (cycleFrom graph keys component)

end BreadthFirst

end MemoGraph
