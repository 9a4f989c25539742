import MemoGraph.Digraph.Components

namespace MemoGraph

/-- The graph with the given successors of each index. -/
def Digraph.ofSuccessors (successors : Array (List Nat)) : Digraph Nat where
  vertices := List.range successors.size
  next vertex := successors[vertex]?.getD []

/-! The components that contain a cycle, found in one walk without recursion.

Vertices are numbered as they are discovered, and stay on a stack until their
component is closed. The low link of a vertex is the lowest number of a vertex on
the stack that is known to be reached from it. A vertex is left once its edges
are used up; if its low link is its own number then, its component is what stands
on the stack from it on.

Every access to an array is checked: there is no result if one is out of range.
-/

namespace LowLinks

/-- A vertex that was entered and not left, and how many of its edges were used. -/
abbrev Frame := Nat × Nat

structure Search where
  /-- The numbers of the vertices that were discovered. -/
  index : Array (Option Nat)
  low : Array Nat
  onStack : Array Bool
  stack : List Nat := []
  /-- How many vertices were discovered. -/
  count : Nat := 0
  /-- The components that were closed and contain a cycle, the latest first. -/
  components : List (List Nat) := []

def write? {α : Type} (items : Array α) (index : Nat) (item : α) : Option (Array α) :=
  if bound : index < items.size then some (items.set index item) else none

/-- Take vertices from the stack down to the given one. Gives those that were
taken, the first one first, and the rest. -/
def popTo (vertex : Nat) : List Nat → Array Bool → Option (List Nat × List Nat × Array Bool)
  | [], onStack => some ([], [], onStack)
  | top :: stack, onStack => do
      let onStack ← write? onStack top false
      if top = vertex then return ([top], stack, onStack)
      let (popped, rest, onStack) ← popTo vertex stack onStack
      return (top :: popped, rest, onStack)

namespace Search

def new (size : Nat) : Search where
  index := .replicate size none
  low := .replicate size 0
  onStack := .replicate size false

def enter (search : Search) (vertex : Nat) : Option Search := do
  let index ← write? search.index vertex (some search.count)
  let low ← write? search.low vertex search.count
  let onStack ← write? search.onStack vertex true
  return { search with
    index, low, onStack, stack := vertex :: search.stack, count := search.count + 1 }

/-- Something with the given low link or number is reached from the vertex. -/
def lower (search : Search) (vertex number : Nat) : Option Search := do
  let old ← search.low[vertex]?
  let low ← write? search.low vertex (min old number)
  return { search with low }

/-- An edge of the vertex leads to one that has a number. -/
def meet (search : Search) (vertex target number : Nat) : Option Search := do
  if ← search.onStack[target]? then search.lower vertex number else return search

def numbered? (search : Search) (vertex : Nat) : Option (Nat × Nat) := do
  let number ← ← search.index[vertex]?
  return (number, vertex)

/-- The component in the order in which its members were discovered. -/
def sort (search : Search) (component : List Nat) : Option (List Nat) := do
  let numbered ← component.mapM search.numbered?
  return (numbered.mergeSort fun left right => left.1 ≤ right.1).map Prod.snd

/-- Close the component of a vertex, and keep it if it contains a cycle. -/
def close (search : Search) (vertex : Nat) (successors : List Nat) : Option Search := do
  let (component, stack, onStack) ← popTo vertex search.stack search.onStack
  let search := { search with stack, onStack }
  if 1 < component.length ∨ vertex ∈ successors then
    let component ← search.sort component
    return { search with components := component :: search.components }
  else return search

/-- The vertex that another was entered from reaches whatever the other does. -/
def inherit (search : Search) (low : Nat) : List Frame → Option Search
  | (parent, _) :: _ => search.lower parent low
  | [] => some search

def leave (search : Search) (vertex : Nat) (successors : List Nat) (calls : List Frame) :
    Option Search := do
  let search ← search.inherit (← search.low[vertex]?) calls
  let low ← search.low[vertex]?
  if some low = (← search.index[vertex]?) then search.close vertex successors else return search

end Search

/-- Use the next edge of the vertex entered last, or leave it. -/
def step (graph : Array (List Nat)) (search : Search) (frame : Frame) (calls : List Frame) :
    Option (Search × List Frame) := do
  let (vertex, used) := frame
  let successors ← graph[vertex]?
  match successors[used]? with
  | some target =>
      let calls := (vertex, used + 1) :: calls
      match ← search.index[target]? with
      | none => return (← search.enter target, (target, 0) :: calls)
      | some number => return (← search.meet vertex target number, calls)
  | none => return (← search.leave vertex successors calls, calls)

section Termination

variable {search after : Search} {vertex : Nat} {successors : List Nat} {calls : List Frame}

def Search.undiscovered (search : Search) : Nat := search.index.countP Option.isNone

/-- How many edges are left to the vertices that were not left, and how many of
these there are. -/
def remaining (graph : Array (List Nat)) (calls : List Frame) : Nat :=
  calls.foldr (fun frame others => (graph[frame.1]?.getD []).length - frame.2 + 1 + others) 0

theorem Search.undiscovered_enter (found : search.index[vertex]? = some none)
    (entered : search.enter vertex = some after) :
    after.undiscovered < search.undiscovered := by
  obtain ⟨bound, free⟩ := Array.getElem?_eq_some_iff.mp found
  simp only [enter, write?, bound, dif_pos, bind, Option.bind_some, pure,
    Option.bind_eq_some_iff] at entered
  obtain ⟨_, _, _, _, same⟩ := entered
  cases same
  have counted : 0 < search.index.countP Option.isNone :=
    Array.countP_pos_iff.mpr ⟨none, free ▸ Array.getElem_mem bound, rfl⟩
  simp only [undiscovered, Array.countP_set bound, free, Option.isNone_none, Option.isNone_some,
    if_true, Bool.false_eq_true, if_false]
  omega

theorem Search.index_lower {number : Nat} (lowered : search.lower vertex number = some after) :
    after.index = search.index := by
  simp only [lower, bind, pure, Option.bind_eq_some_iff] at lowered
  obtain ⟨_, _, _, _, same⟩ := lowered
  cases same
  rfl

theorem Search.index_meet {target number : Nat}
    (met : search.meet vertex target number = some after) : after.index = search.index := by
  simp only [meet, bind, pure, Option.bind_eq_some_iff] at met
  obtain ⟨onStack, _, met⟩ := met
  split at met
  · exact index_lower met
  · cases met
    rfl

theorem Search.index_close (closed : search.close vertex successors = some after) :
    after.index = search.index := by
  simp only [close, bind, pure, Option.bind_eq_some_iff] at closed
  obtain ⟨_, _, closed⟩ := closed
  split at closed
  · obtain ⟨_, _, same⟩ := Option.bind_eq_some_iff.mp closed
    cases same
    rfl
  · cases closed
    rfl

theorem Search.index_inherit {low : Nat} (inherited : search.inherit low calls = some after) :
    after.index = search.index := by
  cases calls with
  | nil =>
      cases inherited
      rfl
  | cons frame calls => exact index_lower inherited

theorem Search.index_leave (left : search.leave vertex successors calls = some after) :
    after.index = search.index := by
  simp only [leave, bind, pure, Option.bind_eq_some_iff] at left
  obtain ⟨_, _, _, inherited, _, _, _, _, left⟩ := left
  split at left
  · exact (index_close left).trans (index_inherit inherited)
  · cases left
    exact index_inherit inherited

theorem step_decreases {graph : Array (List Nat)} {frame : Frame} {later : List Frame}
    (stepped : step graph search frame calls = some (after, later)) :
    Prod.Lex (· < ·) (· < ·) (after.undiscovered, remaining graph later)
      (search.undiscovered, remaining graph (frame :: calls)) := by
  obtain ⟨vertex, used⟩ := frame
  simp only [step, bind, pure, Option.bind_eq_some_iff] at stepped
  obtain ⟨successors, listed, stepped⟩ := stepped
  have alike : after.index = search.index → after.undiscovered = search.undiscovered :=
    congrArg (Array.countP Option.isNone)
  split at stepped
  · rename_i target isTarget
    obtain ⟨used, _⟩ := List.getElem?_eq_some_iff.mp isTarget
    simp only [Option.bind_eq_some_iff] at stepped
    obtain ⟨number, found, stepped⟩ := stepped
    split at stepped
    · obtain ⟨_, entered, same⟩ := Option.bind_eq_some_iff.mp stepped
      cases same
      exact .left _ _ (Search.undiscovered_enter found entered)
    · obtain ⟨_, met, same⟩ := Option.bind_eq_some_iff.mp stepped
      cases same
      rw [alike (Search.index_meet met)]
      refine .right _ ?_
      simp only [remaining, List.foldr_cons, listed, Option.getD_some]
      omega
  · obtain ⟨_, left, same⟩ := Option.bind_eq_some_iff.mp stepped
    cases same
    rw [alike (Search.index_leave left)]
    refine .right _ ?_
    simp only [remaining, List.foldr_cons]
    omega

end Termination

/-- Take steps until every vertex that was entered is left. -/
def drive (graph : Array (List Nat)) (search : Search) (calls : List Frame) : Option Search :=
  match calls with
  | [] => some search
  | frame :: calls =>
      match _stepped : step graph search frame calls with
      | none => none
      | some (after, later) => drive graph after later
termination_by (search.undiscovered, remaining graph calls)
decreasing_by exact step_decreases _stepped

/-- Enter a vertex unless it was discovered before. -/
def start (graph : Array (List Nat)) (search : Search) (vertex : Nat) : Option Search := do
  match ← search.index[vertex]? with
  | some _ => return search
  | none => drive graph (← search.enter vertex) [(vertex, 0)]

/-- The components that contain a cycle. -/
def cyclicComponents (graph : Array (List Nat)) : Option (List (List Nat)) := do
  let search ← (List.range graph.size).foldlM (start graph) (.new graph.size)
  return search.components.reverse

end LowLinks

end MemoGraph
