import MemoGraph.Proofs.Digraph.BreadthFirst
import MemoGraph.Proofs.Round.Deadlocks

namespace MemoGraph.Round

open BreadthFirst (Knot keysOf)

variable {κ ν φ : Type} [Key κ] {round : Round κ ν φ} {roots ready : List κ}

/-- For each key that the round still works on where those stand that it waits for. -/
def edges (round : Round κ ν φ) (roots : List κ) : Array (List Nat) :=
  ((round.stuck roots).map fun key => (round.batch key).filterMap (round.stuck roots).idxOf?).toArray

/-- Fail the keys with the given places, each in the cycle that is described for it. -/
def breakPlaces [BEq ν] (graph : Array (List Nat)) (keys : List κ)
    (wakes : Round κ ν φ × List κ) (component : List Nat) : Option (Round κ ν φ × List κ) := do
  let (round, waiters) := wakes
  let members ← component.mapM (keys[·]?)
  let cycles ← BreadthFirst.describe graph keys component
  return ((members.zip cycles).map fun (key, cycle) => Failure.cycle key cycle).foldl abandon
    (round.tell (.cycle members), waiters)

/-- Break deadlocks by searches in arrays. There is no result if an access is out of
range. -/
def breakDeadlock? [BEq ν] (round : Round κ ν φ) (roots : List κ) :
    Option (Round κ ν φ × List κ) := do
  let keys := round.stuck roots
  let graph := round.edges roots
  let (after, waiters) ←
    match keys, ← LowLinks.cyclicComponents graph with
    | [], _ => some (round, [])
    | stuck, [] =>
        some ((stuck.map fun key => Failure.infrastructure key (.ofInfrastructure .stalled)).foldl
          abandon (round, []))
    | _, components => components.foldlM (breakPlaces graph keys) (round, [])
  return after.wake waiters

omit [Key κ] in
theorem idxOf?_bind_getElem? [DecidableEq κ] (keys : List κ) (key : κ) :
    (keys.idxOf? key).bind (keys[·]?) = if key ∈ keys then some key else none := by
  cases found : keys.idxOf? key with
  | none => rw [if_neg (List.idxOf?_eq_none_iff.mp found), Option.bind_none]
  | some place =>
      obtain ⟨bound, same, _⟩ := List.idxOf?_eq_some_iff.mp found
      rw [Option.bind_some, List.getElem?_eq_getElem bound, same,
        if_pos (same ▸ List.getElem_mem bound)]

theorem size_edges : (round.stuck roots).length = (round.edges roots).size := by simp [edges]

theorem inRange_edges (round : Round κ ν φ) (roots : List κ) :
    ∀ successors ∈ round.edges roots, ∀ target ∈ successors,
      target < (round.edges roots).size := by
  intro successors listed target edge
  obtain ⟨key, _, rfl⟩ := List.mem_map.mp (List.mem_toArray.mp listed)
  obtain ⟨dependency, _, place⟩ := List.mem_filterMap.mp edge
  obtain ⟨bound, _⟩ := List.idxOf?_eq_some_iff.mp place
  rw [← size_edges]
  exact bound

theorem closed_edges (round : Round κ ν φ) (roots : List κ) :
    (Digraph.ofSuccessors (round.edges roots)).Closed :=
  Digraph.closed_ofSuccessors (inRange_edges round roots)

theorem awaited_of_idle {key : κ} (idle : round.isEvaluating key = false) :
    round.awaited key = [] := by
  rw [isEvaluating_eq, Option.isSome_eq_false_iff, Option.isNone_iff_eq_none] at idle
  rw [awaited_eq, batch, idle]
  rfl

section Waiting

variable (waiting : Waiting round ready)
include waiting

theorem keysOf_edges {key : κ} (isStuck : key ∈ round.stuck roots) :
    keysOf (round.stuck roots) ((round.edges roots)[(round.stuck roots).idxOf key]?.getD []) =
      round.awaited key := by
  have bound := List.idxOf_lt_length_of_mem isStuck
  have entry : (round.edges roots)[(round.stuck roots).idxOf key]? =
      some ((round.batch key).filterMap (round.stuck roots).idxOf?) := by
    simp [edges, bound]
  rw [entry, Option.getD_some, keysOf, List.filterMap_filterMap, awaited_eq,
    ← List.filterMap_eq_filter]
  refine List.filterMap_congr fun dependency _ => ?_
  rw [idxOf?_bind_getElem?, Option.guard]
  simp only [mem_stuck roots waiting]

/-- The places of the keys stand for who waits for whom. -/
theorem waits_eq (roots : List κ) :
    round.waits roots = Digraph.ofKeys (round.stuck roots) (round.edges roots) := by
  unfold waits Digraph.ofKeys
  congr 1
  funext key
  by_cases isStuck : key ∈ round.stuck roots
  · exact (keysOf_edges waiting isStuck).symm
  · have idle : round.isEvaluating key = false := by
      rw [← Bool.not_eq_true, ← mem_stuck roots waiting]
      exact isStuck
    rw [awaited_of_idle idle, List.idxOf_eq_length isStuck, size_edges]
    simp

/-- The search in arrays finds the components of the keys that wait in circles. -/
theorem exists_cyclicComponents_edges (roots : List κ) :
    ∃ components, LowLinks.cyclicComponents (round.edges roots) = some components ∧
      (round.waits roots).cyclicComponents = components.map (keysOf (round.stuck roots)) := by
  refine ⟨_, LowLinks.cyclicComponents_eq (closed_edges round roots), ?_⟩
  rw [waits_eq waiting roots]
  exact BreadthFirst.cyclicComponents_ofKeys (nodup_distinct _) size_edges (closed_edges round roots)

variable [BEq ν]

theorem breakPlaces_eq {component : List Nat}
    (knot : Knot (round.edges roots) (round.stuck roots) component) (wakes : Round κ ν φ × List κ) :
    breakPlaces (round.edges roots) (round.stuck roots) wakes component =
      some (breakComponent (round.waits roots) wakes (keysOf (round.stuck roots) component)) := by
  have paired : ∀ (members : List κ) (cycle : κ → List κ),
      (members.zip (members.map cycle)).map (fun (key, cycle) => Failure.cycle key cycle) =
        members.map fun key => (Failure.cycle key (cycle key) : Failure κ φ) := by
    intro members cycle
    induction members with
    | nil => rfl
    | cons key members ih => simp [ih]
  unfold breakPlaces breakComponent
  rw [waits_eq waiting roots, knot.describe_eq,
    BreadthFirst.mapM_keys fun vertex member => knot.length ▸ knot.inside member]
  simp only [Option.bind_eq_bind, Option.bind_some, Option.pure_def, paired]

theorem foldlM_breakPlaces_eq {components : List (List Nat)}
    (knots : ∀ component ∈ components, Knot (round.edges roots) (round.stuck roots) component)
    (wakes : Round κ ν φ × List κ) :
    components.foldlM (breakPlaces (round.edges roots) (round.stuck roots)) wakes =
      some ((components.map (keysOf (round.stuck roots))).foldl
        (breakComponent (round.waits roots)) wakes) := by
  induction components generalizing wakes with
  | nil => rfl
  | cons component components ih =>
      obtain ⟨knot, knots⟩ := List.forall_mem_cons.mp knots
      rw [List.foldlM_cons, breakPlaces_eq waiting knot]
      exact ih knots _

/-- Broken by searches in arrays, which never leave them, deadlocks are broken in the
same way. -/
theorem breakDeadlock?_eq (roots : List κ) :
    round.breakDeadlock? roots = some (round.breakDeadlock roots) := by
  obtain ⟨components, found, same⟩ := exists_cyclicComponents_edges waiting roots
  have knots : ∀ component ∈ components,
      Knot (round.edges roots) (round.stuck roots) component := fun component listed =>
    { inRange := inRange_edges round roots
      length := size_edges
      unique := nodup_distinct _
      listed := ⟨components, found, listed⟩ }
  have folded := foldlM_breakPlaces_eq waiting knots (round, [])
  have vertices : (round.waits roots).vertices = round.stuck roots := rfl
  unfold breakDeadlock? breakDeadlock
  simp only [found, same, vertices]
  cases stuck : round.stuck roots with
  | nil => rfl
  | cons key others =>
      cases components with
      | nil => rfl
      | cons component components =>
          rw [stuck] at folded
          simp only [Option.bind_eq_bind, Option.bind_some, folded]
          rfl

end Waiting

end MemoGraph.Round
