import MemoGraph.Graph.Pruning
import MemoGraph.Proofs.Digraph.Walks
import MemoGraph.Proofs.Graph.View

namespace MemoGraph.Graph

variable {κ ν φ : Type} [Key κ] {graph : Graph κ ν φ}

theorem Linked.mem_keys (linked : graph.Linked) {key dependency : κ}
    (needed : dependency ∈ (graph.nodeAt key).dependencies) : dependency ∈ graph.keys := by
  by_contra unknown
  have listed := (linked key dependency).mpr needed
  rw [nodeAt_of_not_mem unknown] at listed
  cases listed

/-- The walk over dependencies has enough room at every start. -/
theorem visit_dependencies (linked : graph.Linked) (walk : Walk κ) (start : κ) :
    ∃ found, Walk.Visited (graph.dependencies · |>.keys) walk [start]
      (Walk.visit (graph.dependencies · |>.keys) (graph.size + 1) walk start) found := by
  have closed : ∀ key ∈ start :: graph.keys, ∀ dependency ∈ (graph.dependencies key).keys,
      dependency ∈ start :: graph.keys := by
    intro key _ dependency needed
    rw [dependencies_eq] at needed
    exact List.mem_cons_of_mem start (linked.mem_keys needed)
  refine Walk.visit_spec closed List.mem_cons_self ?_
  · refine Nat.le_trans List.countP_le_length ?_
    rw [List.length_cons]
    exact Nat.le_of_eq (congrArg (· + 1) Std.TreeMap.length_keys)

theorem reachable_spec (linked : graph.Linked) (starts : List κ) :
    ∃ found, Walk.Visited (graph.dependencies · |>.keys) {} starts
      (starts.foldl (Walk.visit (graph.dependencies · |>.keys) (graph.size + 1)) {}) found := by
  generalize ({} : Walk κ) = walk
  induction starts generalizing walk with
  | nil => exact ⟨[], .refl walk⟩
  | cons start rest ih =>
      obtain ⟨first, visited⟩ := visit_dependencies linked walk start
      obtain ⟨others, later⟩ := ih _
      exact ⟨others ++ first, visited.append later⟩

theorem contains_reachable_of_mem (linked : graph.Linked) {starts : List κ} {start : κ}
    (member : start ∈ starts) : (graph.reachable starts).contains start = true := by
  obtain ⟨found, visited⟩ := reachable_spec linked starts
  exact Std.TreeSet.contains_iff_mem.mpr (visited.starts start member)

theorem contains_reachable_of_dependency (linked : graph.Linked) {starts : List κ}
    {key dependency : κ} (kept : (graph.reachable starts).contains key = true)
    (needed : dependency ∈ (graph.nodeAt key).dependencies) :
    (graph.reachable starts).contains dependency = true := by
  obtain ⟨found, visited⟩ := reachable_spec linked starts
  rw [Std.TreeSet.contains_iff_mem] at kept ⊢
  have isFound := ((visited.seen key).mp kept).resolve_left Std.TreeSet.not_mem_emptyc
  refine visited.closed key isFound dependency ?_
  rw [dependencies_eq]
  exact needed

/-- What is reached is what the starts lead to. -/
theorem contains_reachable_iff (linked : graph.Linked) {starts : List κ} {key : κ} :
    (graph.reachable starts).contains key = true ↔
      ∃ start ∈ starts, Walk.Reaches (graph.dependencies · |>.keys) start key := by
  constructor
  · intro reached
    obtain ⟨found, visited⟩ := reachable_spec linked starts
    rw [Std.TreeSet.contains_iff_mem] at reached
    have isFound := ((visited.seen key).mp reached).resolve_left Std.TreeSet.not_mem_emptyc
    obtain ⟨start, isStart, _, leads⟩ := visited.reached key isFound
    exact ⟨start, isStart, leads.reaches⟩
  · rintro ⟨start, isStart, path⟩
    induction path with
    | refl => exact contains_reachable_of_mem linked isStart
    | tail _ edge ih =>
        refine contains_reachable_of_dependency linked ih ?_
        rw [← dependencies_eq]
        exact edge

theorem nodeAt_restrict (kept : Std.TreeSet κ) (key : κ) :
    (graph.restrict kept).nodeAt key =
      if kept.contains key then (graph.nodeAt key).filterDependents kept.contains else {} := by
  unfold nodeAt
  rw [node?_restrict]
  split
  · cases graph.node? key <;> rfl
  · rfl

theorem mem_keys_restrict {kept : Std.TreeSet κ} {key : κ} :
    key ∈ (graph.restrict kept).keys ↔ kept.contains key = true ∧ key ∈ graph.keys := by
  rw [Graph.mem_keys, node?_restrict, Graph.mem_keys]
  split
  · rename_i keep
    simp [keep]
  · rename_i drop
    simp [drop]

theorem size_restrict (kept : Std.TreeSet κ) :
    (graph.restrict kept).size + (graph.keys.filter fun key => !kept.contains key).length =
      graph.size := by
  have stays : (graph.restrict kept).keys.Perm (graph.keys.filter kept.contains) := by
    refine (List.perm_ext_iff_of_nodup Std.TreeMap.nodup_keys
      (Std.TreeMap.nodup_keys.filter _)).mpr fun key => ?_
    show key ∈ (graph.restrict kept).keys ↔ key ∈ graph.keys.filter kept.contains
    rw [mem_keys_restrict, List.mem_filter, and_comm]
  have sizes : ∀ other : Graph κ ν φ, other.size = other.keys.length :=
    fun _ => Std.TreeMap.length_keys.symm
  rw [sizes, sizes, stays.length_eq]
  exact (List.length_eq_length_filter_add _).symm

/-- Edges stay complete where the dependencies of kept keys are kept. -/
theorem Linked.restrict (linked : graph.Linked) {kept : Std.TreeSet κ}
    (closed : ∀ key dependency, kept.contains key = true →
      dependency ∈ (graph.nodeAt key).dependencies → kept.contains dependency = true) :
    (graph.restrict kept).Linked := by
  intro dependent dependency
  rw [nodeAt_restrict, nodeAt_restrict]
  by_cases keepDependent : kept.contains dependent = true
  · by_cases keepDependency : kept.contains dependency = true
    · rw [if_pos keepDependent, if_pos keepDependency]
      simp only [Node.filterDependents, List.mem_filter, keepDependent, and_true]
      exact linked dependent dependency
    · rw [if_pos keepDependent, if_neg keepDependency]
      constructor
      · exact fun none => (List.not_mem_nil none).elim
      · exact fun needed => absurd (closed dependent dependency keepDependent needed) keepDependency
  · rw [if_neg keepDependent]
    constructor
    · intro listed
      split at listed
      · exact absurd (List.mem_filter.mp listed).2 keepDependent
      · cases listed
    · exact fun none => (List.not_mem_nil none).elim

end MemoGraph.Graph
