import MemoGraph.Proofs.Digraph.LowLinks

namespace MemoGraph

namespace Digraph

open Walk (Reaches)

section Walks

variable {α : Type} [Key α] {graph : Digraph α}

theorem depthFirst_walk (closed : graph.Closed) :
    DepthFirst graph.next graph.vertices [] graph.walk.discovered.reverse graph.walk.finished := by
  have room : ({} : Walk α).unseen graph.vertices ≤ graph.vertices.length := List.countP_le_length
  have faithful : ({} : Walk α).Faithful := fun vertex =>
    ⟨fun seen => absurd seen Std.TreeSet.not_mem_emptyc, fun listed => nomatch listed⟩
  obtain ⟨finished, isFinished, depthFirst⟩ := (Walk.foldl_visit_traversed closed.inside
    graph.vertices (fun _ _ inside room => Walk.visit_traversed closed.inside inside room)
    (fun _ member => member) room faithful).depthFirst
  rw [show graph.walk.finished = finished from isFinished.trans (List.append_nil finished)]
  exact depthFirst

theorem nodup_of_mem_components (closed : graph.Closed) {component : List α}
    (listed : component ∈ graph.components) : component.Nodup := by
  obtain ⟨collection, collected, same, _⟩ := components_spec closed
  exact (List.nodup_flatten.mp collected.unique).1 component (same ▸ listed)

theorem isCyclic_eq_true {component : List α} : graph.isCyclic component = true ↔
    2 ≤ component.length ∨ ∃ vertex ∈ component, vertex ∈ graph.next vertex := by
  match component with
  | [] => simp [isCyclic]
  | [vertex] => simp [isCyclic]
  | _ :: _ :: _ => simp [isCyclic]

/-- What contains the same vertices, without repetition, is as cyclic. -/
theorem isCyclic_eq {left right : List α} (leftUnique : left.Nodup) (rightUnique : right.Nodup)
    (same : ∀ vertex, vertex ∈ left ↔ vertex ∈ right) :
    graph.isCyclic left = graph.isCyclic right := by
  have perm := (List.perm_ext_iff_of_nodup leftUnique rightUnique).mpr same
  rw [Bool.eq_iff_iff, isCyclic_eq_true, isCyclic_eq_true, perm.length_eq]
  simp only [same]

omit [Key α] in
theorem eq_map_filter [DecidableEq α] {order : List α} {components others : List (List α)}
    (same : List.Forall₂ (fun left right => ∀ vertex, vertex ∈ left ↔ vertex ∈ right)
      components others)
    (listed : ∀ component ∈ components, component = order.filter (· ∈ component)) :
    components = others.map fun component => order.filter (· ∈ component) := by
  induction same with
  | nil => rfl
  | cons alike _ ih =>
      rw [List.map_cons, ← ih fun component member => listed component (List.mem_cons_of_mem _ member)]
      refine congrArg (· :: _) ((listed _ List.mem_cons_self).trans ?_)
      exact List.filter_congr fun vertex _ => by simp only [alike]

/-- However components are closed in the order of the walk, the cyclic ones among
them are the same. -/
theorem cyclicComponents_of_closes (closed : graph.Closed) {components : List (List α)}
    (closes : graph.Closes graph.walk.finished components)
    (listed : ∀ component ∈ components,
      component = graph.walk.discovered.reverse.filter (· ∈ component)) :
    graph.cyclicComponents = (components.filter graph.isCyclic).reverse := by
  have collected := closes_components closed
  have mapped := eq_map_filter (closes.unique collected) listed
  have cyclic : ∀ component ∈ graph.components,
      graph.isCyclic (graph.walk.discovered.reverse.filter (· ∈ component)) =
        graph.isCyclic component := by
    intro component isComponent
    refine isCyclic_eq ((nodup_discovered closed).filter _)
      (nodup_of_mem_components closed isComponent) fun vertex => ?_
    have known : vertex ∈ component → vertex ∈ graph.walk.discovered.reverse := fun member => by
      have finished := collected.mem_finished (List.mem_reverse.mpr isComponent) member
      exact (mem_discovered closed).mpr (((finished_spec closed).2.2 vertex).mp finished)
    simpa using known
  unfold cyclicComponents
  rw [mapped, List.filter_map, ← List.map_reverse, ← List.filter_reverse, List.reverse_reverse]
  exact congrArg (List.map _) (List.filter_congr fun component isComponent =>
    (cyclic component isComponent).symm)

end Walks

theorem closed_ofSuccessors {graph : Array (List Nat)}
    (inRange : ∀ successors ∈ graph, ∀ target ∈ successors, target < graph.size) :
    (ofSuccessors graph).Closed where
  unique := List.nodup_range
  inside vertex isVertex target edge := by
    have bound : vertex < graph.size := List.mem_range.mp isVertex
    simp only [ofSuccessors, Array.getElem?_eq_getElem bound, Option.getD_some] at edge
    exact List.mem_range.mpr (inRange _ (Array.getElem_mem bound) target edge)

end Digraph

namespace LowLinks

open MemoGraph.Digraph (ofSuccessors opened mem_opened)

variable {graph : Array (List Nat)}

/-- The search gets to its end, and finds what the two walks find. -/
theorem exists_cyclicComponents (inside : (ofSuccessors graph).Closed) :
    ∃ components, (ofSuccessors graph).Trail (ofSuccessors graph).walk.discovered.reverse
        (ofSuccessors graph).walk.finished components ∧
      cyclicComponents graph = some (components.filter (ofSuccessors graph).isCyclic).reverse := by
  have empty : (ofSuccessors graph).Trail [] [] [] :=
    { unique := List.nodup_nil
      done := by simp
      closes := .start
      listed := by simp
      sealed := by simp
      apart := .nil
      back := by simp
      forth := by simp }
  obtain ⟨final, components, folded, represents, trail⟩ := exists_starts inside
    (Digraph.depthFirst_walk inside) (fun start isVertex => List.mem_range.mp isVertex)
    (.new graph) empty (by simp)
  rw [List.append_nil] at trail
  have ends : (List.range graph.size).foldlM (start graph) (.new graph.size) = some final := folded
  exact ⟨components, trail, by simp [cyclicComponents, ends, represents.components]⟩

theorem cyclicComponents_eq (inside : (ofSuccessors graph).Closed) :
    cyclicComponents graph = some (ofSuccessors graph).cyclicComponents := by
  obtain ⟨components, trail, found⟩ := exists_cyclicComponents inside
  rw [found, Digraph.cyclicComponents_of_closes inside trail.closes trail.listed]

/-- For successors that are all in range, the iterative search gets to its end
without an access out of range. It finds the strongly connected components that
have two members or an edge from their only one to itself, and the two walks find
the same. Each is listed once, has no vertex in common with another, and lists its
members in the order in which a depth-first walk from all vertices in turn
discovers them. A component that reaches another one comes after it. -/
theorem cyclicComponents_exact
    (inRange : ∀ successors ∈ graph, ∀ target ∈ successors, target < graph.size) :
    ∃ components order finished,
      cyclicComponents graph = some components ∧
      (ofSuccessors graph).cyclicComponents = components ∧
      DepthFirst (ofSuccessors graph).next (List.range graph.size) [] order finished ∧
      (∀ component, component ∈ components ↔
        component.Sublist order ∧
        (∃ vertex < graph.size, ∀ other, other ∈ component ↔
          (ofSuccessors graph).Connected vertex other) ∧
        (2 ≤ component.length ∨ ∃ vertex ∈ component, vertex ∈ (ofSuccessors graph).next vertex)) ∧
      components.Nodup ∧ components.flatten.Nodup ∧
      components.Pairwise fun earlier later => ∀ vertex ∈ earlier, ∀ target ∈ later,
        ¬ Walk.Reaches (ofSuccessors graph).next vertex target := by
  have inside := Digraph.closed_ofSuccessors inRange
  have depthFirst := Digraph.depthFirst_walk inside
  obtain ⟨components, trail, found⟩ := exists_cyclicComponents inside
  have same := Digraph.cyclicComponents_of_closes inside trail.closes trail.listed
  have complete : ∀ vertex ∈ (ofSuccessors graph).walk.discovered.reverse,
      vertex ∈ (ofSuccessors graph).walk.finished := by
    obtain ⟨new, isNew, perm⟩ := depthFirst.exists_found
    rw [isNew]
    exact fun vertex known => perm.subset known
  have known : ∀ vertex, vertex ∈ (ofSuccessors graph).walk.discovered.reverse ↔
      vertex < graph.size :=
    fun vertex => (Digraph.mem_discovered inside).trans List.mem_range
  have apart := List.pairwise_reverse.mpr (trail.apart.filter (ofSuccessors graph).isCyclic)
  refine ⟨_, _, _, found, same, depthFirst, fun component => ?_, ?_,
    same ▸ Digraph.nodup_cyclicComponents inside, apart⟩
  · rw [List.mem_reverse, List.mem_filter, trail.mem_closed_iff complete, Digraph.isCyclic_eq_true,
      and_assoc]
    simp only [known]
  · refine apart.imp_of_mem fun {earlier later} listed _ separate equal => ?_
    obtain ⟨vertex, member, _⟩ := trail.closes.exists_whole
      (List.mem_filter.mp (List.mem_reverse.mp listed)).1
    exact separate vertex member vertex (equal ▸ member) .refl

/-- Two circles that share an edge, a vertex with an edge to itself on a circle that
they reach, and a vertex on no circle. -/
theorem cyclicComponents_exact_overlapping :
    (∀ successors ∈ #[[1, 3], [2], [0, 1], [4], [3, 4], [0]], ∀ target ∈ successors, target < 6) ∧
      cyclicComponents #[[1, 3], [2], [0, 1], [4], [3, 4], [0]] = some [[3, 4], [0, 1, 2]] := by
  have inRange : ∀ successors ∈ #[[1, 3], [2], [0, 1], [4], [3, 4], [0]],
      ∀ target ∈ successors, target < 6 := by decide
  obtain ⟨components, _, _, found, same, _⟩ := cyclicComponents_exact inRange
  refine ⟨inRange, found.trans (congrArg some (same.symm.trans ?_))⟩
  decide +kernel

end LowLinks

end MemoGraph
