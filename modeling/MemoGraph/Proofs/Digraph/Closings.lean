import MemoGraph.Proofs.Digraph.Components
import MemoGraph.Proofs.Digraph.DepthFirst

namespace MemoGraph.Digraph

/-! When components are closed.

A component is closed when the last of its vertices is finished. So what a walk
finishes, in its order, says which components there are and in which order they
are closed, whatever is done to find them.
-/

open Walk (Ordered)

variable {α : Type} {graph : Digraph α} {finished : List α} {components others : List (List α)}

/-- The components that are closed once the given vertices are finished. The
latest come first in both lists. -/
inductive Closes (graph : Digraph α) : List α → List (List α) → Prop
  | start : Closes graph [] []
  | close {vertex : α} {finished component : List α} {components : List (List α)}
      (whole : ∀ other, other ∈ component ↔ graph.Connected vertex other)
      (complete : ∀ other ∈ component, other ∈ vertex :: finished)
      (rest : Closes graph finished components) :
      Closes graph (vertex :: finished) (component :: components)
  | pass {vertex other : α} {finished : List α} {components : List (List α)}
      (connected : graph.Connected vertex other) (missing : other ∉ vertex :: finished)
      (rest : Closes graph finished components) : Closes graph (vertex :: finished) components

theorem Connected.refl (vertex : α) : graph.Connected vertex vertex := ⟨.refl, .refl⟩

theorem Closes.unique (closes : graph.Closes finished components)
    (closesOther : graph.Closes finished others) :
    List.Forall₂ (fun left right => ∀ vertex, vertex ∈ left ↔ vertex ∈ right) components others := by
  induction closes generalizing others with
  | start =>
      cases closesOther
      exact .nil
  | close whole complete _ ih =>
      cases closesOther with
      | close wholeOther _ rest =>
          exact .cons (fun vertex => (whole vertex).trans (wholeOther vertex).symm) (ih rest)
      | pass connected missing => exact absurd (complete _ ((whole _).mpr connected)) missing
  | pass connected missing _ ih =>
      cases closesOther with
      | close whole complete => exact absurd (complete _ ((whole _).mpr connected)) missing
      | pass _ _ rest => exact ih rest

theorem Closes.mem_finished (closes : graph.Closes finished components) {component : List α}
    (listed : component ∈ components) {vertex : α} (member : vertex ∈ component) :
    vertex ∈ finished := by
  induction closes with
  | start => cases listed
  | close _ complete _ ih =>
      rcases List.mem_cons.mp listed with rfl | earlier
      · exact complete vertex member
      · exact List.mem_cons_of_mem _ (ih earlier)
  | pass _ _ _ ih => exact List.mem_cons_of_mem _ (ih listed)

/-- A closed component is all that one of its vertices is connected with. -/
theorem Closes.exists_whole (closes : graph.Closes finished components) {component : List α}
    (listed : component ∈ components) :
    ∃ vertex ∈ component, ∀ other, other ∈ component ↔ graph.Connected vertex other := by
  induction closes with
  | start => cases listed
  | close whole _ _ ih =>
      rcases List.mem_cons.mp listed with rfl | earlier
      · exact ⟨_, (whole _).mpr (.refl _), whole⟩
      · exact ih earlier
  | pass _ _ _ ih => exact ih listed

section Collection

variable [Key α]

theorem Collection.components_add (graph : Digraph α) {collection : Collection α} {vertex : α}
    (free : vertex ∉ collection.assigned) :
    ∃ component, (collection.add graph.reverse vertex).components =
      component :: collection.components := by
  unfold add
  split
  · rename_i assigned
    exact absurd (Std.TreeSet.contains_iff_mem.mp assigned) free
  · exact ⟨_, rfl⟩

theorem Collection.add_of_assigned {collection : Collection α} {vertex : α}
    (assigned : vertex ∈ collection.assigned) :
    collection.add graph.reverse vertex = collection :=
  if_pos (Std.TreeSet.contains_iff_mem.mpr assigned)

/-- The components that are collected in some order are closed in the opposite one. -/
theorem Collected.foldl_closes {collection : Collection α} (collected : graph.Collected collection)
    (closed : graph.Closed) {order : List α} (inside : ∀ vertex ∈ order, vertex ∈ graph.vertices)
    (unique : order.Nodup) (ordered : Ordered graph.next order)
    (covered : ∀ other ∈ graph.vertices, other ∉ collection.assigned → other ∈ order)
    (started : ∀ vertex ∈ collection.assigned, ∃ other, graph.Connected vertex other ∧
      other ∉ order) :
    ∃ components, graph.Closes order components ∧
      (order.foldl (Collection.add graph.reverse) collection).components =
        components.reverse ++ collection.components := by
  induction order generalizing collection with
  | nil => exact ⟨[], .start, rfl⟩
  | cons vertex earlier ih =>
      obtain ⟨fresh, restUnique⟩ := List.nodup_cons.mp unique
      have isVertex := inside vertex List.mem_cons_self
      obtain ⟨added, assigned, kept⟩ := collected.add closed isVertex ordered covered
      have restCovered : ∀ other ∈ graph.vertices,
          other ∉ (collection.add graph.reverse vertex).assigned → other ∈ earlier := by
        intro other member free
        rcases List.mem_cons.mp (covered other member fun old => free (kept other old)) with
          rfl | later
        · exact absurd assigned free
        · exact later
      have restInside : ∀ other ∈ earlier, other ∈ graph.vertices :=
        fun other member => inside other (List.mem_cons_of_mem vertex member)
      have restStarted : ∀ {other : α}, other ∈ collection.assigned →
          ∃ third, graph.Connected other third ∧ third ∉ earlier := by
        intro other old
        obtain ⟨third, connected, outside⟩ := started other old
        exact ⟨third, connected, fun member => outside (List.mem_cons_of_mem vertex member)⟩
      by_cases old : vertex ∈ collection.assigned
      · obtain ⟨other, connected, outside⟩ := started vertex old
        rw [Collection.add_of_assigned old] at restCovered
        obtain ⟨components, closes, folded⟩ :=
          ih collected restInside restUnique ordered.2 restCovered fun _ => restStarted
        refine ⟨components, .pass connected outside closes, ?_⟩
        rw [List.foldl_cons, Collection.add_of_assigned old, folded]
      · obtain ⟨component, listed⟩ := Collection.components_add graph old
        have isNew : ∀ other ∈ (collection.add graph.reverse vertex).assigned,
            other ∉ collection.assigned → other ∈ component := by
          intro other isAssigned free
          obtain ⟨found, isFound, member⟩ := (added.assigned other).mp isAssigned
          rw [listed] at isFound
          rcases List.mem_cons.mp isFound with rfl | before
          · exact member
          · exact absurd ((collected.assigned other).mpr ⟨found, before, member⟩) free
        have whole := added.whole component (listed ▸ List.mem_cons_self) vertex
          (isNew vertex assigned old)
        obtain ⟨components, closes, folded⟩ := ih added restInside restUnique ordered.2 restCovered
          fun other isAssigned => by
            by_cases free : other ∈ collection.assigned
            · exact restStarted free
            · have member := isNew other isAssigned free
              exact ⟨vertex, ((whole other).mp member).symm, fresh⟩
        refine ⟨component :: components, .close whole (fun other member => ?_) closes, ?_⟩
        · have connected := (whole other).mp member
          exact covered other (closed.reaches isVertex connected.1) fun assigned =>
            old (collected.assigned_connected assigned connected.symm)
        · rw [List.foldl_cons, folded, listed, List.reverse_cons, List.append_assoc]
          rfl

/-- The components of a graph are listed in the order in which they are closed. -/
theorem closes_components (closed : graph.Closed) :
    graph.Closes graph.walk.finished graph.components.reverse := by
  obtain ⟨unique, ordered, members⟩ := finished_spec closed
  obtain ⟨components, closes, folded⟩ := Collected.empty.foldl_closes closed
    (fun vertex member => (members vertex).mp member) unique ordered
    (fun other member _ => (members other).mpr member)
    fun vertex none => absurd none Std.TreeSet.not_mem_emptyc
  have same : graph.components = components.reverse := folded.trans (List.append_nil _)
  rw [same, List.reverse_reverse]
  exact closes

end Collection

end MemoGraph.Digraph
