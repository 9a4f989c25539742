import MemoGraph.Proofs.Digraph.Walks

namespace MemoGraph

/-- A depth-first walk from the starts in their order, which goes on from what was
discovered `before` and has discovered `after` in the end, both in order of
discovery. It returns from the vertices `finished`, the latest first. -/
inductive DepthFirst {α : Type} (next : α → List α) :
    List α → List α → List α → List α → Prop
  | done {discovered : List α} : DepthFirst next [] discovered discovered []
  | skip {start : α} {starts before after finished : List α} (known : start ∈ before)
      (rest : DepthFirst next starts before after finished) :
      DepthFirst next (start :: starts) before after finished
  | visit {start : α} {starts before middle after inner outer : List α} (unknown : start ∉ before)
      (inside : DepthFirst next (next start) (before ++ [start]) middle inner)
      (rest : DepthFirst next starts middle after outer) :
      DepthFirst next (start :: starts) before after (outer ++ start :: inner)

namespace DepthFirst

variable {α : Type} {next : α → List α} {starts more before middle after finished later : List α}

theorem append (left : DepthFirst next starts before middle finished)
    (right : DepthFirst next more middle after later) :
    DepthFirst next (starts ++ more) before after (later ++ finished) := by
  induction left with
  | done => simpa using right
  | skip known _ ih => exact .skip known (ih right)
  | visit unknown inside _ _ ih =>
      have rest := DepthFirst.visit unknown inside (ih right)
      simpa using rest

/-- What was discovered before stands first, and all that is new is finished. -/
theorem exists_found (traversal : DepthFirst next starts before after finished) :
    ∃ found, after = before ++ found ∧ found.Perm finished := by
  induction traversal with
  | done => exact ⟨[], by simp, .nil⟩
  | skip _ _ ih => exact ih
  | @visit start _ _ _ _ _ _ _ _ _ inner outer =>
      obtain ⟨first, rfl, firstPerm⟩ := inner
      obtain ⟨second, rfl, secondPerm⟩ := outer
      refine ⟨start :: first ++ second, by simp, ?_⟩
      exact List.perm_append_comm.trans (secondPerm.append (firstPerm.cons start))

theorem starts_discovered (traversal : DepthFirst next starts before after finished) :
    ∀ start ∈ starts, start ∈ after := by
  induction traversal with
  | done => simp
  | skip known rest ih =>
      obtain ⟨found, rfl, _⟩ := rest.exists_found
      simpa [known] using ih
  | visit _ inside rest _ ih =>
      obtain ⟨first, rfl, _⟩ := inside.exists_found
      obtain ⟨second, rfl, _⟩ := rest.exists_found
      simpa using ih

end DepthFirst

namespace Walk

variable {α : Type} [Key α] {next : α → List α} {walk before middle after : Walk α}

def Faithful (walk : Walk α) : Prop := ∀ vertex, vertex ∈ walk.seen ↔ vertex ∈ walk.discovered

/-- The walk went from one point to the other by visiting the starts depth first. -/
structure Traversed (next : α → List α) (before : Walk α) (starts : List α) (after : Walk α) :
    Prop where
  faithful : after.Faithful
  depthFirst : ∃ finished, after.finished = finished ++ before.finished ∧
    DepthFirst next starts before.discovered.reverse after.discovered.reverse finished

theorem Faithful.discover (faithful : walk.Faithful) (vertex : α) :
    (walk.discover vertex).Faithful := by
  intro other
  rw [mem_discover, faithful]
  exact List.mem_cons.symm

theorem Traversed.append {starts more : List α} (left : Traversed next before starts middle)
    (right : Traversed next middle more after) : Traversed next before (starts ++ more) after := by
  obtain ⟨first, isFirst, depthFirst⟩ := left.depthFirst
  obtain ⟨second, isSecond, later⟩ := right.depthFirst
  exact ⟨right.faithful, second ++ first, by simp [isFirst, isSecond], depthFirst.append later⟩

theorem Traversed.of_seen (faithful : walk.Faithful) {vertex : α} (seen : vertex ∈ walk.seen) :
    Traversed next walk [vertex] walk :=
  ⟨faithful, [], rfl, .skip (List.mem_reverse.mpr ((faithful vertex).mp seen)) .done⟩

theorem Traversed.of_successors (faithful : before.Faithful) {vertex : α}
    (unseen : vertex ∉ before.seen)
    (inside : Traversed next (before.discover vertex) (next vertex) middle) :
    Traversed next before [vertex] (middle.finish vertex) := by
  obtain ⟨finished, isFinished, depthFirst⟩ := inside.depthFirst
  rw [show (before.discover vertex).discovered.reverse = before.discovered.reverse ++ [vertex] from
    List.reverse_cons] at depthFirst
  refine ⟨inside.faithful, vertex :: finished, congrArg (vertex :: ·) isFinished, ?_⟩
  exact .visit (fun known => unseen ((faithful vertex).mpr (List.mem_reverse.mp known)))
    depthFirst .done

section Bound

variable {vertices : List α} {bound : Nat}
  (closed : ∀ vertex ∈ vertices, ∀ target ∈ next vertex, target ∈ vertices)
include closed

theorem foldl_visit_traversed (starts : List α)
    (each : ∀ walk : Walk α, ∀ vertex ∈ vertices, walk.unseen vertices ≤ bound →
      walk.Faithful → Traversed next walk [vertex] (visit next bound walk vertex))
    (inside : ∀ start ∈ starts, start ∈ vertices) (room : walk.unseen vertices ≤ bound)
    (faithful : walk.Faithful) :
    Traversed next walk starts (starts.foldl (visit next bound) walk) := by
  induction starts generalizing walk with
  | nil => exact ⟨faithful, [], rfl, .done⟩
  | cons start rest ih =>
      have isVertex := inside start List.mem_cons_self
      have first := each walk start isVertex room faithful
      obtain ⟨_, visited⟩ := visit_spec closed isVertex room
      exact first.append (ih (fun other member => inside other (List.mem_cons_of_mem start member))
        (Nat.le_trans visited.unseen_le room) first.faithful)

theorem visit_traversed {vertex : α} (inside : vertex ∈ vertices)
    (room : walk.unseen vertices ≤ bound) (faithful : walk.Faithful) :
    Traversed next walk [vertex] (visit next bound walk vertex) := by
  induction bound generalizing walk vertex with
  | zero =>
      have none : walk.unseen vertices = 0 := Nat.le_zero.mp room
      exact .of_seen faithful (by simpa using List.countP_eq_zero.mp none vertex inside)
  | succ bound ih =>
      unfold visit
      split
      · rename_i seen
        exact .of_seen faithful (Std.TreeSet.contains_iff_mem.mp seen)
      · rename_i unseen
        rw [Std.TreeSet.contains_iff_mem] at unseen
        have less := unseen_discover inside unseen
        exact .of_successors faithful unseen (foldl_visit_traversed closed (next vertex)
          (fun walk vertex inside room => ih inside room) (closed vertex inside) (by omega)
          (faithful.discover vertex))

end Bound

end Walk

end MemoGraph
