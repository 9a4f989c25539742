import MemoGraph.Proofs.Graph.Records
import MemoGraph.Proofs.Round.Invariants

namespace MemoGraph

theorem Node.writes_taken {κ ν φ : Type} [BEq ν] (node : Node κ ν φ) : Writes node node.taken := by
  unfold Node.taken
  cases found : node.takeUp? with
  | none => exact .refl node
  | some taken => exact writes_takeUp found

namespace Round

variable {κ ν φ : Type} [Key κ] [BEq ν] {registry : Registry κ ν φ}
  {round final before after : Round κ ν φ} {roots ready : List κ} {key : κ} {work : Work κ φ}
  {effect : Effect κ ν φ}

theorem Begun.writes (begun : Begun before roots after ready) :
    before.graph.Writes after.graph := by
  intro key
  rw [begun.nodes]
  split
  · exact Node.writes_taken _
  · exact .refl _

theorem Progress.writes (progress : Progress registry before key work effect)
    (found : (before.graph.nodeAt key).work = some work)
    (underway : (before.graph.nodeAt key).Underway) :
    (before.graph.nodeAt key).Writes effect.own := by
  cases progress with
  | await group dependencies phase =>
      refine Node.writes_updateWork fun same isWork _ => ?_
      rw [Option.some.inj (isWork.symm.trans found), phase]
      rfl
  | compare group dependencies phase =>
      refine Node.writes_updateWork fun same isWork _ => ?_
      rw [Option.some.inj (isWork.symm.trans found), phase]
      rfl
  | restart => exact Node.writes_updateWork fun _ _ checking => checking
  | revalidate group awaiting phase =>
      obtain ⟨result, memo⟩ := (underway work found).2 group awaiting phase
      have checking : work.phase.isChecking = true := by
        rw [phase]
        rfl
      have remembered : (before.graph.nodeAt key).memo.result? = some result := by
        rw [memo]
        rfl
      exact Node.writes_revalidate found checking remembered before.version
  | fail | refuse | finish => exact Node.writes_commit _ before.version _ _

theorem Moved.writes (moved : Moved before after key effect)
    (own : (before.graph.nodeAt key).Writes effect.own) : before.graph.Writes after.graph := by
  intro other
  by_cases same : other = key
  · subst same
    exact own.trans moved.self.writes
  · have alike := moved.others other same
    split at alike
    · exact (Node.writes_taken _).trans alike.writes
    · exact alike.writes

theorem Failed.writes {failures : List (Failure κ φ)} (failed : Failed before failures after) :
    before.graph.Writes after.graph := by
  intro key
  by_cases isFailed : key ∈ failures.map Failure.key
  · obtain ⟨failure, isFailure, rfl⟩ := List.mem_map.mp isFailed
    exact (Node.writes_commit _ before.version _ _).trans (failed.self failure isFailure).writes
  · exact (failed.others key isFailed).writes

theorem InOrder.writes_rollBack (inOrder : InOrder before ready) :
    before.graph.Writes before.rollBack.graph := by
  intro key
  rw [nodeAt_rollBack_of_waiting inOrder.waiting]
  exact Node.writes_rollBack _

/-- All that happens to a record in a round is written to it. -/
theorem InOrder.writes {base : Graph κ ν φ} {now : Round κ ν φ × List κ}
    (inOrder : InOrder round ready) (moves : Advances registry roots (round, ready) now)
    (start : base.Writes round.graph) : base.Writes now.1.graph :=
  inOrder.invariant moves
    (fun order _ found progress moved writes =>
      Graph.Writes.trans writes (moved.writes (progress.writes found (order.underway _))))
    (fun order writes => Graph.Writes.trans writes (failed_breakDeadlock order.waiting roots).writes)
    start

theorem Ends.writes {halt : Halt} (ends : Ends registry roots round final halt)
    (unique : roots.Nodup) (rested : Rested round.graph) : round.graph.Writes final.graph :=
  ends.invariant (fun now => round.graph.Writes now.graph) unique rested
    (fun begun writes => writes.trans begun.writes)
    (fun sound _ found progress moved writes =>
      writes.trans (moved.writes (progress.writes found (sound.underway _))))
    (fun sound writes => writes.trans (failed_breakDeadlock sound.waiting roots).writes)
    (fun sound writes => writes.trans sound.toInOrder.writes_rollBack) (.refl _)

end Round

end MemoGraph
