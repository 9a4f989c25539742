import MemoGraph.Proofs.Round.Schedules

namespace MemoGraph.Round

variable {κ ν φ : Type} [Key κ] {round before after : Round κ ν φ} {roots ready : List κ}

theorem nodeAt_rollBack (key : κ) :
    round.rollBack.graph.nodeAt key =
      if key ∈ round.started.toList then (round.graph.nodeAt key).rollBack
      else round.graph.nodeAt key := by
  unfold rollBack
  simp only [← Array.foldl_toList]
  generalize round.started.toList = started
  generalize round.graph = graph
  induction started generalizing graph with
  | nil => rfl
  | cons first rest ih =>
      rw [List.foldl_cons, ih, Graph.nodeAt_update_of_blank rfl]
      by_cases same : key = first
      · simp [same, Node.rollBack]
      · simp [same]

theorem mem_keys_rollBack {key : κ} :
    key ∈ round.rollBack.graph.keys ↔ key ∈ round.graph.keys := by
  unfold rollBack
  simp only [← Array.foldl_toList]
  generalize round.started.toList = started
  generalize round.graph = graph
  induction started generalizing graph with
  | nil => rfl
  | cons first rest ih => rw [List.foldl_cons, ih, Graph.mem_keys_update]

/-- Rolling back throws all unfinished work away, and nothing else. -/
theorem nodeAt_rollBack_of_waiting (waiting : Waiting round ready) (key : κ) :
    round.rollBack.graph.nodeAt key = (round.graph.nodeAt key).rollBack := by
  rw [nodeAt_rollBack]
  split
  · rfl
  · rename_i outside
    cases evaluating : round.isEvaluating key with
    | true => exact absurd (waiting.started key evaluating) outside
    | false =>
        unfold Node.rollBack
        rw [← work_of_not_evaluating evaluating]

theorem rested_of_not_evaluating (idle : ∀ key, round.isEvaluating key = false) :
    Rested round.graph := fun key => work_of_not_evaluating (idle key)

section Busy

variable [BEq ν] {registry : Registry κ ν φ}

/-- Whatever a round works on or has a result for stays that way. -/
theorem Progress.busy {key : κ} {work : Work κ φ} {effect : Effect κ ν φ}
    (progress : Progress registry round key work effect)
    (found : (round.graph.nodeAt key).work = some work)
    (underway : (round.graph.nodeAt key).Underway) : effect.own.isIdle = false := by
  cases progress with
  | await | compare | restart =>
      exact Node.not_idle_of_work (by simp [found])
  | revalidate group awaiting phase finished =>
      obtain ⟨result, memo⟩ := (underway work found).2 group awaiting phase
      refine Node.not_idle_of_settled (Node.isSettled_iff.mpr ⟨rfl, result, ?_⟩)
      simp [Node.revalidate, memo, Memo.result?]
  | _ => exact Node.not_idle_of_settled rfl

omit [BEq ν] in
theorem Moved.busy {key other : κ} {effect : Effect κ ν φ}
    (moved : Moved before after key effect) (own : effect.own.isIdle = false)
    (busy : before.isIdle other = false) : after.isIdle other = false := by
  unfold isIdle at busy ⊢
  by_cases same : other = key
  · subst same
    rw [moved.self.isIdle]
    exact own
  · rw [(moved.others other same).isIdle]
    split
    · rw [Node.taken_of_not_idle busy]
      exact busy
    · exact busy

omit [BEq ν] in
theorem Moved.busy_of_asked {key other : κ} {effect : Effect κ ν φ}
    (moved : Moved before after key effect) (own : effect.own.isIdle = false)
    (asked : other ∈ effect.asked) : after.isIdle other = false := by
  unfold isIdle
  by_cases same : other = key
  · rw [same, moved.self.isIdle, own]
  · rw [(moved.others other same).isIdle, if_pos asked, Node.not_idle_taken]

theorem Failed.busy {failures : List (Failure κ φ)} (failed : Failed before failures after)
    {other : κ} (busy : before.isIdle other = false) : after.isIdle other = false := by
  unfold isIdle at busy ⊢
  by_cases member : other ∈ failures.map Failure.key
  · obtain ⟨failure, isFailure, rfl⟩ := List.mem_map.mp member
    rw [(failed.self failure isFailure).isIdle]
    exact Node.not_idle_of_settled rfl
  · rw [(failed.others other member).isIdle]
    exact busy

theorem InOrder.moved (inOrder : InOrder round ready) {key : κ} (member : key ∈ ready)
    (registry : Registry κ ν φ) :
    ∃ work effect, (round.graph.nodeAt key).work = some work ∧ work.pending = 0 ∧
      Progress registry round key work effect ∧
      Moved round (round.step registry key).1 key effect := by
  obtain ⟨work, found, free⟩ := inOrder.waiting.exists_work member
  obtain ⟨effect, progress, moved⟩ := step_moved registry found free
  exact ⟨work, effect, found, free, progress, moved⟩

/-- What every step keeps, and every break of deadlocks, holds to the end. -/
theorem InOrder.invariant {holds : Round κ ν φ → Prop} {now : Round κ ν φ × List κ}
    (inOrder : InOrder round ready) (moves : Advances registry roots (round, ready) now)
    (step : ∀ {before after : Round κ ν φ} {ready : List κ} {key : κ} {work : Work κ φ}
      {effect : Effect κ ν φ}, InOrder before ready → key ∈ ready →
        (before.graph.nodeAt key).work = some work → Progress registry before key work effect →
          Moved before after key effect → holds before → holds after)
    (unblock : ∀ {before : Round κ ν φ}, InOrder before [] → holds before →
      holds (before.breakDeadlock roots).1)
    (start : holds round) : holds now.1 := by
  induction moves with
  | refl => exact start
  | tail earlier move ih =>
      have order := inOrder.advances earlier
      cases move with
      | step going chosen _ =>
          have member := chosen.mem_iff.mpr List.mem_cons_self
          obtain ⟨work, effect, found, _, progress, moved⟩ := order.moved member registry
          exact step order member found progress moved ih
      | unblock => exact unblock order ih

theorem InOrder.busy {now : Round κ ν φ × List κ} (inOrder : InOrder round ready)
    (moves : Advances registry roots (round, ready) now) {key : κ}
    (busy : round.isIdle key = false) : now.1.isIdle key = false :=
  inOrder.invariant moves
    (fun order _ found progress moved => moved.busy (progress.busy found (order.underway _)))
    (fun order => (failed_breakDeadlock order.waiting roots).busy) busy

end Busy

section Ends

variable [BEq ν] {registry : Registry κ ν φ} {last final : Round κ ν φ} {halt : Halt}

/-- A round that is not cut short works on nothing any more, and its roots have
results. -/
theorem Ends.settled (ends : Ends registry roots round final .complete) (unique : roots.Nodup)
    (rested : Rested round.graph) :
    (∀ key, final.isEvaluating key = false) ∧ ∀ root ∈ roots, final.isSettled root = true := by
  have begun := round.begin_spec unique
  have busy : ∀ root ∈ roots, (round.begin roots).1.isIdle root = false := by
    intro root isRoot
    unfold isIdle
    rw [begun.nodes, if_pos isRoot, Node.not_idle_taken]
  suffices all : (∀ key, final.isEvaluating key = false) ∧
      ∀ root ∈ roots, final.isIdle root = false by
    refine ⟨all.1, fun root isRoot => ?_⟩
    have notIdle := all.2 root isRoot
    rw [isIdle_eq, all.1 root] at notIdle
    simpa using notIdle
  cases ends with
  | cached nothing =>
      refine ⟨fun key => ?_, busy⟩
      rw [nothing] at begun
      rw [← Bool.not_eq_true, ← begun.mem_ready rested]
      exact List.not_mem_nil
  | complete order moves going finished =>
      have start := InOrder.begin unique rested order
      have inOrder := start.advances moves
      exact ⟨isEvaluating_of_breakDeadlock_nil inOrder.waiting finished, fun root isRoot =>
        (failed_breakDeadlock inOrder.waiting roots).busy (start.busy moves (busy root isRoot))⟩
  | cut _ _ short => exact absurd rfl short

theorem Ends.rested (ends : Ends registry roots round final halt) (unique : roots.Nodup)
    (rested : Rested round.graph) : Rested final.graph := by
  by_cases complete : halt = .complete
  · subst complete
    exact rested_of_not_evaluating (ends.settled unique rested).1
  · cases ends with
    | cached => exact absurd rfl complete
    | complete => exact absurd rfl complete
    | cut order moves _ =>
        have inOrder := (InOrder.begin unique rested order).advances moves
        intro key
        rw [nodeAt_rollBack_of_waiting inOrder.waiting]
        rfl

theorem Ends.version (ends : Ends registry roots round final halt) (unique : roots.Nodup)
    (rested : Rested round.graph) : final.version = round.version := by
  have begun := (round.begin_spec unique).context.version
  have moved : ∀ {ready left : List κ} {last : Round κ ν φ}, ready.Perm (round.begin roots).2 →
      Advances registry roots ((round.begin roots).1, ready) (last, left) →
        last.version = round.version := by
    intro ready left last order moves
    have start := InOrder.begin unique rested order
    exact start.invariant moves (fun _ _ _ _ moved => moved.version.trans)
      (fun order => (failed_breakDeadlock order.waiting roots).version.trans) begun
  cases ends with
  | cached nothing => exact begun
  | complete order moves going finished =>
      have inOrder := (InOrder.begin unique rested order).advances moves
      exact (failed_breakDeadlock inOrder.waiting roots).version.trans (moved order moves)
  | cut order moves short =>
      have same := moved order moves
      exact same

end Ends

end MemoGraph.Round
