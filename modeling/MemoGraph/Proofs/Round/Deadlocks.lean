import MemoGraph.Proofs.Round.Breaking

namespace MemoGraph.Round

/-! A round never stalls.

When nothing is ready, every key that is worked on waits for another one, so
some are on cycles. Once these have failed, a key that is left can be stepped,
as the keys that are left would otherwise have a cycle of their own.
-/

variable {κ ν φ : Type} [Key κ] {round before after : Round κ ν φ} {ready : List κ} (roots : List κ)

theorem mem_stuck (waiting : Waiting round ready) {key : κ} :
    key ∈ round.stuck roots ↔ round.isEvaluating key = true := by
  unfold stuck
  rw [mem_distinct, List.mem_filter, List.mem_append]
  exact ⟨And.right, fun evaluating => ⟨.inr (waiting.started key evaluating), evaluating⟩⟩

theorem awaited_eq (key : κ) :
    round.awaited key = (round.batch key).filter round.isEvaluating := by
  unfold awaited batch
  rw [Graph.work_eq]
  cases (round.graph.nodeAt key).work <;> rfl

theorem mem_awaited {key dependency : κ} : dependency ∈ round.awaited key ↔
    dependency ∈ round.batch key ∧ round.isEvaluating dependency = true := by
  rw [awaited_eq, List.mem_filter]

theorem closed_waits (waiting : Waiting round ready) : (round.waits roots).Closed := by
  constructor
  case unique => exact nodup_distinct _
  case inside =>
    intro key _ dependency edge
    exact (mem_stuck roots waiting).mpr (mem_awaited.mp edge).2

/-- A key that is worked on but not ready waits for another such key. -/
theorem exists_awaited (waiting : Waiting round []) {key : κ}
    (evaluating : round.isEvaluating key = true) : ∃ dependency, dependency ∈ round.awaited key := by
  have waits : round.pending key ≠ 0 := fun nothing =>
    List.not_mem_nil ((waiting.mem_ready key).mpr ⟨evaluating, nothing⟩)
  rw [waiting.pending_eq key evaluating] at waits
  obtain ⟨dependency, inBatch, busy⟩ := List.countP_pos_iff.mp (Nat.pos_of_ne_zero waits)
  exact ⟨dependency, mem_awaited.mpr ⟨inBatch, busy⟩⟩

/-- Some key is on a cycle unless nothing is worked on. -/
theorem exists_onCycle (waiting : Waiting round []) {key : κ}
    (evaluating : round.isEvaluating key = true) :
    ∃ member, round.isEvaluating member = true ∧ (round.waits roots).OnCycle member := by
  have nonempty : round.stuck roots ≠ [] := List.ne_nil_of_mem ((mem_stuck roots waiting).mpr evaluating)
  have onward : ∀ other ∈ round.stuck roots,
      ∃ dependency ∈ round.awaited other, dependency ∈ round.stuck roots := by
    intro other isStuck
    obtain ⟨dependency, edge⟩ := exists_awaited waiting ((mem_stuck roots waiting).mp isStuck)
    exact ⟨dependency, edge, (mem_stuck roots waiting).mpr (mem_awaited.mp edge).2⟩
  obtain ⟨member, isStuck, cycle⟩ :=
    (round.waits roots).exists_onCycle nonempty onward
  exact ⟨member, (mem_stuck roots waiting).mp isStuck, cycle⟩

theorem cyclicComponents_ne_nil (waiting : Waiting round []) {key : κ}
    (evaluating : round.isEvaluating key = true) :
    (round.waits roots).cyclicComponents ≠ [] := by
  obtain ⟨member, busy, cycle⟩ := exists_onCycle roots waiting evaluating
  obtain ⟨component, listed, _⟩ := Digraph.exists_cyclicComponent (closed_waits roots waiting)
    ((mem_stuck roots waiting).mpr busy) cycle
  exact List.ne_nil_of_mem listed

/-- The keys that fail when deadlocks are broken. -/
def broken (round : Round κ ν φ) (roots : List κ) : List κ :=
  (round.waits roots).cyclicComponents.flatten

/-- What they fail with. -/
def cycleFailuresAt (round : Round κ ν φ) (roots : List κ) : List (Failure κ φ) :=
  (round.waits roots).cyclicComponents.flatMap (cycleFailures (round.waits roots))

theorem map_key_cycleFailuresAt (round : Round κ ν φ) (roots : List κ) :
    (round.cycleFailuresAt roots).map Failure.key = round.broken roots :=
  map_key_flatMap_cycleFailures ..

variable {roots} in
theorem exists_cycleFailureAt {key : κ} (broken : key ∈ round.broken roots) :
    ∃ path, (Failure.cycle key path : Failure κ φ) ∈ round.cycleFailuresAt roots := by
  obtain ⟨component, listed, member⟩ := List.mem_flatten.mp broken
  exact ⟨_, List.mem_flatMap.mpr ⟨component, listed, List.mem_map_of_mem member⟩⟩

theorem mem_broken (waiting : Waiting round ready) {key : κ} :
    key ∈ round.broken roots ↔
      round.isEvaluating key = true ∧ (round.waits roots).OnCycle key := by
  unfold broken
  rw [List.mem_flatten]
  constructor
  · rintro ⟨component, listed, member⟩
    obtain ⟨inside, cycle, _⟩ :=
      Digraph.mem_cyclicComponents (closed_waits roots waiting) listed member
    exact ⟨(mem_stuck roots waiting).mp inside, cycle⟩
  · rintro ⟨evaluating, cycle⟩
    exact Digraph.exists_cyclicComponent (closed_waits roots waiting)
      ((mem_stuck roots waiting).mpr evaluating) cycle

theorem mem_broken_congr {other : Round κ ν φ}
    (same : ∀ failure, failure ∈ round.cycleFailuresAt roots ↔ failure ∈ other.cycleFailuresAt roots)
    (key : κ) : key ∈ round.broken roots ↔ key ∈ other.broken roots := by
  rw [← map_key_cycleFailuresAt, ← map_key_cycleFailuresAt, List.mem_map, List.mem_map]
  simp only [same]

/-- What fails, and with what, depends only on who waits for whom. -/
theorem mem_cycleFailuresAt_of_awaited {other : Round κ ν φ} {otherReady : List κ}
    (waiting : Waiting round ready) (waitingOther : Waiting other otherReady)
    (evaluating : ∀ key, round.isEvaluating key = other.isEvaluating key)
    (awaited : ∀ key, round.awaited key = other.awaited key) {failure : Failure κ φ}
    (member : failure ∈ round.cycleFailuresAt roots) : failure ∈ other.cycleFailuresAt roots := by
  have next : (round.waits roots).next = (other.waits roots).next := funext awaited
  obtain ⟨component, listed, inComponent⟩ := List.mem_flatMap.mp member
  obtain ⟨key, isMember, rfl⟩ := List.mem_map.mp inComponent
  have inside : ∀ key, key ∈ (round.waits roots).vertices → key ∈ (other.waits roots).vertices := by
    intro key isVertex
    refine (mem_stuck roots waitingOther).mpr ?_
    rw [← evaluating]
    exact (mem_stuck roots waiting).mp isVertex
  obtain ⟨members, listedOther, isMemberOther, perm⟩ := Digraph.exists_perm_cyclicComponent
    (closed_waits roots waiting) (closed_waits roots waitingOther) next inside listed isMember
  refine List.mem_flatMap.mpr ⟨members, listedOther, List.mem_map.mpr ⟨key, isMemberOther, ?_⟩⟩
  rw [Digraph.shortestCycle_congr next perm]

theorem vertices_waits_of_idle (idle : ∀ key, round.isEvaluating key = false) :
    (round.waits roots).vertices = [] := by
  refine List.eq_nil_iff_forall_not_mem.mpr fun key member => ?_
  have evaluating := (List.mem_filter.mp (mem_distinct.mp member)).2
  rw [idle key] at evaluating
  cases evaluating

variable [BEq ν]

theorem breakDeadlock_of_idle (idle : ∀ key, round.isEvaluating key = false) :
    round.breakDeadlock roots = (round, []) := by
  unfold breakDeadlock
  simp only [vertices_waits_of_idle roots idle]
  rfl

/-- Breaking deadlocks comes to failing the components that wait in circles one by
one: the other ends, with nothing worked on or nothing that waits in a circle,
have no components or do not occur. -/
theorem breakDeadlock_eq (waiting : Waiting round []) {middle : Round κ ν φ} {waiters : List κ}
    (broken : (round.waits roots).cyclicComponents.foldl (breakComponent (round.waits roots))
      (round, []) = (middle, waiters)) :
    round.breakDeadlock roots = middle.wake waiters := by
  by_cases busy : ∃ key, round.isEvaluating key = true
  · obtain ⟨key, evaluating⟩ := busy
    obtain ⟨first, stuck, vertices⟩ :
        ∃ first stuck, (round.waits roots).vertices = first :: stuck :=
      List.exists_cons_of_ne_nil (List.ne_nil_of_mem ((mem_stuck roots waiting).mpr evaluating))
    obtain ⟨component, others, components⟩ := List.exists_cons_of_ne_nil
      (cyclicComponents_ne_nil roots waiting evaluating)
    rw [components] at broken
    unfold breakDeadlock
    simp only [vertices, components, broken]
  · have idle : ∀ key, round.isEvaluating key = false :=
      fun key => by simpa using fun taken => busy ⟨key, taken⟩
    rw [Digraph.cyclicComponents_of_empty (vertices_waits_of_idle roots idle)] at broken
    cases broken
    exact breakDeadlock_of_idle roots idle

/-- Exactly the keys on cycles fail, and then those who wait for them are woken. -/
theorem breakDeadlock_spec (waiting : Waiting round []) (roots : List κ) :
    ∃ middle, Abandoned round (round.cycleFailuresAt roots) middle
        ((round.broken roots).flatMap round.waiters) ∧
      round.breakDeadlock roots = middle.wake ((round.broken roots).flatMap round.waiters) := by
  obtain ⟨waiters, told, abandoned⟩ := foldl_breakComponent_spec
    (Digraph.nodup_cyclicComponents (closed_waits roots waiting))
    (fun key member => by
      have taken := ((mem_broken roots waiting).mp member).1
      rw [isEvaluating_eq] at taken
      exact Graph.mem_keys_of_work taken) []
  have same : waiters = (round.broken roots).flatMap round.waiters := by
    rw [← map_key_cycleFailuresAt]
    exact abandoned.waiters
  rw [List.nil_append, same] at told
  exact ⟨_, same ▸ abandoned, breakDeadlock_eq roots waiting (Prod.ext rfl told)⟩

theorem failed_breakDeadlock (waiting : Waiting round []) (roots : List κ) :
    Failed round (round.cycleFailuresAt roots) (round.breakDeadlock roots).1 := by
  obtain ⟨middle, abandoned, broken⟩ := breakDeadlock_spec waiting roots
  rw [broken]
  exact abandoned.toFailed.wake _

/-- What breaking deadlocks makes of a key: it fails in its cycle, or is left as it was. -/
inductive Unblocked (round : Round κ ν φ) (roots : List κ) (key : κ) : Prop
  | failed (path : List κ) (broken : key ∈ round.broken roots)
      (isFailure : .cycle key path ∈ round.cycleFailuresAt roots)
      (alike : ((round.breakDeadlock roots).1.graph.nodeAt key).Alike
        ((round.graph.nodeAt key).commit round.version (.error (.cycle key path))
          (round.graph.nodeAt key).leftover))
  | spared (whole : key ∉ round.broken roots)
      (alike : ((round.breakDeadlock roots).1.graph.nodeAt key).Alike (round.graph.nodeAt key))

theorem unblocked_breakDeadlock (waiting : Waiting round []) (roots : List κ) (key : κ) :
    Unblocked round roots key := by
  have failed := failed_breakDeadlock waiting roots
  by_cases broken : key ∈ round.broken roots
  · obtain ⟨path, isFailure⟩ := exists_cycleFailureAt broken
    exact .failed path broken isFailure (failed.self _ isFailure)
  · exact .spared broken (failed.others key (by rwa [map_key_cycleFailuresAt]))

variable {roots} in
theorem Unblocked.alike {key : κ} (unblocked : Unblocked round roots key)
    (whole : key ∉ round.broken roots) :
    ((round.breakDeadlock roots).1.graph.nodeAt key).Alike (round.graph.nodeAt key) := by
  cases unblocked with
  | failed _ broken => exact absurd broken whole
  | spared _ alike => exact alike

theorem settling_breakDeadlock (waiting : Waiting round []) (roots : List κ) :
    ∃ middle, Settling round middle (round.broken roots) ∧
      round.breakDeadlock roots = middle.wake ((round.broken roots).flatMap round.waiters) := by
  obtain ⟨middle, abandoned, broken⟩ := breakDeadlock_spec waiting roots
  refine ⟨middle, ?_, broken⟩
  rw [← map_key_cycleFailuresAt round roots]
  constructor
  case done =>
    intro key member
    obtain ⟨failure, isFailure, rfl⟩ := List.mem_map.mp member
    exact (abandoned.self failure isFailure).isSettled
  case work => exact abandoned.work
  case settled => exact fun other outside => (abandoned.others other outside).isSettled
  case started => exact abandoned.started

theorem Waiting.breakDeadlock (waiting : Waiting round []) (roots : List κ) :
    Waiting (round.breakDeadlock roots).1 (round.breakDeadlock roots).2 := by
  obtain ⟨middle, settling, broken⟩ := settling_breakDeadlock waiting roots
  rw [broken]
  exact waiting.settle (Digraph.nodup_cyclicComponents (closed_waits roots waiting))
    (fun key member => ((mem_broken roots waiting).mp member).1) settling

/-- Which keys are worked on after deadlocks were broken. -/
theorem isEvaluating_breakDeadlock (waiting : Waiting round []) (roots : List κ) (key : κ) :
    (round.breakDeadlock roots).1.isEvaluating key =
      (round.isEvaluating key && !decide (key ∈ round.broken roots)) := by
  obtain ⟨middle, settling, broken⟩ := settling_breakDeadlock waiting roots
  rw [broken, (wake_view _ key).evaluating, settling.evaluating]

theorem awaited_breakDeadlock (waiting : Waiting round []) {roots : List κ} {key dependency : κ}
    (edge : dependency ∈ (round.breakDeadlock roots).1.awaited key) :
    dependency ∈ round.awaited key := by
  obtain ⟨inBatch, busy⟩ := mem_awaited.mp edge
  rw [isEvaluating_breakDeadlock waiting, Bool.and_eq_true] at busy
  refine mem_awaited.mpr ⟨?_, busy.1⟩
  obtain ⟨middle, settling, broken⟩ := settling_breakDeadlock waiting roots
  rw [broken, (wake_view _ key).batch] at inBatch
  by_cases isBroken : key ∈ round.broken roots
  · have free : middle.isEvaluating key = false := by
      rw [settling.evaluating]
      simp [isBroken]
    rw [batch_of_not_evaluating free] at inBatch
    cases inBatch
  · rwa [settling.batch_eq isBroken] at inBatch

/-- If breaking deadlocks makes no key ready, then nothing is worked on any more. -/
theorem isEvaluating_of_breakDeadlock_nil (waiting : Waiting round []) {roots : List κ}
    (finished : (round.breakDeadlock roots).2 = []) (key : κ) :
    (round.breakDeadlock roots).1.isEvaluating key = false := by
  have afterwards := waiting.breakDeadlock roots
  rw [finished] at afterwards
  by_contra taken
  rw [Bool.not_eq_false] at taken
  obtain ⟨member, busy, cycle⟩ := exists_onCycle roots afterwards taken
  rw [isEvaluating_breakDeadlock waiting, Bool.and_eq_true] at busy
  have circle : (round.waits roots).OnCycle member :=
    Relation.TransGen.mono (fun _ _ edge => awaited_breakDeadlock waiting edge) _ _ cycle
  have isBroken := (mem_broken roots waiting).mpr ⟨busy.1, circle⟩
  simp [isBroken] at busy

end MemoGraph.Round
