import Mathlib.Data.List.Nodup
import MemoGraph.Proofs.Groups
import MemoGraph.Proofs.Round.Stepping

namespace MemoGraph

namespace Round

variable {κ ν φ : Type} [Key κ] {round : Round κ ν φ} {key : κ} {ready : List κ}

theorem SameWaiting.of_graph {before after : Round κ ν φ} (graph : after.graph = before.graph)
    (started : after.started = before.started) : SameWaiting before after := by
  obtain ⟨⟩ := before
  obtain ⟨⟩ := after
  cases graph
  exact ⟨fun _ => rfl, fun _ => rfl, fun _ => rfl, fun _ => rfl, fun _ => rfl, started⟩

theorem updateWork_view (key : κ) (change : Work κ φ → Work κ φ)
    (pending : ∀ work, (change work).pending = work.pending)
    (waiters : ∀ work, (change work).waiters = work.waiters) (other : κ) :
    Stands (round.updateWork key change) other (round.isEvaluating other) (round.isSettled other)
      (round.pending other)
      (if other = key
        then ((round.graph.nodeAt key).work.map fun work => (change work).batch).getD []
        else round.batch other)
      (round.waiters other) := by
  have node : (round.updateWork key change).graph.nodeAt other =
      if other = key then (round.graph.nodeAt key).updateWork change
      else round.graph.nodeAt other := Graph.nodeAt_updateWork ..
  rw [stands_iff, isEvaluating_eq, isEvaluating_eq]
  simp only [isSettled, Round.pending, Round.batch, Round.waiters, node]
  by_cases same : other = key
  · subst same
    cases found : (round.graph.nodeAt other).work <;> simp [found, pending, waiters]
  · simp [same]

theorem SameWaiting.updateWork (key : κ) (change : Work κ φ → Work κ φ)
    (pending : ∀ work, (change work).pending = work.pending)
    (batch : ∀ work, (change work).batch = work.batch)
    (waiters : ∀ work, (change work).waiters = work.waiters) :
    SameWaiting round (round.updateWork key change) := by
  have view := round.updateWork_view key change pending waiters
  constructor
  case evaluating => exact fun other => (view other).evaluating
  case idle => exact fun other => (view other).idle.trans (isIdle_eq other).symm
  case pending => exact fun other => (view other).pending
  case batch =>
    intro other
    rw [(view other).batch]
    split
    · rename_i same
      simp only [batch, same]
      rfl
    · rfl
  case waiters => exact fun other => (view other).waiters
  case started => rfl

/-- A ready key may get a result, if everyone who waits for it is woken. -/
theorem Waiting.settle_one (waiting : Waiting round ready) (member : key ∈ ready)
    {middle : Round κ ν φ} (settling : Settling round middle [key]) :
    Waiting (middle.wake (round.waiters key)).1
      (ready.erase key ++ (middle.wake (round.waiters key)).2) := by
  have settled := waiting.settle (List.nodup_singleton key)
    (by simpa using ((waiting.mem_ready key).mp member).1) settling
  have others : (ready.filter fun other => decide (other ∉ [key])) = ready.erase key := by
    rw [waiting.ready_nodup.erase_eq_filter]
    refine List.filter_congr fun other _ => ?_
    rw [Bool.eq_iff_iff]
    simp
  rw [others] at settled
  simpa only [List.flatMap_cons, List.flatMap_nil, List.append_nil] using settled

section Record

variable [BEq ν] {result : Result κ ν φ} {dependencies : Grouping κ} {after : Round κ ν φ}
  {listed : List κ}

theorem Recorded.settling (recorded : Recorded round key result dependencies after listed) :
    Settling round after [key] := by
  constructor
  case done =>
    intro other member
    rw [List.mem_singleton.mp member]
    unfold isSettled
    rw [recorded.nodes, if_pos rfl]
    rfl
  case work =>
    intro other outside
    rw [List.mem_singleton] at outside
    rw [recorded.nodes, if_neg outside]
    rfl
  case settled =>
    intro other outside
    rw [List.mem_singleton] at outside
    unfold isSettled
    rw [recorded.nodes, if_neg outside]
    rfl
  case started => exact recorded.started

theorem Waiting.commit (waiting : Waiting round ready) (member : key ∈ ready)
    (result : Result κ ν φ) (dependencies : Grouping κ) (events : List (Event κ)) :
    Waiting (round.commit key result dependencies events).1
      (ready.erase key ++ (round.commit key result dependencies events).2) := by
  have taken := ((waiting.mem_ready key).mp member).1
  have known : key ∈ round.graph.keys :=
    Graph.mem_keys_of_work (by rw [← isEvaluating_eq]; exact taken)
  have recorded := round.record_spec known result dependencies events
  have settled := waiting.settle_one member recorded.settling
  rw [← recorded.waiters] at settled
  exact settled

end Record

theorem Waiting.revalidate (waiting : Waiting round ready) (member : key ∈ ready)
    (remembers : (round.graph.nodeAt key).memo.result?.isSome = true) :
    Waiting (round.revalidate key).1 (ready.erase key ++ (round.revalidate key).2) := by
  have taken := ((waiting.mem_ready key).mp member).1
  have known : key ∈ round.graph.keys :=
    Graph.mem_keys_of_work (by rw [← isEvaluating_eq]; exact taken)
  obtain ⟨middle, woken, graph, started, _⟩ := round.revalidate_spec key
  have node : ∀ other, middle.graph.nodeAt other =
      if other = key then (round.graph.nodeAt key).revalidate round.version
      else round.graph.nodeAt other := by
    intro other
    rw [graph, Graph.nodeAt_update known]
  rw [woken]
  refine waiting.settle_one member ⟨?_, ?_, ?_, started⟩
  · intro other isKey
    obtain ⟨result, found⟩ := Option.isSome_iff_exists.mp remembers
    rw [List.mem_singleton.mp isKey]
    unfold isSettled
    rw [node, if_pos rfl, Node.isSettled_iff]
    exact ⟨rfl, result, by simp [Node.revalidate, found]⟩
  · intro other outside
    rw [node, if_neg (by simpa using outside)]
  · intro other outside
    unfold isSettled
    rw [node, if_neg (by simpa using outside)]

theorem Waiting.clearBatch (waiting : Waiting round ready) (member : key ∈ ready) (phase : Phase) :
    Waiting (round.updateWork key fun work => { work with batch := [], phase }) ready := by
  have nothing := ((waiting.mem_ready key).mp member).2
  have view := round.updateWork_view key (fun work => { work with batch := [], phase })
    (fun _ => rfl) (fun _ => rfl)
  have started : (round.updateWork key fun work =>
    { work with batch := [], phase }).started = round.started := rfl
  generalize (round.updateWork key fun work => { work with batch := [], phase }) = after at *
  have evaluating : after.isEvaluating = round.isEvaluating := funext fun other => (view other).evaluating
  have batch : ∀ other, after.batch other = if other = key then [] else round.batch other := by
    intro other
    rw [(view other).batch]
    cases (round.graph.nodeAt key).work <;> rfl
  constructor
  case ready_nodup => exact waiting.ready_nodup
  case mem_ready =>
    intro other
    rw [waiting.mem_ready, evaluating, (view other).pending]
  case started =>
    intro other busy
    rw [started]
    exact waiting.started other (evaluating ▸ busy)
  case batch_nodup =>
    intro other
    rw [batch]
    split
    · exact List.nodup_nil
    · exact waiting.batch_nodup other
  case batch_busy =>
    intro other dependency inBatch
    rw [batch] at inBatch
    rw [(view dependency).idle, ← isIdle_eq]
    split at inBatch
    · cases inBatch
    · exact waiting.batch_busy other dependency inBatch
  case waiters_busy =>
    intro other waiter isWaiter
    rw [(view other).waiters] at isWaiter
    rw [(view waiter).idle, ← isIdle_eq]
    exact waiting.waiters_busy other waiter isWaiter
  case pending_eq =>
    intro other busy
    rw [(view other).pending, batch, evaluating]
    split
    · rename_i same
      rw [same, nothing]
      rfl
    · exact waiting.pending_eq other (evaluating ▸ busy)
  case listed =>
    intro other dependency busy unfinished
    rw [(view dependency).waiters, batch]
    rw [evaluating] at busy unfinished
    split
    · rename_i same
      rw [same, waiting.not_listed member unfinished]
      rfl
    · exact waiting.listed other dependency busy unfinished

variable [BEq ν] (registry : Registry κ ν φ)

theorem Waiting.step (waiting : Waiting round ready) (member : key ∈ ready)
    (checked : ∀ work group awaiting, (round.graph.nodeAt key).work = some work →
      work.phase = .checking group awaiting →
        (round.graph.nodeAt key).memo.result?.isSome = true) :
    Waiting (round.step registry key).1 (ready.erase key ++ (round.step registry key).2) := by
  obtain ⟨work, found, free⟩ := waiting.exists_work member
  have stepped := stepping registry found free
  generalize round.step registry key = after at stepped ⊢
  cases stepped with
  | await group dependencies phase recorded =>
      let opened := round.updateWork key fun work => { work with phase := .checking group true }
      have openedTaken : (opened.graph.nodeAt key).work.isSome = true := by
        show ((round.graph.updateWork key _).nodeAt key).work.isSome = true
        simp [Graph.nodeAt_updateWork, found]
      have same : SameWaiting round opened :=
        .updateWork key _ (fun _ => rfl) (fun _ => rfl) (fun _ => rfl)
      have unique := Grouping.nodup_of_group? recorded
      exact (waiting.congr same).await member unique (opened.await_spec unique openedTaken)
  | compare group dependencies phase recorded =>
      obtain ⟨graph, started, _, again⟩ := round.compare_spec key group dependencies
        (round.graph.nodeAt key).lastEvaluated
      rw [again]
      refine ((waiting.clearBatch member _).congr (.of_graph graph started)).perm ?_
      exact (List.perm_cons_erase member).trans (List.perm_append_singleton key _).symm
  | revalidate group awaiting phase finished =>
      exact waiting.revalidate member (checked work group awaiting found phase)
  | fail dependency cause phase unhandled => exact waiting.commit member ..
  | refuse phase handled absent => exact waiting.commit member ..
  | finish function attempt outcome result dependencies events phase handled registered run
      verdict =>
      have same : SameWaiting round (round.ran key work.attempts attempt) := .of_graph rfl rfl
      exact (waiting.congr same).commit member ..
  | restart function attempt outcome phase handled registered run verdict =>
      let opened := ((round.ran key work.attempts attempt).tell
        (.restart key attempt.missing)).updateWork key fun work =>
          { work with
            requested := attempt.requested
            handlers := attempt.handlers
            attempts := work.attempts + 1 }
      have openedTaken : (opened.graph.nodeAt key).work.isSome = true := by
        show ((round.graph.updateWork key _).nodeAt key).work.isSome = true
        simp [Graph.nodeAt_updateWork, found]
      have same : SameWaiting ((round.ran key work.attempts attempt).tell
          (.restart key attempt.missing)) opened :=
        .updateWork key _ (fun _ => rfl) (fun _ => rfl) (fun _ => rfl)
      have told : SameWaiting round ((round.ran key work.attempts attempt).tell
        (.restart key attempt.missing)) := .of_graph rfl rfl
      have unique : attempt.missing.Nodup := (Attempt.faithful_of_run run).unique
      exact ((waiting.congr told).congr same).await member unique (opened.await_spec unique openedTaken)

end Round

end MemoGraph
