import MemoGraph.Proofs.Evaluator.Commits
import MemoGraph.Proofs.Evaluator.Explanations
import MemoGraph.Proofs.Round.Cycles
import MemoGraph.Proofs.Round.Places

namespace MemoGraph.Evaluator

variable {κ ν φ : Type} [Key κ] [BEq ν] {evaluator after : Evaluator κ ν φ}
  {registry : Registry κ ν φ} {roots : List κ} {moves : List (Move κ ν φ)} {final : Round κ ν φ}

/-- What is done rests on nothing that failed because of a cycle. -/
theorem Reachable.not_isCycle_of_done (reachable : Reachable evaluator) {key dependency : κ}
    {failure : Failure κ φ} (done : evaluator.graph.state? key = some .done)
    (needed : dependency ∈ (evaluator.graph.nodeAt key).dependencies)
    (failed : evaluator.graph.failure? dependency = some failure) : failure.isCycle = false := by
  obtain ⟨value, found⟩ := Graph.result?_of_done done
  rw [Graph.result?_eq] at found
  obtain ⟨commits, follows⟩ := reachable.follows
  obtain ⟨_, backed⟩ := follows.grounded.settled key _ found rfl
  obtain ⟨given, ran⟩ := backed value rfl
  cases noted : commits key with
  | none =>
      rw [(given noted).2] at needed
      exact absurd needed (Grouping.not_mem_empty dependency)
  | some attempt =>
      have accepted := (ran attempt noted).2 dependency needed failure
        (Graph.failure?_eq_some_iff.mp failed)
      obtain ⟨_, _, passes⟩ := List.any_eq_true.mp accepted
      obtain ⟨error, raised, _⟩ := (Option.any_eq_true _ _).mp (Bool.and_eq_true _ _ ▸ passes).2
      exact Failure.not_cycle_of_error? raised

/-- An evaluation that is not cut short takes some course, and every course is one
that it can take. -/
theorem evaluates_iff_completes {results : Results κ ν φ} :
    Evaluates registry evaluator roots after (.ok results) ↔
      ∃ moves final, Round.Completes registry (distinct roots) (evaluator.opening roots) moves final ∧
        after = evaluator.retryTransient.closeRound final .complete ∧
        results = ⟨(distinct roots).map fun root => (root, resultOf final.graph root)⟩ := by
  constructor
  · intro evaluates
    obtain ⟨final, ends, rfl, rfl⟩ := evaluates.complete
    obtain ⟨moves, completes⟩ := ends.completes
    exact ⟨moves, final, completes, rfl, rfl⟩
  · rintro ⟨moves, final, completes, rfl, rfl⟩
    exact .intro completes.ends

section Completes

variable (reachable : Reachable evaluator)
  (completes : Round.Completes registry (distinct roots) (evaluator.opening roots) moves final)
include reachable completes

theorem Reachable.reported :
    Round.Reported (distinct roots) (evaluator.opening roots).graph moves final ∧
      Round.Pursued moves final :=
  completes.reported (nodup_distinct roots) (reachable.tidy.rested_opening roots)
    (reachable.firm.retryTransient reachable.tidy)
    (reachable.explained.retryTransient reachable.tidy reachable.firm)

omit completes in
theorem Reachable.before_unblock {earlier later : List (Move κ ν φ)} {moment : Round κ ν φ}
    (completes : Round.Completes registry (distinct roots) (evaluator.opening roots)
      (earlier ++ .unblock moment :: later) final) :
    Round.Sound registry moment [] ∧ Round.Broken (distinct roots) earlier moment ∧
      (evaluator.opening roots).graph.Extends moment.graph := by
  have rested := reachable.tidy.rested_opening roots
  obtain ⟨ready, order, course⟩ := completes.before_unblock
  obtain ⟨sound, _, broken⟩ := course.retains (.begin (nodup_distinct roots) rested order)
  have begun := (evaluator.opening roots).begin_spec (nodup_distinct roots)
  exact ⟨sound, broken, (Round.InOrder.begin (nodup_distinct roots) rested order).extends
    course.advances begun.extends⟩

/-- In the end everything that was ever worked on has a result. -/
theorem Reachable.settled_of_pursued {moment : Round κ ν φ} (isMove : .unblock moment ∈ moves)
    {key : κ} (evaluating : moment.isEvaluating key = true) :
    final.graph.state? key = some .done ∨ final.graph.state? key = some .error := by
  have rested := reachable.tidy.rested_opening roots
  have busy := (reachable.reported completes).2 moment isMove key evaluating
  rw [Round.isIdle_eq, (completes.ends.settled (nodup_distinct roots) rested).1 key] at busy
  have settled : final.isSettled key = true := by simpa using busy
  exact Graph.isSettled_iff.mp settled

/-- A key that failed in a cycle, but was not in one when deadlocks were broken
before, got into one later. -/
theorem Reachable.later_circle {earlier later : List (Move κ ν φ)} {moment : Round κ ν φ}
    (isMoves : moves = earlier ++ .unblock moment :: later) {key owner : κ} {path : List κ}
    (evaluating : moment.isEvaluating key = true) (outside : ¬ moment.InCircle key)
    (failed : final.graph.failure? key = some (.cycle owner path)) :
    ∃ next, .unblock next ∈ later ∧ next.isEvaluating key = true ∧ next.InCircle key := by
  subst isMoves
  obtain ⟨sound, broken, extended⟩ := reachable.before_unblock completes
  have unsettled : moment.isSettled key = false := by
    rw [Round.isEvaluating_eq] at evaluating
    exact Node.not_settled_of_work evaluating
  have new : (evaluator.opening roots).graph.result? key = none := by
    cases found : (evaluator.opening roots).graph.result? key with
    | none => rfl
    | some result =>
        rw [Graph.result?_eq] at found
        have settled := Node.isSettled_of_result? found
        rw [Round.isSettled, (extended key settled).isSettled, settled] at unsettled
        cases unsettled
  obtain ⟨_, _, next, isMove, ⟨busy, circular⟩, _, report⟩ := (reachable.reported completes).1 key
    owner path new (Graph.failure?_eq_some_iff.mp failed)
  rcases List.mem_append.mp isMove with old | isMoment | ⟨_, isLater⟩
  · -- What failed in an earlier break has a result now.
    have free : (next.breakDeadlock (distinct roots)).1.isEvaluating key = false := by
      rw [Round.isEvaluating_eq]
      exact (Node.isSettled_iff.mp (Node.isSettled_of_result? report)).1 ▸ rfl
    rw [broken next old key busy free] at unsettled
    cases unsettled
  · exact absurd circular outside
  · exact ⟨next, isLater, busy, circular⟩

end Completes

/-- Take any course of an evaluation that is not cut short, after any history.
When a key that had no result fails in a cycle, then a break of deadlocks has
made it fail, and what it reports was a shortest circle of waiting keys at that
time, starts with the key and passes nothing twice. In the end each key on it
has recorded the next, and each has failed in a cycle of its own. Whenever
nothing can be stepped, exactly the keys that wait for themselves fail in
cycles, whether they are searched by keys or in arrays. Any other key is still
worked on, and if in the end one of its recorded dependencies has failed because
of a cycle, it has failed, too, but in a cycle only if it came to wait for itself
later. -/
theorem cycles_are_reported (reachable : Reachable evaluator) (registry : Registry κ ν φ)
    (roots : List κ) :
    (∀ after results, Evaluates registry evaluator roots after (.ok results) ↔
      ∃ moves final,
        Round.Completes registry (distinct roots) (evaluator.opening roots) moves final ∧
        after = evaluator.retryTransient.closeRound final .complete ∧
        results = ⟨(distinct roots).map fun root => (root, resultOf final.graph root)⟩) ∧
    ∀ moves final,
      Round.Completes registry (distinct roots) (evaluator.opening roots) moves final →
    (∀ key owner path, (evaluator.opening roots).graph.result? key = none →
      final.graph.failure? key = some (.cycle owner path) →
        owner = key ∧ path.head? = some key ∧ path.Nodup ∧
        Circle (fun user dependency => dependency ∈ final.graph.dependencies user) path ∧
        (∀ member ∈ path, final.graph.state? member = some .error ∧
          ∃ others, final.graph.failure? member = some (.cycle member others)) ∧
        ∃ moment, .unblock moment ∈ moves ∧ moment.isEvaluating key = true ∧
          ShortestCircle moment.WaitsFor key path ∧
          (moment.breakDeadlock (distinct roots)).1.graph.failure? key = some (.cycle key path)) ∧
    (∀ moment, .unblock moment ∈ moves →
      moment.breakDeadlock? (distinct roots) = some (moment.breakDeadlock (distinct roots)) ∧
      ∀ key, moment.isEvaluating key = true →
        (moment.InCircle key → ∃ path,
          (moment.breakDeadlock (distinct roots)).1.graph.failure? key = some (.cycle key path)) ∧
        (¬ moment.InCircle key →
          (moment.breakDeadlock (distinct roots)).1.isEvaluating key = true)) ∧
    ∀ earlier moment later, moves = earlier ++ .unblock moment :: later →
      ∀ key, moment.isEvaluating key = true → ¬ moment.InCircle key →
        (∀ dependency ∈ final.graph.dependencies key, ∀ failure,
          final.graph.failure? dependency = some failure → failure.isCycle = true →
            final.graph.state? key = some .error) ∧
        ∀ owner path, final.graph.failure? key = some (.cycle owner path) →
          ∃ next, .unblock next ∈ later ∧ next.isEvaluating key = true ∧ next.InCircle key := by
  refine ⟨fun after results => evaluates_iff_completes, fun moves final completes =>
    ⟨fun key owner path new failed => ?real, fun moment isMove => ?broken,
      fun earlier moment later isMoves key evaluating outside => ⟨?fails, fun owner path failed =>
        reachable.later_circle completes isMoves evaluating outside failed⟩⟩⟩
  case real =>
    obtain ⟨rfl, circular, moment, isMove, ⟨evaluating, _⟩, shortest, report⟩ :=
      (reachable.reported completes).1 key owner path new (Graph.failure?_eq_some_iff.mp failed)
    have circle := circular.circle
    simp only [← Graph.dependencies_eq] at circle
    refine ⟨rfl, shortest.first, shortest.unique, circle, fun member isPassed => ?_, moment, isMove,
      evaluating, shortest, Graph.failure?_eq_some_iff.mpr report⟩
    obtain ⟨others, found⟩ := circular.failed member isPassed
    have isFailure := Graph.failure?_eq_some_iff.mpr found
    exact ⟨Graph.state?_of_failure? isFailure, others, isFailure⟩
  case broken =>
    obtain ⟨earlier, later, rfl⟩ := List.append_of_mem isMove
    obtain ⟨sound, _⟩ := reachable.before_unblock completes
    refine ⟨Round.breakDeadlock?_eq sound.waiting (distinct roots), fun key evaluating => ?_⟩
    have broken_iff : key ∈ moment.broken (distinct roots) ↔ _ := Round.mem_broken_iff sound.waiting
    refine ⟨fun circular => ?_, fun outside => ?_⟩
    · obtain ⟨path, isFailure⟩ := Round.exists_cycleFailureAt (broken_iff.mpr ⟨evaluating, circular⟩)
      have failed := (Round.failed_breakDeadlock sound.waiting (distinct roots)).self _ isFailure
      exact ⟨path, Graph.failure?_eq_some_iff.mpr failed.result?⟩
    · rw [Round.isEvaluating_breakDeadlock sound.waiting, evaluating]
      simpa using fun isBroken => outside (broken_iff.mp isBroken).2
  case fails =>
    intro dependency needed failure failed circular
    have isMove : .unblock moment ∈ moves := by
      rw [isMoves]
      exact List.mem_append_right _ List.mem_cons_self
    refine (reachable.settled_of_pursued completes isMove evaluating).resolve_left fun done => ?_
    have afterwards := reachable.turn (.evaluate registry (.intro completes.ends))
    have acyclic := afterwards.not_isCycle_of_done done
      (by rw [← Graph.dependencies_eq]; exact needed) failed
    rw [circular] at acyclic
    cases acyclic

/-- The first three keys ask for each other in two circles, and the last asks
for the first. -/
def roundabout : Registry Nat Nat Empty where
  kindName _ := "roundabout"
  function? key := some fun _ =>
    match key with
    | 0 => .request [1, 2] none fun _ => .check (.finish (.value 0))
    | 1 => .request [2] none fun _ => .check (.finish (.value 1))
    | _ => .request [0] none fun _ => .check (.finish (.value key))

/-- The first key reports the shorter of its circles. The last key waits for it,
is not in a circle, and fails for it. -/
theorem cycles_are_reported_roundabout : ∃ moves final,
    Round.Completes roundabout (distinct [3])
        (({ settings := {} } : Evaluator Nat Nat Empty).opening [3]) moves final ∧
      final.graph.failure? 0 = some (.cycle 0 [0, 2]) ∧
      Circle (fun user dependency => dependency ∈ final.graph.dependencies user) [0, 2] ∧
      (∃ others, final.graph.failure? 2 = some (.cycle 2 others)) ∧
      (∃ moment, .unblock moment ∈ moves ∧ ShortestCircle moment.WaitsFor 0 [0, 2]) ∧
      (∃ moment, .unblock moment ∈ moves ∧ moment.isEvaluating 3 = true ∧ ¬ moment.InCircle 3) ∧
      final.graph.failure? 3 = some (.dependency 3 0 (.cycle 0 [0, 2])) := by
  let fresh : Evaluator Nat Nat Empty := { settings := {} }
  let opened := ((fresh.opening [3]).begin (distinct [3])).1
  have begun : Round.Course roundabout (distinct [3]) (opened, [3]) [] (opened, [3]) := .start
  have asked := begun.step (by decide +kernel) (.refl [3]) (show List.Perm [0] _ by decide +kernel)
  have forked := asked.step (by decide +kernel) (.refl [0])
    (show List.Perm [1, 2] _ by decide +kernel)
  have joined := forked.step (by decide +kernel) (.refl [1, 2])
    (show List.Perm [2] _ by decide +kernel)
  have blocked := joined.step (by decide +kernel) (.refl [2])
    (show List.Perm [] _ by decide +kernel)
  have unblocked := blocked.unblock (by decide +kernel) (by decide +kernel)
    (show List.Perm [3] _ by decide +kernel)
  have failed := unblocked.step (by decide +kernel) (.refl [3])
    (show List.Perm [] _ by decide +kernel)
  have completes : Round.Completes roundabout (distinct [3]) (fresh.opening [3]) _ _ :=
    .unblocked (by decide +kernel) failed (by decide +kernel) (by decide +kernel)
  have reachable : Reachable fresh := ⟨{}, .refl⟩
  obtain ⟨real, exactly, _⟩ := (cycles_are_reported reachable roundabout [3]).2 _ _ completes
  obtain ⟨_, _, _, circle, members, moment, isMove, _, shortest, _⟩ :=
    real 0 0 [0, 2] (by decide +kernel) (by decide +kernel)
  refine ⟨_, _, completes, by decide +kernel, circle, (members 2 (by simp)).2,
    ⟨moment, isMove, shortest⟩, ⟨_, List.mem_append_left _
      (List.mem_append_left _ (List.mem_append_right _ List.mem_cons_self)), by decide +kernel,
      fun circular => ?_⟩, by decide +kernel⟩
  obtain ⟨path, failed⟩ := ((exactly _ (List.mem_append_left _
    (List.mem_append_left _ (List.mem_append_right _ List.mem_cons_self)))).2 3
    (by decide +kernel)).1 circular
  exact absurd (failed.symm.trans (show _ = none by decide +kernel)) nofun

end MemoGraph.Evaluator
