import MemoGraph.Proofs.Evaluator.Transience

namespace MemoGraph

theorem Node.eq_of_bare {κ ν φ : Type} {node other : Node κ ν φ} (same : node.bare = other.bare)
    (free : node.work = none) (freeOther : other.work = none) :
    node = { other with dependents := node.dependents } := by
  obtain ⟨memo, dependencies, dependents, changed, evaluated, injected, work⟩ := node
  obtain ⟨_, _, _, _, _, _, workOther⟩ := other
  cases free
  cases freeOther
  obtain ⟨rfl, rfl, _, rfl, rfl, rfl, _⟩ := Node.mk.inj same
  rfl

variable {κ ν φ : Type} [Key κ] [BEq ν]

namespace Round

variable {registry : Registry κ ν φ} {roots ready : List κ} {round : Round κ ν φ} {key : κ}

theorem Failed.mem_keys {after : Round κ ν φ} {failures : List (Failure κ φ)}
    (failed : Failed round failures after) (known : key ∈ round.graph.keys) :
    key ∈ after.graph.keys :=
  (failed.keys key).mpr (.inl known)

theorem ComesTo.mem_keys {now : Round κ ν φ × List κ} (comes : ComesTo registry roots round now)
    (unique : roots.Nodup) (rested : Rested round.graph) (known : key ∈ round.graph.keys) :
    key ∈ now.1.graph.keys := by
  obtain ⟨ready, order, moves⟩ := comes
  have inOrder := InOrder.begin unique rested order
  exact inOrder.invariant moves
    (fun _ _ _ _ moved known => (moved.keys key).mpr (.inr (.inr known)))
    (fun order => (failed_breakDeadlock order.waiting roots).mem_keys)
    ((round.begin_spec unique).keys key |>.mpr (.inr known))

end Round

namespace Evaluator

variable {evaluator after : Evaluator κ ν φ} {registry : Registry κ ν φ} {roots : List κ}
  {now : Round κ ν φ} {key : κ} {failure : Failure κ φ}

/-- The key was given a result since the evaluation opened, or the one it had was
found to hold still. -/
def Committed (evaluator : Evaluator κ ν φ) (roots : List κ) (log : Array (Signal κ φ))
    (key : κ) : Prop :=
  ∃ ending, ending ≠ .cacheHit ∧ .finish key ending ∈ evaluator.news roots log

/-- A key that was not committed is as it was, but for the work on it. -/
theorem bare_of_not_committed (fate : Fate registry evaluator roots now key)
    (open' : ¬ Committed evaluator roots now.log key) :
    (now.graph.nodeAt key).bare = (evaluator.retryTransient.graph.nodeAt key).bare := by
  have ended : ∀ ending, .finish key ending ∈ story key (evaluator.news roots now.log) →
      ending = .cacheHit := by
    intro ending told
    by_contra committed
    exact open' ⟨ending, committed, finish_mem_story.mp told⟩
  unfold Fate at fate
  generalize story key (evaluator.news roots now.log) = told at fate ended
  cases fate with
  | aside same | cached same => exact same.bare
  | underway _ _ _ same => exact same
  | revalidated => cases ended .revalidated (by simp)
  | computed =>
      exact absurd (ended _ (List.mem_append_right _ List.mem_cons_self))
        (Ending.ofResult_ne_cacheHit _ _)
  | broken => cases ended .cycleDetected (by simp)

theorem settled_of_committed (fate : Fate registry evaluator roots now key)
    (committed : Committed evaluator roots now.log key) : now.isSettled key = true := by
  obtain ⟨ending, notCached, told⟩ := committed
  rw [← finish_mem_story] at told
  unfold Fate at fate
  generalize story key (evaluator.news roots now.log) = given at fate told
  cases fate with
  | aside => cases told
  | cached => exact absurd (by simpa using told) notCached
  | underway => simp at told
  | revalidated _ old memo same =>
      refine same.isSettled.trans (Node.isSettled_iff.mpr ⟨rfl, old, ?_⟩)
      simp [Node.revalidate, memo, Memo.result?]
  | computed _ result dependencies same => exact same.isSettled
  | broken _ path dependencies same => exact same.isSettled

/-- A key that failed is noted if its failure is worth another attempt. -/
theorem noted_of_finished (fate : Fate registry evaluator roots now key)
    (finished : .finish key (.ofFailure failure) ∈ evaluator.news roots now.log)
    (failed : now.graph.result? key = some (.error failure))
    (transient : failure.transience = .transient) : key ∈ now.transient.toList := by
  rw [← finish_mem_story] at finished
  unfold Fate at fate
  generalize story key (evaluator.news roots now.log) = given at fate finished
  rw [Graph.result?_eq] at failed
  cases fate with
  | aside => cases finished
  | cached | revalidated => rcases Ending.ofFailure_cases failure with ending | ending <;>
      simp [ending] at finished
  | underway => simp at finished
  | computed _ result dependencies same _ _ noted =>
      rw [same.result?, Node.commit_result?, Option.some.injEq] at failed
      obtain rfl := Node.eq_error_of_committed failed
      exact noted (decide_eq_true transient)
  | broken _ _ _ _ noted => exact noted

/-- A failure that was only confirmed was there before; if it is worth another
attempt, the key's value was set from outside. -/
theorem injected_of_revalidated (reachable : Reachable evaluator)
    (fate : Fate registry evaluator roots now key)
    (revalidated : .finish key .revalidated ∈ evaluator.news roots now.log)
    (failed : now.graph.result? key = some (.error failure))
    (transient : failure.transience = .transient) : evaluator.Injected key := by
  by_contra own
  have since := failedSince_of_fate fate (reachable.lasting own transient) failed
  have ending := (since.finished .revalidated).mp revalidated
  rcases Ending.ofFailure_cases failure with cycle | other
  · exact nomatch ending.trans cycle
  · exact nomatch ending.trans other

/-- Whatever happened before and whenever an evaluation is cancelled, afterwards
no cancellation is pending and nothing is worked on. There is a last state that
the evaluation came to, and every key that was committed on the way there is as
its commit left it. Every other key is as it was right before the round, or has
a blank node if it had none, except that committed keys may depend on it or no
longer do. What failed transiently is attempted again in the next round; a
failure of this kind that only was confirmed belongs to a key whose value was
set from outside, as all others are computed again. -/
theorem interruption_is_atomic (reachable : Reachable evaluator)
    (evaluates : Evaluates registry evaluator roots after (.error .interrupted)) :
    after.interrupted = false ∧
    (∀ key, after.graph.state? key ≠ some .evaluating ∧ (after.graph.nodeAt key).work = none) ∧
    (∃ last left, ComesTo registry evaluator roots (last, left) ∧ last.log = after.log ∧
      ∀ now, ComesTo registry evaluator roots now →
        Round.Advances registry (distinct roots) now (last, left) →
          ∀ key, Committed evaluator roots now.1.log key →
            (after.graph.result? key).isSome = true ∧
              (after.graph.nodeAt key).Alike (now.1.graph.nodeAt key)) ∧
    (∀ key ∈ evaluator.retryTransient.graph.keys, key ∈ after.graph.keys) ∧
    (∀ key, ¬ Committed evaluator roots after.log key →
      after.graph.nodeAt key = { evaluator.retryTransient.graph.nodeAt key with
        dependents := (after.graph.nodeAt key).dependents }) ∧
    (∀ key dependent, ¬ Committed evaluator roots after.log dependent →
      (dependent ∈ (after.graph.nodeAt key).dependents ↔
        dependent ∈ (evaluator.retryTransient.graph.nodeAt key).dependents)) ∧
    (∀ key failure, after.graph.failure? key = some failure →
      failure.root.transience = .transient →
        (.finish key (.ofFailure failure) ∈ evaluator.news roots after.log →
          key ∈ after.retries) ∧
        (.finish key .revalidated ∈ evaluator.news roots after.log → evaluator.Injected key)) := by
  have later := reachable.turn (.evaluate registry evaluates)
  have tidy := reachable.tidy
  have unique := nodup_distinct roots
  have rested := tidy.rested_opening roots
  obtain ⟨last, left, halt, comes, rfl, interrupted⟩ := evaluates.cut
  have sound := ComesTo.sound tidy comes
  have fate := ComesTo.fate tidy comes
  obtain rfl := interrupted rfl
  have node : ∀ key, (evaluator.retryTransient.closeRound last.rollBack .interrupted).graph.nodeAt
      key = (last.graph.nodeAt key).rollBack := Round.nodeAt_rollBack_of_waiting sound.waiting
  have result : ∀ key,
      (evaluator.retryTransient.closeRound last.rollBack .interrupted).graph.result? key =
        last.graph.result? key := ComesTo.result?_rollBack tidy comes
  have asBefore : ∀ key, ¬ Committed evaluator roots last.log key →
      (evaluator.retryTransient.closeRound last.rollBack .interrupted).graph.nodeAt key =
        { evaluator.retryTransient.graph.nodeAt key with
          dependents := ((evaluator.retryTransient.closeRound last.rollBack
            .interrupted).graph.nodeAt key).dependents } := by
    intro key open'
    refine Node.eq_of_bare ?_ (later.tidy.rested key) (rested key)
    rw [node]
    exact bare_of_not_committed (fate key) open'
  refine ⟨?cleared, fun key => ⟨?idle, later.tidy.rested key⟩,
    ⟨last, left, comes, rfl, ?kept⟩, ?keys, asBefore, ?edges, ?retried⟩
  case cleared => simp [closeRound]
  case idle =>
    intro evaluating
    have busy : last.rollBack.isEvaluating key = true := decide_eq_true evaluating
    have free : (last.rollBack.graph.nodeAt key).work = none := later.tidy.rested key
    rw [Round.isEvaluating_eq, free] at busy
    cases busy
  case kept =>
    intro now comesNow moves key committed
    have soundNow := ComesTo.sound tidy comesNow
    have settled := settled_of_committed (ComesTo.fate tidy comesNow key) committed
    have alike := soundNow.toInOrder.extends moves (.refl _) key settled
    have lastSettled : (last.graph.nodeAt key).isSettled = true := alike.isSettled.trans settled
    rw [result, Graph.result?_eq, node, Node.rollBack, ← (Node.isSettled_iff.mp lastSettled).1]
    exact ⟨lastSettled, alike⟩
  case keys =>
    exact fun key known =>
      Round.mem_keys_rollBack.mpr (Round.ComesTo.mem_keys comes unique rested known)
  case edges =>
    intro key dependent open'
    rw [later.tidy.linked, tidy.retryTransient.linked, asBefore dependent open']
  case retried =>
    intro key failure failed transient
    rw [Failure.transience_root] at transient
    have isResult := Graph.result?_of_failure? failed
    rw [result] at isResult
    refine ⟨fun finished => ?_, fun revalidated =>
      injected_of_revalidated reachable (fate key) revalidated isResult transient⟩
    have noted : key ∈ last.transient.toList :=
      noted_of_finished (fate key) finished isResult transient
    exact List.mem_append_right _ noted

/-- The first key fails, which is worth another attempt. The second cancels the
round and has a value all the same; the others need it. -/
def halting : Registry Nat Nat Bool where
  kindName _ := "halting"
  function? key := some fun _ =>
    match key with
    | 0 => .finish (.refused (.failed (.transientOfError true)))
    | 1 => .interrupt (.finish (.value 5))
    | _ => .request [1] none fun _ => .check (.finish (.value 6))

/-- The first two keys get results before the round is cancelled, and the failed
one is to be attempted again. The third is left without one, and the second,
which it asked for, does not list it. -/
theorem interruption_is_atomic_halting :
    ∃ new after : Evaluator Nat Nat Bool,
      after = (new.evaluate halting 20 [1, 2, 0]).1 ∧ after.interrupted = false ∧
      0 ∈ after.retries ∧ after.graph.result? 1 = some (.ok 5) ∧
      after.graph.state? 2 = some .new ∧
      after.graph.nodeAt 2 = { dependents := (after.graph.nodeAt 2).dependents } ∧
      2 ∉ (after.graph.nodeAt 1).dependents := by
  have new : Reachable ({ settings := {} } : Evaluator Nat Nat Bool) := ⟨{}, .refl⟩
  have evaluates := evaluate_evaluates halting 20
    ({ settings := {} } : Evaluator Nat Nat Bool) [1, 2, 0]
  have stopped : ((({ settings := {} } : Evaluator Nat Nat Bool).evaluate halting 20
      [1, 2, 0]).2.map fun _ => ()) = .error .interrupted := by decide +kernel
  have interrupted : (({ settings := {} } : Evaluator Nat Nat Bool).evaluate halting 20
      [1, 2, 0]).2 = .error .interrupted := by
    generalize (({ settings := {} } : Evaluator Nat Nat Bool).evaluate halting 20 [1, 2, 0]).2 =
      answer at stopped
    cases answer with
    | ok results => cases stopped
    | error stop => rw [Except.error.inj stopped]
  rw [interrupted] at evaluates
  obtain ⟨cleared, _, _, _, asBefore, edges, retried⟩ := interruption_is_atomic new evaluates
  have quiet : ¬ Committed ({ settings := {} } : Evaluator Nat Nat Bool) [1, 2, 0]
      (({ settings := {} } : Evaluator Nat Nat Bool).evaluate halting 20 [1, 2, 0]).1.log 2 := by
    rintro ⟨ending, _, told⟩
    rw [← finish_mem_story, show story 2 _ = [.start 2, .compute 2 0] by decide +kernel] at told
    simp at told
  have retry := ((retried 0 (.input 0 (.transientOfError true)) (by decide +kernel) rfl).1
    (by decide +kernel))
  refine ⟨_, _, rfl, cleared, retry, by decide +kernel, by decide +kernel, asBefore 2 quiet, ?_⟩
  rw [edges 1 2 quiet]
  decide +kernel

end Evaluator

end MemoGraph
