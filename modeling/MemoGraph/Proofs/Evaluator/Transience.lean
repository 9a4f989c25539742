import MemoGraph.Proofs.Evaluator.Completion
import MemoGraph.Proofs.Evaluator.Retries
import MemoGraph.Proofs.Evaluator.Stories

namespace MemoGraph

variable {κ ν φ : Type}

theorem Results.of_get? [DecidableEq κ] {roots : List κ} {root : κ} {given : Result κ ν φ}
    {result : κ → Result κ ν φ}
    (answered : Results.get? ⟨roots.map fun root => (root, result root)⟩ root = some given) :
    root ∈ roots ∧ given = result root := by
  have member : root ∈ roots := by
    by_contra absent
    have unanswered : Results.get? ⟨roots.map fun root => (root, result root)⟩ root = none := by
      refine List.lookup_eq_none_iff.mpr fun entry listed => ?_
      obtain ⟨other, isOther, rfl⟩ := List.mem_map.mp listed
      refine bne_iff_ne.mpr fun same : root = other => absent ?_
      rwa [same]
    rw [unanswered] at answered
    cases answered
  rw [get?_of_mem member, Option.some.injEq] at answered
  exact ⟨member, answered.symm⟩

variable [Key κ] [BEq ν]

namespace Evaluator

variable {evaluator after : Evaluator κ ν φ} {registry : Registry κ ν φ} {roots : List κ}
  {now : Round κ ν φ} {key : κ} {failure : Failure κ φ}

/-- The key had no result when the evaluation opened, and all that the observer
was told of its end since is that it failed so. -/
structure FailedSince (evaluator : Evaluator κ ν φ) (roots : List κ) (log : Array (Signal κ φ))
    (key : κ) (failure : Failure κ φ) : Prop where
  unsettled : (evaluator.opening roots).graph.result? key = none
  finished : ∀ ending, .finish key ending ∈ evaluator.news roots log ↔ ending = .ofFailure failure

/-- A failure that a key cannot have had when the evaluation opened was given to
it since. -/
theorem failedSince_of_fate (fate : Fate registry evaluator roots now key)
    (new : ∀ result, ((evaluator.opening roots).graph.nodeAt key).memo = .valid result ∨
      ((evaluator.opening roots).graph.nodeAt key).memo = .dirty result →
        result ≠ .error failure)
    (failed : now.graph.result? key = some (.error failure)) :
    FailedSince evaluator roots now.log key failure := by
  rw [Graph.result?_eq] at failed
  have open' : (evaluator.opening roots).isIdle key = true →
      (evaluator.opening roots).graph.result? key = none := fun idle =>
    (Graph.result?_eq key).trans (Node.isIdle_iff.mp idle).2
  unfold Fate at fate
  generalize told : story key (evaluator.news roots now.log) = given at fate
  have finishes : ∀ ending, .finish key ending ∈ evaluator.news roots now.log ↔
      .finish key ending ∈ given := fun ending => by rw [← told, finish_mem_story]
  cases fate with
  | aside same | cached same =>
      rw [same.result?] at failed
      exact absurd rfl (new _ (.inl (Node.result?_eq_some_iff.mp failed).2))
  | underway _ work found =>
      rw [Node.result?_of_work (by simp [found])] at failed
      cases failed
  | revalidated _ old memo same =>
      have isOld : old = .error failure := by
        rw [same.result?] at failed
        simpa [Node.revalidate, memo, Memo.result?, Node.result?] using failed
      exact absurd isOld (new old (.inr memo))
  | computed idle result dependencies same =>
      rw [same.result?, Node.commit_result?, Option.some.injEq] at failed
      obtain rfl := Node.eq_error_of_committed failed
      refine ⟨open' idle, fun ending => ?_⟩
      rw [finishes]
      simp [Round.attemptStory, Ending.ofResult]
  | broken idle path dependencies same =>
      rw [same.result?, Node.commit_result?, Option.some.injEq, Node.committed_error] at failed
      obtain rfl := Except.error.inj failed
      refine ⟨open' idle, fun ending => ?_⟩
      rw [finishes]
      simp [Round.attemptStory, Ending.ofFailure, Failure.isCycle, Failure.cycle?]

/-- When the round of an evaluation opens, what holds of computed keys, or may
still hold, is no transient failure. -/
theorem Reachable.lasting (reachable : Reachable evaluator) (own : ¬ evaluator.Injected key)
    (transient : failure.transience = .transient) (result : Result κ ν φ)
    (memo : ((evaluator.opening roots).graph.nodeAt key).memo = .valid result ∨
      ((evaluator.opening roots).graph.nodeAt key).memo = .dirty result) :
    result ≠ .error failure := by
  rintro rfl
  have lasting : Round.isTransient (.error failure : Result κ ν φ) = false :=
    reachable.noted.lasting_retryTransient reachable.tidy own memo
  exact of_decide_eq_false lasting transient

/-- So if a computed key still remembers one, it is known to be computed again. -/
theorem Reachable.state_of_transient (reachable : Reachable evaluator)
    (own : ¬ evaluator.Injected key) (transient : failure.transience = .transient)
    (remembered : ((evaluator.opening roots).graph.nodeAt key).memo.result? =
      some (.error failure)) : (evaluator.opening roots).graph.state? key = some .changed := by
  have new : ∀ result, ((evaluator.opening roots).graph.nodeAt key).memo = .valid result ∨
      ((evaluator.opening roots).graph.nodeAt key).memo = .dirty result →
        result ≠ .error failure := reachable.lasting own transient
  have free := reachable.tidy.rested_opening roots key
  have known : key ∈ (evaluator.opening roots).graph.keys := by
    by_contra unknown
    rw [Graph.nodeAt_of_not_mem unknown] at remembered
    cases remembered
  rw [Graph.state?, Graph.node?_of_mem known, Option.map_some, Node.state, free]
  cases memo : ((evaluator.opening roots).graph.nodeAt key).memo with
  | blank =>
      rw [memo] at remembered
      cases remembered
  | changed result => rfl
  | valid result =>
      rw [memo] at remembered
      exact absurd (Option.some.inj remembered) (new result (.inl memo))
  | dirty result =>
      rw [memo] at remembered
      exact absurd (Option.some.inj remembered) (new result (.inr memo))

theorem Evaluates.result?_of_get? {results : Results κ ν φ} {given : Result κ ν φ}
    (evaluates : Evaluates registry evaluator roots after (.ok results)) (tidy : Tidy evaluator)
    (answered : results.get? key = some given) : after.graph.result? key = some given := by
  obtain ⟨final, ends, rfl, rfl⟩ := evaluates.complete
  obtain ⟨isRoot, isResult⟩ := Results.of_get? answered
  have settled := (ends.settled (nodup_distinct roots) (tidy.rested_opening roots)).2 key isRoot
  unfold Round.isSettled Node.isSettled at settled
  rw [← Graph.result?_eq] at settled
  obtain ⟨result, found⟩ := Option.isSome_iff_exists.mp settled
  rw [resultOf, found, Option.getD_some] at isResult
  exact isResult ▸ found

theorem failedSince_of_evaluates (reachable : Reachable evaluator)
    {answer : Except Stop (Results κ ν φ)}
    (evaluates : Evaluates registry evaluator roots after answer) (own : ¬ evaluator.Injected key)
    (failed : after.graph.result? key = some (.error failure))
    (transient : failure.transience = .transient) :
    FailedSince evaluator roots after.log key failure := by
  cases answer with
  | ok results =>
      obtain ⟨final, _, rfl, _, fate⟩ := evaluates.fate reachable.tidy
      exact failedSince_of_fate (fate key) (reachable.lasting own transient) failed
  | error stop =>
      obtain ⟨last, left, halt, comes, rfl, _⟩ := evaluates.cut
      have failed : last.rollBack.graph.result? key = some (.error failure) := failed
      rw [ComesTo.result?_rollBack reachable.tidy comes] at failed
      have since : FailedSince evaluator roots last.log key failure :=
        failedSince_of_fate (ComesTo.fate reachable.tidy comes key)
          (reachable.lasting own transient) failed
      exact since

/-- After any history, what was computed and failed transiently is on the list of
keys to be attempted again, and when a round opens nothing holds of it but what
it was. So whatever failure of this kind a key has in the course of an
evaluation or after it, or an evaluation answers with, was given to the key in
that very evaluation; this holds whether or not the evaluation is cut short. -/
theorem transient_failures_are_retried (reachable : Reachable evaluator) :
    (∀ key failure, ¬ evaluator.Injected key → evaluator.graph.state? key = some .error →
      evaluator.graph.failure? key = some failure → failure.root.transience = .transient →
        key ∈ evaluator.retries) ∧
    (∀ roots key failure, ¬ evaluator.Injected key →
      ((evaluator.opening roots).graph.nodeAt key).memo.result? = some (.error failure) →
        failure.root.transience = .transient →
          (evaluator.opening roots).graph.state? key = some .changed) ∧
    ∀ (registry : Registry κ ν φ) (roots : List κ),
      (∀ now left, ComesTo registry evaluator roots (now, left) → ∀ key failure,
        ¬ evaluator.Injected key → now.graph.failure? key = some failure →
          failure.root.transience = .transient →
            FailedSince evaluator roots now.log key failure) ∧
      ∀ after answer, Evaluates registry evaluator roots after answer → ∀ key failure,
        ¬ evaluator.Injected key → (after.graph.failure? key = some failure ∨
          ∃ results, answer = .ok results ∧ results.get? key = some (.error failure)) →
          failure.root.transience = .transient →
            FailedSince evaluator roots after.log key failure := by
  refine ⟨?listed, ?changed, fun registry roots => ⟨?during, ?after⟩⟩
  case listed =>
    intro key failure own _ failed transient
    rw [Failure.transience_root] at transient
    have isResult := Graph.result?_of_failure? failed
    rw [Graph.result?_eq] at isResult
    exact reachable.noted key _ own (.inl (Node.result?_eq_some_iff.mp isResult).2)
      (decide_eq_true transient)
  case changed =>
    intro roots key failure own remembered transient
    rw [Failure.transience_root] at transient
    exact reachable.state_of_transient own transient remembered
  case during =>
    intro now left comes key failure own failed transient
    rw [Failure.transience_root] at transient
    exact failedSince_of_fate (ComesTo.fate reachable.tidy comes key)
      (reachable.lasting own transient) (Graph.result?_of_failure? failed)
  case after =>
    intro after answer evaluates key failure own failed transient
    rw [Failure.transience_root] at transient
    refine failedSince_of_evaluates reachable evaluates own ?_ transient
    rcases failed with failed | ⟨results, rfl, answered⟩
    · exact Graph.result?_of_failure? failed
    · exact evaluates.result?_of_get? reachable.tidy answered

/-- The first key fails in the first two runs, which is worth another attempt;
the second key needs the first. -/
def flaky : Registry Nat Nat Bool where
  kindName _ := "flaky"
  function? key := some fun run =>
    match key with
    | 0 => if run < 2 then .finish (.refused (.failed (.transientOfError true)))
        else .finish (.value 7)
    | _ => .request [0] none fun _ => .check (.finish (.value 8))

/-- Both keys are listed after they failed, are computed again when the next
round opens, even if that one is cancelled, and have values in the end. -/
theorem transient_failures_are_retried_flaky :
    ∃ new failed cancelled : Evaluator Nat Nat Bool,
      failed = (new.evaluate flaky 20 [1]).1 ∧
      cancelled = (failed.interrupt.evaluate flaky 20 [1]).1 ∧
      1 ∈ failed.retries ∧
      FailedSince new [1] failed.log 1 (.dependency 1 0 (.input 0 (.transientOfError true))) ∧
      cancelled.retries = [] ∧ (cancelled.opening [1]).graph.state? 1 = some .changed ∧
      (cancelled.evaluate flaky 20 [1]).1.graph.result? 1 = some (.ok 8) := by
  have new : Reachable ({ settings := {} } : Evaluator Nat Nat Bool) := ⟨{}, .refl⟩
  have first := evaluate_evaluates flaky 20 ({ settings := {} } : Evaluator Nat Nat Bool) [1]
  have once := new.turn (.evaluate flaky first)
  have second := evaluate_evaluates flaky 20
    (({ settings := {} } : Evaluator Nat Nat Bool).evaluate flaky 20 [1]).1.interrupt [1]
  have twice := (once.turn (.interrupt _)).turn (.evaluate flaky second)
  have since := ((transient_failures_are_retried new).2.2 flaky [1]).2 _ _ first 1
    (.dependency 1 0 (.input 0 (.transientOfError true))) (ne_true_of_eq_false (by decide +kernel))
    (.inl (by decide +kernel)) rfl
  have listed := (transient_failures_are_retried once).1 1
    (.dependency 1 0 (.input 0 (.transientOfError true))) (ne_true_of_eq_false (by decide +kernel))
    (by decide +kernel) (by decide +kernel) rfl
  have changed := (transient_failures_are_retried twice).2.1 [1] 1
    (.dependency 1 0 (.input 0 (.transientOfError true))) (ne_true_of_eq_false (by decide +kernel))
    (by decide +kernel) rfl
  exact ⟨_, _, _, rfl, rfl, listed, since, by decide +kernel, changed, by decide +kernel⟩

end Evaluator

end MemoGraph
