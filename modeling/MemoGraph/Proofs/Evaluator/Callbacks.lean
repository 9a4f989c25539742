import MemoGraph.Proofs.Evaluator.Incremental
import MemoGraph.Proofs.Evaluator.Stories
import MemoGraph.Proofs.Round.Callbacks

namespace MemoGraph.Evaluator

variable {κ ν φ : Type} [Key κ] [BEq ν] {evaluator : Evaluator κ ν φ}

/-- After any history, whatever the functions do and in whatever order keys are
stepped, the callbacks about a key in an evaluation that is not cut short make
up a `Lifecycle`: there are none about a key that is not needed, a root with a
result is a cache hit, and every other key is started, possibly checked, run
again after every restart with consecutive numbers, and ended with what comes
before its kind of end. So every start has one end. When the evaluation is cut
short, what was told about a key is the beginning of such callbacks. -/
theorem callbacks_wellFormed (reachable : Reachable evaluator) (registry : Registry κ ν φ)
    (roots : List κ) (key : κ) :
    (∀ after results, Evaluates registry evaluator roots after (.ok results) →
      after.log.toList =
          (evaluator.opening roots).log.toList ++ evaluator.news roots after.log ∧
        Round.Lifecycle registry (distinct roots) (evaluator.opening roots) key
          (after.graph.result? key) (callbacks key (evaluator.news roots after.log)) ∧
        (callbacks key (evaluator.news roots after.log)).countP Signal.isStart ≤ 1 ∧
        (callbacks key (evaluator.news roots after.log)).countP Signal.isEnd =
          (callbacks key (evaluator.news roots after.log)).countP Signal.isStart) ∧
    ∀ after stop, Evaluates registry evaluator roots after (.error stop) →
      after.log.toList =
          (evaluator.opening roots).log.toList ++ evaluator.news roots after.log ∧
        ∃ rest result, Round.Lifecycle registry (distinct roots) (evaluator.opening roots) key
          result (callbacks key (evaluator.news roots after.log) ++ rest) := by
  have unique := nodup_distinct roots
  have rested := reachable.tidy.rested_opening roots
  constructor
  · intro after results evaluates
    obtain ⟨final, ends, rfl, _⟩ := evaluates.complete
    obtain ⟨signals, told, passages⟩ := ends.narrated unique rested
    have isNews : evaluator.news roots
        (evaluator.retryTransient.closeRound final .complete).log = signals := news_eq told
    have lifecycle := (passages key).ended (ends.rested unique rested key)
    rw [isNews]
    exact ⟨told, lifecycle, lifecycle.balanced⟩
  · intro after stop evaluates
    obtain ⟨last, left, halt, comes, rfl, _⟩ := evaluates.cut
    obtain ⟨_, signals, told, passages⟩ := Round.ComesTo.narrated comes unique rested
    have isNews : evaluator.news roots
        (evaluator.retryTransient.closeRound last.rollBack halt).log = signals := news_eq told
    rw [isNews]
    exact ⟨told, (passages key).extends⟩

/-- The value at the bottom was replaced: the upper keys are checked, and run
again. -/
theorem callbacks_wellFormed_ladder :
    ∃ (evaluator after : Evaluator Nat Nat Empty) (results : Results Nat Nat Empty),
      Reachable evaluator ∧ Evaluates ladder evaluator [2] after (.ok results) ∧
      callbacks 2 (evaluator.news [2] after.log) =
        [.start 2, .dirtyCheck 2 true, .compute 2 0, .cutoff 2 true, .finish 2 .changed] ∧
      Round.Lifecycle ladder (distinct [2]) (evaluator.opening [2]) 2 (some (.ok 10))
        (callbacks 2 (evaluator.news [2] after.log)) := by
  let first : Evaluator Nat Nat Empty := (({ settings := {} } : Evaluator Nat Nat Empty).inject 0 7).1
  let used := (first.evaluate ladder 20 [2]).1
  let changed := (used.inject 0 8).1
  have start : Reachable ({ settings := {} } : Evaluator Nat Nat Empty) := ⟨{}, .refl⟩
  have reachable : Reachable changed :=
    ((start.turn (.inject _ 0 7)).turn
      (.evaluate ladder (evaluate_evaluates ladder 20 first [2]))).turn (.inject _ 0 8)
  obtain ⟨results, evaluates⟩ := exists_evaluates ladder 20 changed [2] (by decide +kernel)
  have told : callbacks 2 (changed.news [2] (changed.evaluate ladder 20 [2]).1.log) =
      [.start 2, .dirtyCheck 2 true, .compute 2 0, .cutoff 2 true, .finish 2 .changed] := by
    decide +kernel
  have result : (changed.evaluate ladder 20 [2]).1.graph.result? 2 = some (.ok 10) := by
    decide +kernel
  have lifecycle := ((callbacks_wellFormed reachable ladder [2] 2).1 _ _ evaluates).2.1
  rw [result] at lifecycle
  exact ⟨changed, _, results, reachable, evaluates, told, lifecycle⟩

end MemoGraph.Evaluator
