import MemoGraph.Proofs.Evaluator.Stories
import MemoGraph.Proofs.Round.Restarts

namespace MemoGraph.Evaluator

variable {κ ν φ : Type} [Key κ] [BEq ν] {evaluator : Evaluator κ ν φ}

/-- After any history, whatever the functions do, in whatever order keys are
stepped, and whenever the round is cut short: each time a function has to run
again, its last run missed something, and nothing that any run for the key
missed before. So it is run at most once more than it requests keys in the
round. A function that checks after every group that all of it is available,
and whose next group depends on nothing but its key and the answers so far, is
run again at most once for each group. -/
theorem restarts_make_progress (reachable : Reachable evaluator) (registry : Registry κ ν φ)
    (roots : List κ) (key : κ) :
    (∀ after answer, Evaluates registry evaluator roots after answer → ∃ moves final halt,
      Round.Closes registry (distinct roots) (evaluator.opening roots) moves final halt ∧
        after = evaluator.retryTransient.closeRound final halt) ∧
    ∀ moves final halt,
      Round.Closes registry (distinct roots) (evaluator.opening roots) moves final halt →
        Round.Terminates registry key moves (evaluator.news roots final.log) := by
  refine ⟨fun after answer evaluates => evaluates.closes, fun moves final halt closes => ?_⟩
  have persists := closes.persists (nodup_distinct roots) (reachable.tidy.rested_opening roots) key
  obtain ⟨signals, told, terminates⟩ := persists.terminates
  rwa [news_eq told]

/-- Ask for three keys one after another. -/
def oneByOne : Computation Nat Nat Empty :=
  .request [0] none fun _ => .check (.request [1] none fun _ => .check
    (.request [2] none fun _ => .check (.finish (.value 3))))

def sequential : Registry Nat Nat Empty where
  kindName _ := "sequential"
  function? key := some fun _ => if key < 3 then .finish (.value key) else oneByOne

/-- The function is run again for each of the three keys. -/
theorem restarts_make_progress_sequential :
    ∃ moves final,
      Round.Closes sequential (distinct [3])
        (({ settings := {} } : Evaluator Nat Nat Empty).opening [3]) moves final .complete ∧
      restarts 3 (({ settings := {} } : Evaluator Nat Nat Empty).news [3] final.log) =
        [[0], [1], [2]] ∧
      (Round.runsOf sequential 3 moves).length = 4 ∧
      ∃ attempt ∈ Round.runsOf sequential 3 moves, 3 ≤ attempt.requested.groupCount := by
  let fresh : Evaluator Nat Nat Empty := { settings := {} }
  obtain ⟨results, evaluates⟩ := exists_evaluates sequential 20 fresh [3] (by decide +kernel)
  obtain ⟨final, ends, isAfter, _⟩ := evaluates.complete
  obtain ⟨moves, closes⟩ := ends.closes
  have missed : restarts 3 (fresh.news [3] (fresh.evaluate sequential 20 [3]).1.log) =
      [[0], [1], [2]] := by decide +kernel
  have computed : computes 3 (fresh.news [3] (fresh.evaluate sequential 20 [3]).1.log) = 4 := by
    decide +kernel
  rw [isAfter] at missed computed
  have terminates := (restarts_make_progress ⟨{}, .refl⟩ sequential [3] 3).2 moves final _ closes
  have follows : sequential.Follows 3 oneByOne.plan := by
    rintro function registered run
    cases registered
    have strict : oneByOne.Strict :=
      .request fun _ _ => .request fun _ _ => .request fun _ _ => .finish _
    exact strict.follows
  obtain nothing | ⟨attempt, isRun, atMost, _⟩ :=
    terminates.planned oneByOne.plan follows
  · have some : restarts 3 (fresh.news [3] final.log) = [[0], [1], [2]] := missed
    rw [nothing] at some
    cases some
  · refine ⟨moves, final, closes, missed, terminates.counted.symm.trans computed, attempt, isRun, ?_⟩
    have three : (restarts 3 (fresh.news [3] final.log)).length = 3 := congrArg List.length missed
    exact three ▸ atMost

end MemoGraph.Evaluator
