import MemoGraph.Proofs.Evaluator.Histories
import MemoGraph.Proofs.Round.Resumptions

namespace MemoGraph.Evaluator

variable {κ ν φ : Type} [Key κ] [BEq ν] {evaluator : Evaluator κ ν φ}

/-- After any history, whatever the functions do and in whatever order keys are
stepped, consider a key that an evaluation works on.

Once everything that the last run of its function missed has a result, the key is
ready. If the check before its next run finds a failure that no handler of the
last run accepts, the key fails for it and with what that run asked for, and the
function is not run. Had a strict function been run instead, any run of it would
have come to the same failure and the same recorded groups.

Whatever the function does, whenever the key fails for a dependency, its last run
says which: of the keys that it asked for, the first one with a failure that none
of the handlers named for that key accepts. If all failures are accepted, which
only happens right after a run, it is the first that a request passed on. -/
theorem failing_early_agrees (reachable : Reachable evaluator) (registry : Registry κ ν φ)
    (roots : List κ) {ready : List κ} {moves : List (Move κ ν φ)} {now : Round κ ν φ × List κ}
    (order : ready.Perm ((evaluator.opening roots).begin (distinct roots)).2)
    (course : Round.Course registry (distinct roots)
      (((evaluator.opening roots).begin (distinct roots)).1, ready) moves now)
    {key : κ} {work : Work κ φ} (found : (now.1.graph.nodeAt key).work = some work) :
    (∀ attempt, (Round.runsOf registry key moves).getLast? = some attempt →
      (∀ missing ∈ attempt.missing, now.1.graph.state? missing = some .done ∨
        now.1.graph.state? missing = some .error) →
      key ∈ now.2 ∧ ∀ dependency cause,
        firstUnhandled? now.1.graph attempt.requested attempt.handlers = some (dependency, cause) →
        attempt.Foremost now.1.graph.result? dependency cause ∧
        now.1.step registry key = now.1.commit key (.error (.dependency key dependency cause))
          attempt.requested [] ∧
        ∀ function, registry.function? key = some function → Computation.Steady function →
          ∀ run, (Attempt.run now.1.graph.result? key (function run) {}).1.verdict now.1.graph key
              (Attempt.run now.1.graph.result? key (function run) {}).2 =
            .commit (.error (.dependency key dependency cause)) attempt.requested []) ∧
    (key ∈ now.2 → work.phase = .computing → ∀ dependency cause,
      (now.1.step registry key).1.graph.result? key =
        some (.error (.dependency key dependency cause)) →
      ∃ attempt, (Round.runsOf registry key (moves ++ [.step now.1 key])).getLast? = some attempt ∧
        ((now.1.step registry key).1.graph.nodeAt key).dependencies = attempt.requested ∧
        attempt.Precedes now.1.graph.result? dependency cause ∧
        (now.1.ran? registry key = none →
          attempt.Foremost now.1.graph.result? dependency cause)) := by
  have rested := reachable.tidy.rested_opening roots
  obtain ⟨sound, resumed⟩ := course.resumed (nodup_distinct roots) rested order key
  constructor
  · intro attempt last supplied
    have evaluating : now.1.isEvaluating key = true := by
      rw [Round.isEvaluating_eq, found]
      rfl
    have settled : ∀ missing ∈ attempt.missing, now.1.isSettled missing = true :=
      fun missing lacked => Graph.isSettled_iff.mpr (supplied missing lacked)
    refine ⟨(resumed.mem_ready sound evaluating last settled).1, fun dependency cause unhandled => ?_⟩
    refine ⟨firstUnhandled?_eq_some_iff.mp unhandled,
      resumed.fails sound evaluating last settled unhandled, fun function registered steady run => ?_⟩
    exact resumed.agrees sound evaluating last settled unhandled registered steady run
  · intro member phase dependency cause failed
    obtain ⟨_, effect, isWork, _, progress, moved⟩ := sound.moved member registry
    rw [found] at isWork
    cases isWork
    exact resumed.blames found phase progress moved failed

/-- The last key handles errors of the first one, but asks for it once more
without handling them, together with two others. -/
def picky : Computation Nat Nat Bool :=
  .request [0] (some id) fun _ => .check (.request [0, 1, 2] none fun _ => .check
    (.finish (.value 3)))

/-- The first three keys fail, the second one with another error than the others. -/
def failing : Registry Nat Nat Bool where
  kindName _ := "failing"
  function? key := some fun _ =>
    if key < 3 then .finish (.refused (.failed (.ofError (key != 1)))) else picky

theorem steady_picky : Computation.Steady fun _ => picky :=
  fun _ => ⟨rfl, .request fun _ _ => .request fun _ _ => .finish _⟩

/-- The last run of the last key passed on the failure of the first key, which
another request handles. The key fails for the second one, although the third
one was the first to fail. -/
theorem failing_early_agrees_failing : ∃ ready moves now attempt,
    Round.Course failing (distinct [3])
      (((({ settings := {} } : Evaluator Nat Nat Bool).opening [3]).begin (distinct [3])).1, ready)
      moves now ∧
    (Round.runsOf failing 3 moves).getLast? = some attempt ∧
    attempt.unhandled = some (0, .input 0 (.ofError true)) ∧
    now.1.step failing 3 = now.1.commit 3 (.error (.dependency 3 1 (.input 1 (.ofError false))))
      attempt.requested [] ∧
    (Attempt.run now.1.graph.result? 3 picky {}).1.verdict now.1.graph 3
        (Attempt.run now.1.graph.result? 3 picky {}).2 =
      .commit (.error (.dependency 3 1 (.input 1 (.ofError false)))) attempt.requested [] ∧
    ∃ last, (Round.runsOf failing 3 (moves ++ [.step now.1 3])).getLast? = some last ∧
      last.Foremost now.1.graph.result? 1 (.input 1 (.ofError false)) := by
  let fresh : Evaluator Nat Nat Bool := { settings := {} }
  let opened := ((fresh.opening [3]).begin (distinct [3])).1
  have begun : Round.Course failing (distinct [3]) (opened, [3]) [] (opened, [3]) := .start
  have asked := begun.step (by decide +kernel) (.refl [3])
    (show List.Perm [0] _ by decide +kernel)
  have handled := asked.step (by decide +kernel) (.refl [0])
    (show List.Perm [3] _ by decide +kernel)
  have again := handled.step (by decide +kernel) (.refl [3])
    (show List.Perm [1, 2] _ by decide +kernel)
  have late := again.step (by decide +kernel) (.swap 2 1 [])
    (show List.Perm [1] _ by decide +kernel)
  have supplied := late.step (by decide +kernel) (.refl [1])
    (show List.Perm [3] _ by decide +kernel)
  have order : List.Perm [3] ((fresh.opening [3]).begin (distinct [3])).2 := by decide +kernel
  obtain ⟨moves, now, course, ran, missing, unhandled, blamed, working, settled, quiet, failed⟩ :
      ∃ moves now, Round.Course failing (distinct [3]) (opened, [3]) moves now ∧
        (Round.runsOf failing 3 moves).getLast?.isSome = true ∧
        (Round.runsOf failing 3 moves).getLast?.map Attempt.missing = some [1, 2] ∧
        (Round.runsOf failing 3 moves).getLast?.bind Attempt.unhandled =
          some (0, .input 0 (.ofError true)) ∧
        ((Round.runsOf failing 3 moves).getLast?.bind fun attempt =>
          firstUnhandled? now.1.graph attempt.requested attempt.handlers) =
            some (1, .input 1 (.ofError false)) ∧
        (now.1.graph.nodeAt 3).work.map Work.phase = some .computing ∧
        (∀ missing ∈ [1, 2], now.1.graph.state? missing = some .error) ∧
        (now.1.ran? failing 3).isNone = true ∧
        (now.1.step failing 3).1.graph.failure? 3 =
          some (.dependency 3 1 (.input 1 (.ofError false))) := by
    refine ⟨_, _, supplied, ?_, ?_, ?_, ?_, ?_, ?_, ?_, ?_⟩ <;> decide +kernel
  obtain ⟨attempt, last⟩ := Option.isSome_iff_exists.mp ran
  obtain ⟨work, found, phase⟩ := Option.map_eq_some_iff.mp working
  rw [last] at missing unhandled blamed
  have lacked : attempt.missing = [1, 2] := Option.some.inj missing
  obtain ⟨early, later⟩ :=
    failing_early_agrees ⟨{}, .refl⟩ failing [3] order course found
  obtain ⟨member, fails⟩ := early attempt last fun missing isMissing =>
    .inr (settled missing (lacked ▸ isMissing))
  obtain ⟨_, step, agrees⟩ := fails 1 (.input 1 (.ofError false)) blamed
  obtain ⟨final, isFinal, _, _, foremost⟩ :=
    later member phase 1 _ (Graph.result?_of_failure? failed)
  refine ⟨_, moves, now, attempt, course, last, unhandled, step,
    agrees _ rfl steady_picky 0, final, isFinal, foremost (Option.isNone_iff_eq_none.mp quiet)⟩

end MemoGraph.Evaluator
