import MemoGraph.Proofs.Evaluator.Consistency
import MemoGraph.Proofs.Evaluator.Retries
import MemoGraph.Proofs.Round.Commits

namespace MemoGraph

open Round (Backed commitBacking)

variable {κ ν φ : Type}

/-- What the backing asks, of all keys but one. -/
def Backing.besides (backing : Backing κ ν φ) (key : κ) : Backing κ ν φ where
  holds other result dependencies results :=
    other = key ∨ backing.holds other result dependencies results
  fleeting := backing.fleeting
  congr same := Or.imp_right (backing.congr same)

theorem Failure.not_cycle_of_error? {failure : Failure κ φ} {error : φ}
    (raised : failure.error? = some error) : failure.isCycle = false := by
  induction failure with
  | dependency _ _ _ ih => exact ih raised
  | cycle => cases raised
  | _ => rfl

variable [Key κ]

/-- Both keys are done, and the second depends on the first. -/
def Graph.Upholds (graph : Graph κ ν φ) (dependency key : κ) : Prop :=
  graph.state? dependency = some .done ∧ graph.state? key = some .done ∧
    dependency ∈ (graph.nodeAt key).dependencies

namespace Evaluator

variable [BEq ν] {evaluator : Evaluator κ ν φ} {commits : Commits κ φ}

/-- What can become of a new evaluator, and for every key the run of its
function that gave it its last result. A value from outside takes the place of
what a run has found, unless it equals that. -/
inductive Follows : Evaluator κ ν φ → Commits κ φ → Prop
  | new (settings : Settings) : Follows { settings } fun _ => none
  | inject {evaluator : Evaluator κ ν φ} {commits : Commits κ φ}
      (follows : Follows evaluator commits) (key : κ) (value : ν) :
      Follows (evaluator.inject key value).1
        (if (evaluator.graph.value? key).any (· == value) then commits
          else Function.update commits key none)
  | invalidate {evaluator : Evaluator κ ν φ} {commits : Commits κ φ}
      (follows : Follows evaluator commits) (keys : List κ) :
      Follows (evaluator.invalidate keys).1 commits
  | prune {evaluator : Evaluator κ ν φ} {commits : Commits κ φ}
      (follows : Follows evaluator commits) (keep : List κ) :
      Follows (evaluator.prune keep).1 commits
  | interrupt {evaluator : Evaluator κ ν φ} {commits : Commits κ φ}
      (follows : Follows evaluator commits) : Follows evaluator.interrupt commits
  | evaluate {evaluator : Evaluator κ ν φ} {commits later : Commits κ φ} {roots : List κ}
      {final : Round κ ν φ} {halt : Round.Halt} (registry : Registry κ ν φ)
      (follows : Follows evaluator commits)
      (traced : Round.EndsTraced (Round.commits registry) registry (distinct roots)
        (evaluator.opening roots) commits final halt later) :
      Follows (evaluator.retryTransient.closeRound final halt) later

theorem Follows.reachable (follows : Follows evaluator commits) : Reachable evaluator := by
  induction follows with
  | new settings => exact ⟨settings, .refl⟩
  | inject _ key value ih => exact ih.turn (.inject _ key value)
  | invalidate _ keys ih => exact ih.turn (.invalidate _ keys)
  | prune _ keep ih => exact ih.turn (.prune _ keep)
  | interrupt _ ih => exact ih.turn (.interrupt _)
  | evaluate registry _ traced ih => exact ih.turn (.evaluate registry (.intro traced.ends))

theorem Reachable.follows (reachable : Reachable evaluator) :
    ∃ commits, Follows evaluator commits := by
  obtain ⟨settings, turns⟩ := reachable
  induction turns with
  | refl => exact ⟨_, .new settings⟩
  | tail _ turn ih =>
      obtain ⟨commits, follows⟩ := ih
      cases turn with
      | inject key value => exact ⟨_, follows.inject key value⟩
      | invalidate keys => exact ⟨_, follows.invalidate keys⟩
      | prune keep => exact ⟨_, follows.prune keep⟩
      | interrupt => exact ⟨_, follows.interrupt⟩
      | evaluate registry evaluates =>
          obtain ⟨ends⟩ := evaluates
          obtain ⟨later, traced⟩ := ends.traced (Round.commits registry) commits
          exact ⟨later, follows.evaluate registry traced⟩

section Inject

variable {key : κ} {value : ν}

theorem Grounded.note_of_equal (grounded : Grounded (commitBacking commits evaluator.Injected)
    evaluator) (tidy : Tidy evaluator)
    (equal : (evaluator.graph.value? key).any (· == value) = true) :
    Grounded (commitBacking commits (evaluator.inject key value).1.Injected)
      (evaluator.inject key value).1 := by
  have stays : ∀ other, evaluator.Injected other →
      (evaluator.inject key value).1.Injected other := fun other own =>
    (injected_inject tidy key value other).mpr (.inl own)
  exact (grounded.inject_of_equal equal).rebase id
    (fun other _ _ _ backed => Backed.mono backed (stays other))
    fun other _ _ _ backed => .inr (Backed.mono backed (stays other))

theorem Grounded.note_of_different
    (grounded : Grounded (commitBacking commits evaluator.Injected) evaluator)
    (tidy : Tidy evaluator) (different : (evaluator.graph.value? key).any (· == value) = false) :
    Grounded (commitBacking (Function.update commits key none)
      (evaluator.inject key value).1.Injected) (evaluator.inject key value).1 := by
  have replaced := inject_replaced tidy different
  have others : ∀ (other : κ) (result : Result κ ν φ) (results : κ → Option (Result κ ν φ)),
      Backed (commits other) (evaluator.Injected other) result
          (evaluator.graph.nodeAt other).dependencies results →
        other = key ∨ Backed (Function.update commits key none other)
          ((evaluator.inject key value).1.Injected other) result
          (evaluator.graph.nodeAt other).dependencies results := by
    intro other result results backed
    by_cases same : other = key
    · exact .inl same
    · rw [Function.update_of_ne same]
      exact .inr (backed.mono fun own => (injected_inject tidy key value other).mpr (.inl own))
  -- What the key had may be unbacked by now, so nothing is asked of it before it has the value.
  have weakened : Grounded ((commitBacking (Function.update commits key none)
      (evaluator.inject key value).1.Injected).besides key) evaluator :=
    grounded.rebase id (fun other result results _ => others other result results)
      fun other result results _ backed => .inr (others other result results backed)
  refine (weakened.inject_of_different tidy different fun _ => .inl rfl).rebase id
    (fun other result results _ backed => ?_) fun other result results memo backed => ?_
  · rcases backed with rfl | backed
    · rw [replaced.self.dependencies]
      intro _ _
      rw [Function.update_self]
      exact ⟨fun _ => ⟨replaced.self.injected, rfl⟩, nofun⟩
    · exact backed
  · rcases backed with rfl | backed
    · rw [replaced.self.memo] at memo
      cases memo
    · exact .inr backed

end Inject

theorem Follows.grounded (follows : Follows evaluator commits) :
    Grounded (commitBacking commits evaluator.Injected) evaluator := by
  induction follows with
  | new settings => exact .empty _
  | @inject evaluator commits follows key value ih =>
      have tidy := follows.reachable.tidy
      cases equal : (evaluator.graph.value? key).any (· == value) with
      | true =>
          rw [if_pos rfl]
          exact ih.note_of_equal tidy equal
      | false =>
          rw [if_neg Bool.false_ne_true]
          exact ih.note_of_different tidy equal
  | invalidate follows keys ih =>
      unfold Evaluator.invalidate
      rw [injected_invalidateFor]
      exact ih.invalidateFor follows.reachable.tidy .manual keys
  | prune follows keep ih =>
      rw [injected_prune follows.reachable.tidy]
      exact ih.prune follows.reachable.tidy keep
  | interrupt _ ih => exact ih
  | evaluate registry follows traced ih =>
      have tidy := follows.reachable.tidy
      have rested := tidy.retryTransient.rested
      have grounded := traced.grounded (nodup_distinct _) rested (ih.retryTransient tidy)
      rw [injected_evaluates tidy (.intro traced.ends)]
      exact Grounded.closeRound tidy traced.ends grounded

/-- After any history, what is done does not rest on itself. A value that a
function gave was given by a run that asked for exactly the dependencies, and
each of them is done, or it failed with an error at its root that a handler
accepts which that run named for it. So nothing that is done depends on a key
that failed on a cycle. -/
theorem done_rests_on_handled (reachable : Reachable evaluator) :
    (∀ key, ¬ Relation.TransGen evaluator.graph.Upholds key key) ∧
    (∃ commits, Follows evaluator commits) ∧
    ∀ commits, Follows evaluator commits → ∀ key, evaluator.graph.state? key = some .done →
      ((evaluator.graph.nodeAt key).injected = false → commits key ≠ none) ∧
      (∀ attempt, commits key = some attempt →
        (evaluator.graph.nodeAt key).dependencies = attempt.requested ∧
        ∀ dependency ∈ (evaluator.graph.nodeAt key).dependencies,
          evaluator.graph.state? dependency = some .done ∨
            (evaluator.graph.state? dependency = some .error ∧
              ∃ failure error handler, evaluator.graph.failure? dependency = some failure ∧
                failure.error? = some error ∧ (dependency, handler) ∈ attempt.handlers ∧
                  handler error = true)) ∧
      ∀ dependency ∈ (evaluator.graph.nodeAt key).dependencies,
        ∀ failure, evaluator.graph.failure? dependency = some failure →
          failure.isCycle = false := by
  refine ⟨fun key circle => ?_, reachable.follows, fun commits follows key done => ?_⟩
  · have supports : ∀ {low high : κ}, evaluator.graph.Upholds low high →
        evaluator.graph.Supports low high := by
      rintro low high ⟨_, done, needed⟩
      obtain ⟨value, found⟩ := Graph.result?_of_done done
      exact ⟨_, Graph.result?_eq high ▸ found, rfl, needed⟩
    exact reachable.firm.founded.transGen.irrefl.irrefl key
      (Relation.TransGen.mono (fun _ _ => supports) key key circle)
  · obtain ⟨value, found⟩ := Graph.result?_of_done done
    rw [Graph.result?_eq] at found
    obtain ⟨settled, backed⟩ := follows.grounded.settled key _ found rfl
    obtain ⟨given, ran⟩ := backed value rfl
    have handled : ∀ attempt, commits key = some attempt →
        ∀ dependency ∈ (evaluator.graph.nodeAt key).dependencies, ∀ failure,
          evaluator.graph.result? dependency = some (.error failure) →
            ∃ error handler, failure.error? = some error ∧
              (dependency, handler) ∈ attempt.handlers ∧ handler error = true := by
      intro attempt noted dependency needed failure failed
      rw [Graph.result?_eq] at failed
      have accepted := (ran attempt noted).2 dependency needed failure failed
      obtain ⟨⟨named, handler⟩, listed, passes⟩ := List.any_eq_true.mp accepted
      rw [Bool.and_eq_true, decide_eq_true_eq] at passes
      obtain ⟨rfl, passes⟩ := passes
      obtain ⟨error, raised, accepts⟩ := (Option.any_eq_true _ _).mp passes
      exact ⟨error, handler, raised, listed, accepts⟩
    refine ⟨fun own none => ?_, fun attempt noted => ⟨(ran attempt noted).1, ?_⟩, ?_⟩
    · have injected : (evaluator.graph.nodeAt key).injected = true := (given none).1
      rw [own] at injected
      cases injected
    · intro dependency needed
      rcases Graph.isSettled_iff.mp (settled dependency needed).1 with isDone | isError
      · exact .inl isDone
      · obtain ⟨failure, failed⟩ := Graph.result?_of_error isError
        obtain ⟨error, handler, raised, listed, accepts⟩ :=
          handled attempt noted dependency needed failure failed
        refine .inr ⟨isError, failure, error, handler, ?_, raised, listed, accepts⟩
        simp [Graph.failure?, failed]
    · intro dependency needed failure failed
      cases noted : commits key with
      | none =>
          rw [(given noted).2] at needed
          exact absurd needed (Grouping.not_mem_empty dependency)
      | some attempt =>
          obtain ⟨error, _, raised, _⟩ := handled attempt noted dependency needed failure
            (Graph.result?_of_failure? failed)
          exact Failure.not_cycle_of_error? raised

/-- The first key fails with an error, which the second handles and the third
does not; the fourth rests on the second. -/
def rescue : Registry Nat Nat Bool where
  kindName _ := "rescue"
  function? key := some fun _ =>
    match key with
    | 0 => .finish (.refused (.failed (.ofError true)))
    | 1 => .request [0] (some id) fun _ => .check (.finish (.value 5))
    | 2 => .request [0] none fun _ => .check (.finish (.value 5))
    | _ => .request [1] none fun _ => .check (.finish (.value 6))

/-- The run that gave the second key its value named a handler that accepts the
error of the first. -/
theorem done_rests_on_handled_rescue : ∃ evaluator : Evaluator Nat Nat Bool,
    Reachable evaluator ∧
    [0, 1, 2, 3].map evaluator.graph.state? =
      [some .error, some .done, some .error, some .done] ∧
    ∀ commits, Follows evaluator commits → ∃ attempt handler, commits 1 = some attempt ∧
      (0, handler) ∈ attempt.handlers ∧ handler true = true := by
  have new : Reachable ({ settings := {} } : Evaluator Nat Nat Bool) := ⟨{}, .refl⟩
  have reachable := new.turn (.evaluate rescue (evaluate_evaluates rescue 50 _ [2, 3]))
  refine ⟨_, reachable, by decide +kernel, fun commits follows => ?_⟩
  obtain ⟨ran, handled, _⟩ :=
    (done_rests_on_handled reachable).2.2 commits follows 1 (by decide +kernel)
  obtain ⟨attempt, noted⟩ := Option.ne_none_iff_exists'.mp (ran (by decide +kernel))
  obtain ⟨_, rests⟩ := handled attempt noted
  rcases rests 0 (by decide +kernel) with done | ⟨_, failure, error, handler, failed, raised,
    listed, accepts⟩
  · exact absurd done (by decide +kernel)
  · have isFailure : failure = .input 0 (.ofError true) :=
      (Option.some.inj (failed.symm.trans (by decide +kernel)))
    subst isFailure
    obtain rfl : true = error := Option.some.inj raised
    exact ⟨attempt, handler, noted, listed, accepts⟩

end Evaluator

end MemoGraph
