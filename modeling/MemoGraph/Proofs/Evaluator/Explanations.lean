import MemoGraph.Proofs.Evaluator.Consistency
import MemoGraph.Proofs.Round.Explanations

namespace MemoGraph.Evaluator

variable {κ ν φ : Type} [Key κ] {evaluator after : Evaluator κ ν φ}

abbrev Explained (evaluator : Evaluator κ ν φ) : Prop := evaluator.graph.Explained

theorem Firm.dated_next (firm : evaluator.Firm) (key : κ) (result : Result κ ν φ)
    (memo : (evaluator.graph.nodeAt key).memo = .dirty result) :
    (evaluator.graph.nodeAt key).lastEvaluated < evaluator.version.next :=
  Nat.lt_succ_of_lt (firm.grounded.dirty_lt key result memo)

theorem Explained.invalidateFor (explained : evaluator.Explained) (tidy : Tidy evaluator)
    (firm : evaluator.Firm) (reason : Reason) (keys : List κ) :
    (evaluator.invalidateFor reason keys).1.Explained := by
  have marked := evaluator.invalidateFor_marked reason keys
  have shifts := marked.shifts tidy.linked fun key =>
    Nat.lt_succ_of_le (firm.grounded.evaluated_le key)
  exact explained.shift shifts firm.dated_next fun _ _ never => never.elim

theorem Explained.retryTransient (explained : evaluator.Explained) (tidy : Tidy evaluator)
    (firm : evaluator.Firm) : evaluator.retryTransient.Explained := by
  have cleared : Explained { evaluator with retries := [] } := explained
  exact retryTransient_kept Explained explained
    (cleared.invalidateFor ⟨tidy.rested, tidy.linked⟩ firm .transientRetry)

theorem Explained.prune (explained : evaluator.Explained) (tidy : Tidy evaluator)
    (keep : List κ) : (evaluator.prune keep).1.Explained := by
  refine Graph.Explained.restrict explained (fun key => evaluator.kept keep key = true)
    (fun key isKept => ?_) (fun key gone => ?_)
    fun key isKept dependency needed => kept_of_dependency tidy isKept needed
  · rw [nodeAt_prune, if_pos isKept]
    rfl
  · rw [nodeAt_prune, if_neg gone]

variable [BEq ν]

theorem Explained.inject (explained : evaluator.Explained) (tidy : Tidy evaluator)
    (firm : evaluator.Firm) (key : κ) (value : ν) : (evaluator.inject key value).1.Explained := by
  cases equal : (evaluator.graph.value? key).any (· == value) with
  | true =>
      exact explained.shift (shifts_inject_of_equal equal) firm.grounded.dirty_lt
        fun _ _ never => never.elim
  | false =>
      have replaced := inject_replaced tidy equal
      refine explained.shift (replaced.shifts tidy firm.grounded.evaluated_le) firm.dated_next ?_
      rintro _ failure rfl failed
      rw [replaced.self.result?] at failed
      cases failed

theorem Explained.evaluates {registry : Registry κ ν φ} {roots : List κ}
    {answer : Except Stop (Results κ ν φ)} (explained : evaluator.Explained)
    (tidy : Tidy evaluator) (firm : evaluator.Firm)
    (evaluates : Evaluates registry evaluator roots after answer) : after.Explained := by
  obtain ⟨ends⟩ := evaluates
  have rested := tidy.rested_opening roots
  exact ends.explained (nodup_distinct roots) rested (firm.retryTransient tidy)
    (explained.retryTransient tidy firm)

theorem Explained.turn (explained : evaluator.Explained) (tidy : Tidy evaluator)
    (firm : evaluator.Firm) (turn : Turn evaluator after) : after.Explained := by
  cases turn with
  | inject key value => exact explained.inject tidy firm key value
  | invalidate keys => exact explained.invalidateFor tidy firm .manual keys
  | prune keep => exact explained.prune tidy keep
  | interrupt => exact explained
  | evaluate registry evaluates => exact explained.evaluates tidy firm evaluates

theorem Reachable.explained (reachable : Reachable evaluator) : evaluator.Explained :=
  reachable.invariant (fun _ => .empty)
    fun earlier turn explained => explained.turn earlier.tidy earlier.firm turn

/-- After any history: a key that has failed has a failure of its own. If that
blames a dependency, the dependency is recorded, has failed itself, and its
failure is the cause, which also decides whether the failure lasts. So the keys
from a failure down to its root are recorded dependencies of each other and
have all failed, and the root is the failure of the last of them. -/
theorem failures_are_live (reachable : Reachable evaluator) {key : κ}
    (failed : evaluator.graph.state? key = some .error) :
    ∃ failure, evaluator.graph.failure? key = some failure ∧ failure.key = key ∧
      (∀ owner dependency cause, failure = .dependency owner dependency cause →
        owner = key ∧ dependency ∈ evaluator.graph.dependencies key ∧
          evaluator.graph.state? dependency = some .error ∧
          evaluator.graph.failure? dependency = some cause ∧
          failure.transience = cause.transience) ∧
      failure.chain.head? = some key ∧
      List.IsChain (fun user dependency => dependency ∈ evaluator.graph.dependencies user)
        failure.chain ∧
      (∀ member ∈ failure.chain, evaluator.graph.state? member = some .error) ∧
      ∃ last, failure.chain.getLast? = some last ∧
        evaluator.graph.failure? last = some failure.root := by
  have explained := reachable.explained
  obtain ⟨failure, found⟩ := Graph.exists_failure? failed
  have owner := explained.key_of_failure? found
  obtain ⟨linked, live, root⟩ := explained.chain found
  refine ⟨failure, found, owner, ?blamed, ?_, linked, live, _, failure.getLast?_chain, root⟩
  case blamed =>
    rintro user dependency cause rfl
    obtain ⟨needed, isCause⟩ := explained.blamed_of_failure? found
    exact ⟨owner, needed, Graph.state?_of_failure? isCause, isCause, rfl⟩
  · rw [failure.head?_chain, owner]

/-- Every key asks for the one before it, and the first one crashes. -/
def avalanche : Registry Nat Nat Empty where
  kindName _ := "avalanche"
  function? key := some fun _ =>
    match key with
    | 0 => .finish (.crashed none)
    | key + 1 => .request [key] none fun _ => .check (.finish (.value key))

/-- The crash has come up to the third key, and is found below it. -/
theorem failures_are_live_avalanche : ∃ evaluator : Evaluator Nat Nat Empty, Reachable evaluator ∧
    evaluator.graph.state? 2 = some .error ∧
    (evaluator.graph.failure? 2).map Failure.chain = some [2, 1, 0] ∧
    ∃ failure, evaluator.graph.failure? 2 = some failure ∧
      (∀ member ∈ failure.chain, evaluator.graph.state? member = some .error) ∧
      ∃ last, failure.chain.getLast? = some last ∧
        evaluator.graph.failure? last = some failure.root := by
  have start : Reachable ({ settings := {} } : Evaluator Nat Nat Empty) := ⟨{}, .refl⟩
  have reachable := start.turn (.evaluate avalanche (evaluate_evaluates avalanche 50 _ [2]))
  have failed : ((({ settings := {} } : Evaluator Nat Nat Empty).evaluate avalanche 50 [2]).1
      |>.graph.state? 2) = some .error := by decide +kernel
  obtain ⟨failure, found, _, _, _, _, live, last⟩ := failures_are_live reachable failed
  exact ⟨_, reachable, failed, by decide +kernel, failure, found, live, last⟩

end MemoGraph.Evaluator
