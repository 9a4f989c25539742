import MemoGraph.Proofs.Evaluator.Consistency
import MemoGraph.Proofs.Evaluator.Retries

namespace MemoGraph

namespace Node

variable {κ ν φ : Type} {node other : Node κ ν φ} {version later : Version}

/-- A result changed when the node was evaluated or earlier, and one that may no
longer hold is older than the given version. -/
structure Dated (version : Version) (node : Node κ ν φ) : Prop where
  changed_le : node.lastChanged ≤ node.lastEvaluated
  evaluated_le : node.lastEvaluated ≤ version
  outdated_lt : ∀ result, node.memo = .dirty result ∨ node.memo = .changed result →
    node.lastEvaluated < version

theorem Dated.blank (version : Version) : Dated version ({} : Node κ ν φ) where
  changed_le := Nat.le_refl _
  evaluated_le := Nat.zero_le version
  outdated_lt _ memo := by simp at memo

theorem Dated.of_bare (same : node.bare = other.bare) (dated : other.Dated version) :
    node.Dated version := by
  have changed : node.lastChanged = other.lastChanged := (Node.mk.inj same).2.2.2.1
  have evaluated : node.lastEvaluated = other.lastEvaluated := (Node.mk.inj same).2.2.2.2.1
  constructor
  · rw [changed, evaluated]
    exact dated.changed_le
  · rw [evaluated]
    exact dated.evaluated_le
  · rw [memo_of_bare same, evaluated]
    exact dated.outdated_lt

theorem bare_filterDependents (keep : κ → Bool) : (node.filterDependents keep).bare = node.bare :=
  rfl

theorem Dated.outdate (dated : node.Dated version) (order : version < later) (memo : Memo κ ν φ) :
    ({ node with memo } : Node κ ν φ).Dated later where
  changed_le := dated.changed_le
  evaluated_le := Nat.le_of_lt (Nat.lt_of_le_of_lt dated.evaluated_le order)
  outdated_lt _ _ := Nat.lt_of_le_of_lt dated.evaluated_le order

theorem Dated.marked (dated : node.Dated version) (marked : Marked node other)
    (order : version < later) : other.Dated later := by
  rcases marked with (rfl | ⟨_, _, rfl⟩) | ⟨_, _, _, _, rfl⟩
  · exact dated.outdate order other.memo
  · exact dated.outdate order _
  · exact dated.outdate order _

theorem stays_dated [BEq ν] (version : Version) :
    Stays version (Dated version : Node κ ν φ → Prop) where
  bare := Dated.of_bare
  commit {node} result dependencies dated := by
    constructor
    · rw [commit_eq]
      by_cases kept : node.keeps result = true
      · rw [kept]
        exact Nat.le_trans dated.changed_le dated.evaluated_le
      · rw [eq_false_of_ne_true kept]
        exact Nat.le_refl version
    · exact Nat.le_refl version
    · intro other memo
      simp [commit_eq] at memo
  revalidate {node result} memo dated := by
    constructor
    · exact Nat.le_trans dated.changed_le dated.evaluated_le
    · exact Nat.le_refl version
    · intro other impossible
      simp [revalidate, memo, Memo.result?] at impossible

theorem memo_of_state (outdated : node.state = .dirty ∨ node.state = .changed) :
    ∃ result, node.memo = .dirty result ∨ node.memo = .changed result := by
  obtain ⟨memo, _, _, _, _, _, work⟩ := node
  cases work with
  | some work => simp [state] at outdated
  | none =>
      cases memo with
      | blank => simp [state, Memo.state] at outdated
      | valid result => cases result <;> simp [state, Memo.state] at outdated
      | dirty result => exact ⟨result, .inl rfl⟩
      | changed result => exact ⟨result, .inr rfl⟩

end Node

namespace Evaluator

variable {κ ν φ : Type} [Key κ] {evaluator after : Evaluator κ ν φ} {key : κ}

def Dated (evaluator : Evaluator κ ν φ) : Prop :=
  ∀ key, (evaluator.graph.nodeAt key).Dated evaluator.version

theorem Dated.invalidateFor (dated : evaluator.Dated) (reason : Reason) (keys : List κ) :
    (evaluator.invalidateFor reason keys).1.Dated := fun key =>
  (dated key).marked ((evaluator.invalidateFor_marked reason keys).nodes key)
    (Nat.lt_succ_self evaluator.version)

theorem Dated.retryTransient (dated : evaluator.Dated) : evaluator.retryTransient.Dated := by
  have cleared : Dated { evaluator with retries := [] } := dated
  exact retryTransient_kept Dated dated (cleared.invalidateFor .transientRetry)

theorem Dated.prune (dated : evaluator.Dated) (keep : List κ) :
    (evaluator.prune keep).1.Dated := by
  intro key
  rw [nodeAt_prune]
  split
  · have kept : (evaluator.graph.nodeAt key).Dated (evaluator.prune keep).1.version := dated key
    exact .of_bare (Node.bare_filterDependents _) kept
  · exact .blank _

variable [BEq ν]

theorem Dated.inject (dated : evaluator.Dated) (tidy : Tidy evaluator) (key : κ) (value : ν) :
    (evaluator.inject key value).1.Dated := by
  intro other
  cases equal : (evaluator.graph.value? key).any (· == value) with
  | true =>
      rw [nodeAt_inject_of_equal equal, inject_of_equal equal]
      split
      · exact ⟨(dated key).changed_le, (dated key).evaluated_le, (dated key).outdated_lt⟩
      · exact dated other
  | false =>
      have replaced := inject_replaced tidy equal
      have order := Nat.lt_succ_self evaluator.version
      rw [replaced.version]
      by_cases same : other = key
      · subst same
        refine .of_bare replaced.self.bare ⟨Nat.le_refl _, Nat.le_refl _, fun _ memo => ?_⟩
        simp at memo
      · rcases replaced.others other same with alike | ⟨result, _, alike⟩
        · exact .of_bare alike.bare ((dated other).outdate order _)
        · exact .of_bare alike.bare ((dated other).outdate order _)

theorem Dated.turn (dated : evaluator.Dated) (tidy : Tidy evaluator)
    (turn : Turn evaluator after) : after.Dated := by
  cases turn with
  | inject key value => exact dated.inject tidy key value
  | invalidate keys => exact dated.invalidateFor .manual keys
  | prune keep => exact dated.prune keep
  | interrupt => exact dated
  | evaluate registry evaluates =>
      obtain ⟨ends⟩ := evaluates
      exact fun key => ends.stays (nodup_distinct _) (tidy.rested_opening _)
        (Node.stays_dated _) (dated.retryTransient key)

theorem Reachable.dated (reachable : Reachable evaluator) : evaluator.Dated :=
  reachable.invariant (fun _ _ => .blank _) fun earlier turn dated => dated.turn earlier.tidy turn

/-- After any history, what a round finds done when it begins, or failed though
not set from outside, rests on results that did not change since it was last
evaluated. Versions are in order between calls, and what is dirty or changed was
last evaluated at an earlier version. -/
theorem cached_results_hold (reachable : Reachable evaluator) (roots : List κ) :
    (∀ key, (evaluator.opening roots).graph.state? key = some .done ∨
        ((evaluator.opening roots).graph.state? key = some .error ∧
          ((evaluator.opening roots).graph.nodeAt key).injected = false) →
      ∀ dependency ∈ ((evaluator.opening roots).graph.nodeAt key).dependencies,
        ((evaluator.opening roots).graph.state? dependency = some .done ∨
          (evaluator.opening roots).graph.state? dependency = some .error) ∧
        ((evaluator.opening roots).graph.nodeAt dependency).lastChanged ≤
          ((evaluator.opening roots).graph.nodeAt key).lastEvaluated) ∧
    ∀ key, (evaluator.graph.nodeAt key).lastChanged ≤ (evaluator.graph.nodeAt key).lastEvaluated ∧
      (evaluator.graph.nodeAt key).lastEvaluated ≤ evaluator.version ∧
      (evaluator.graph.state? key = some .dirty ∨ evaluator.graph.state? key = some .changed →
        (evaluator.graph.nodeAt key).lastEvaluated < evaluator.version) := by
  have tidy := reachable.tidy
  constructor
  · intro key held
    have lasting : ∃ result, ((evaluator.opening roots).graph.nodeAt key).result? = some result ∧
        Round.isTransient result = false := by
      rcases held with done | ⟨failed, own⟩
      · obtain ⟨value, found⟩ := Graph.result?_of_done done
        exact ⟨_, Graph.result?_eq key ▸ found, rfl⟩
      · obtain ⟨failure, found⟩ := Graph.result?_of_error failed
        rw [Graph.result?_eq] at found
        have computed : ¬ evaluator.Injected key := by
          rw [← injected_retryTransient]
          exact ne_true_of_eq_false own
        exact ⟨_, found, reachable.noted.lasting_retryTransient tidy computed
          (.inl (Node.result?_eq_some_iff.mp found).2)⟩
    obtain ⟨result, found, stays⟩ := lasting
    have firm : (evaluator.opening roots).Firm := reachable.firm.retryTransient tidy
    intro dependency needed
    obtain ⟨settled, older⟩ := (firm.grounded.settled key result found stays).1 dependency needed
    exact ⟨Graph.isSettled_iff.mp settled, older⟩
  · intro key
    have dated := reachable.dated key
    refine ⟨dated.changed_le, dated.evaluated_le, fun outdated => ?_⟩
    have known : (evaluator.graph.nodeAt key).state = .dirty ∨
        (evaluator.graph.nodeAt key).state = .changed := by
      refine outdated.imp (fun dirty => ?_) fun changed => ?_
      · obtain ⟨node, found, state⟩ := Option.map_eq_some_iff.mp dirty
        rw [Graph.nodeAt_of_node? found, state]
      · obtain ⟨node, found, state⟩ := Option.map_eq_some_iff.mp changed
        rw [Graph.nodeAt_of_node? found, state]
    obtain ⟨result, memo⟩ := Node.memo_of_state known
    exact dated.outdated_lt result memo

/-- What failed on a cycle or crashed is to be computed again when the next round
begins, and what is done still holds. -/
theorem cached_results_hold_tangle : ∃ evaluator : Evaluator Nat Nat Empty, Reachable evaluator ∧
    [0, 1, 2, 4].map (evaluator.opening [1]).graph.state? =
      [some .done, some .done, some .changed, some .changed] ∧
    ((evaluator.opening [1]).graph.nodeAt 0).lastChanged ≤
      ((evaluator.opening [1]).graph.nodeAt 1).lastEvaluated := by
  have built : Reachable (build {} [(0, 7)] : Evaluator Nat Nat Empty) := .build ..
  have reachable := built.turn (.evaluate tangle (evaluate_evaluates tangle 50 _ [1, 2, 4]))
  refine ⟨_, reachable, by decide +kernel, ?_⟩
  exact ((cached_results_hold reachable [1]).1 1 (.inl (by decide +kernel)) 0
    (by decide +kernel)).2

end Evaluator

end MemoGraph
