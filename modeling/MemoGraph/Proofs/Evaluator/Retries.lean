import MemoGraph.Proofs.Evaluator.Histories
import MemoGraph.Proofs.Round.Retries

namespace MemoGraph.Evaluator

variable {κ ν φ : Type} [Key κ] {evaluator after : Evaluator κ ν φ} {key : κ}

def Injected (evaluator : Evaluator κ ν φ) (key : κ) : Prop :=
  (evaluator.graph.nodeAt key).injected = true

/-- What was computed and failed transiently, and may be taken to have failed
still, is to be attempted again. -/
def Noted (evaluator : Evaluator κ ν φ) : Prop :=
  ∀ key result, ¬ evaluator.Injected key →
    (evaluator.graph.nodeAt key).memo = .valid result ∨
      (evaluator.graph.nodeAt key).memo = .dirty result →
    Round.isTransient result = true → key ∈ evaluator.retries

theorem Noted.empty (settings : Settings) : Noted ({ settings } : Evaluator κ ν φ) := by
  rintro key result _ (memo | memo) <;> cases memo

theorem injected_invalidateFor (reason : Reason) (keys : List κ) :
    (evaluator.invalidateFor reason keys).1.Injected = evaluator.Injected := by
  funext key
  unfold Injected
  rw [((evaluator.invalidateFor_marked reason keys).nodes key).injected]

theorem Noted.invalidateFor (noted : Noted evaluator) (reason : Reason) (keys : List κ) :
    Noted (evaluator.invalidateFor reason keys).1 := by
  intro key result own memo
  rw [injected_invalidateFor] at own
  have marked := (evaluator.invalidateFor_marked reason keys).nodes key
  exact noted key result own (marked.remembered memo)

theorem injected_retryTransient : evaluator.retryTransient.Injected = evaluator.Injected :=
  retryTransient_kept (fun later => later.Injected = evaluator.Injected) rfl
    (injected_invalidateFor .transientRetry)

/-- Before a round begins, computed results that may still hold are lasting. -/
theorem Noted.lasting_retryTransient (noted : Noted evaluator) (tidy : Tidy evaluator)
    (own : ¬ evaluator.Injected key) {result : Result κ ν φ}
    (memo : (evaluator.retryTransient.graph.nodeAt key).memo = .valid result ∨
      (evaluator.retryTransient.graph.nodeAt key).memo = .dirty result) :
    Round.isTransient result = false := by
  by_contra passes
  rw [Bool.not_eq_false] at passes
  unfold Evaluator.retryTransient at memo
  split at memo
  · rename_i nothing
    have listed := noted key result own memo passes
    rw [nothing] at listed
    cases listed
  · obtain ⟨marked, computing⟩ :=
      Graph.invalidate_spec evaluator.graph evaluator.retries .transientRetry
    have listed := noted key result own ((marked.nodes key).remembered memo) passes
    have again := computing key listed (eq_false_of_ne_true own) (tidy.rested key)
    change ((evaluator.graph.invalidate evaluator.retries .transientRetry).graph.nodeAt
      key).memo = .valid result ∨ ((evaluator.graph.invalidate evaluator.retries
        .transientRetry).graph.nodeAt key).memo = .dirty result at memo
    rcases memo with memo | memo <;> rw [memo] at again <;> cases again

theorem injected_prune (tidy : Tidy evaluator) (keep : List κ) :
    (evaluator.prune keep).1.Injected = evaluator.Injected := by
  funext key
  unfold Injected
  rw [nodeAt_prune]
  split
  · rfl
  · rename_i gone
    refine propext ⟨(nomatch ·), fun injected => ?_⟩
    exact absurd (kept_of_injected tidy keep injected) gone

theorem Noted.prune (noted : Noted evaluator) (keep : List κ) :
    Noted (evaluator.prune keep).1 := by
  intro key result own memo passes
  unfold Injected at own
  rw [nodeAt_prune] at memo own
  split at memo
  · rename_i isKept
    rw [if_pos isKept] at own
    exact List.mem_filter.mpr ⟨noted key result own memo passes, isKept⟩
  · rcases memo with memo | memo <;> cases memo

variable [BEq ν]

theorem injected_inject (tidy : Tidy evaluator) (key : κ) (value : ν) (other : κ) :
    (evaluator.inject key value).1.Injected other ↔ evaluator.Injected other ∨ other = key := by
  unfold Injected
  cases equal : (evaluator.graph.value? key).any (· == value) with
  | true =>
      rw [nodeAt_inject_of_equal equal]
      by_cases same : other = key <;> simp [same]
  | false =>
      have replaced := inject_replaced tidy equal
      by_cases same : other = key
      · simp [same, replaced.self.injected]
      · rcases replaced.others other same with alike | ⟨_, _, alike⟩ <;>
          simp [alike.injected, same]

theorem Noted.inject (noted : Noted evaluator) (tidy : Tidy evaluator) (key : κ) (value : ν) :
    Noted (evaluator.inject key value).1 := by
  intro other result own memo passes
  rw [injected_inject tidy, not_or] at own
  obtain ⟨own, different⟩ := own
  cases equal : (evaluator.graph.value? key).any (· == value) with
  | true =>
      rw [nodeAt_inject_of_equal equal, if_neg different] at memo
      rw [inject_of_equal equal]
      exact noted other result own memo passes
  | false =>
      have replaced := inject_replaced tidy equal
      rw [replaced.retries]
      refine noted other result own ?_ passes
      rcases replaced.others other different with alike | ⟨lost, valid, alike⟩
      · rwa [alike.memo] at memo
      · rw [alike.memo] at memo
        have isLost : lost = result := by simpa using memo
        exact .inl (isLost ▸ (Node.result?_eq_some_iff.mp valid).2)

section Evaluate

variable {registry : Registry κ ν φ} {roots : List κ} {answer : Except Stop (Results κ ν φ)}

theorem injected_evaluates (tidy : Tidy evaluator)
    (evaluates : Evaluates registry evaluator roots after answer) :
    after.Injected = evaluator.Injected := by
  obtain ⟨ends⟩ := evaluates
  rw [← @injected_retryTransient κ ν φ _ evaluator]
  funext key
  exact congrArg (· = true)
    (ends.injected (nodup_distinct roots) (tidy.rested_opening roots) key)

theorem Noted.evaluates (noted : Noted evaluator) (tidy : Tidy evaluator)
    (evaluates : Evaluates registry evaluator roots after answer) : Noted after := by
  intro key result own memo passes
  rw [injected_evaluates tidy evaluates] at own
  obtain ⟨ends⟩ := evaluates
  have unique := nodup_distinct roots
  have rested := tidy.rested_opening roots
  have opened : (evaluator.opening roots).Noted := by
    intro other given notInjected may transient
    have notOwn : ¬ evaluator.Injected other := by
      rw [← injected_retryTransient]
      exact ne_true_of_eq_false notInjected
    rw [noted.lasting_retryTransient tidy notOwn may] at transient
    cases transient
  rw [← injected_retryTransient] at own
  refine List.mem_append_right _ (ends.noted unique rested opened key result ?_ memo passes)
  rw [ends.injected unique rested]
  exact eq_false_of_ne_true own

theorem Noted.turn (noted : Noted evaluator) (tidy : Tidy evaluator)
    (turn : Turn evaluator after) : Noted after := by
  cases turn with
  | inject key value => exact noted.inject tidy key value
  | invalidate keys => exact noted.invalidateFor .manual keys
  | prune keep => exact noted.prune keep
  | interrupt => exact noted
  | evaluate registry evaluates => exact noted.evaluates tidy evaluates

theorem Reachable.noted (reachable : Reachable evaluator) : Noted evaluator :=
  reachable.invariant .empty fun earlier turn noted => noted.turn earlier.tidy turn

end Evaluate

end MemoGraph.Evaluator
