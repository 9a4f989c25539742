import MemoGraph.Proofs.Evaluator.Histories

namespace MemoGraph

theorem Results.get?_of_mem {κ ν φ : Type} [DecidableEq κ] {roots : List κ} {root : κ}
    (member : root ∈ roots) (result : κ → Result κ ν φ) :
    Results.get? ⟨roots.map fun root => (root, result root)⟩ root = some (result root) := by
  unfold Results.get?
  induction roots with
  | nil => cases member
  | cons first rest ih =>
      rw [List.map_cons, List.lookup_cons]
      by_cases same : root = first
      · simp [same]
      · rw [beq_eq_false_iff_ne.mpr same]
        exact ih ((List.mem_cons.mp member).resolve_left same)

namespace Evaluator

variable {κ ν φ : Type} [Key κ] [BEq ν] {evaluator : Evaluator κ ν φ}

/-- After any history, whatever the functions do and in whatever order keys are
stepped: when no key is ready but some are worked on, some of them wait in a
circle, and when breaking the circles makes no key ready, nothing is worked on
any more. So an evaluation that is not cut short works on nothing in the end,
and answers for every root with the result that the root has then. -/
theorem never_stalls (reachable : Reachable evaluator) (registry : Registry κ ν φ)
    (roots : List κ) :
    (∀ ready last, ready.Perm ((evaluator.opening roots).begin (distinct roots)).2 →
      Round.Advances registry (distinct roots)
        (((evaluator.opening roots).begin (distinct roots)).1, ready) (last, []) →
      ((∃ key, last.isEvaluating key = true) →
        (last.waits (distinct roots)).cyclicComponents ≠ []) ∧
      ((last.waits (distinct roots)).vertices = [] ∨
        (last.waits (distinct roots)).cyclicComponents ≠ []) ∧
      ((last.breakDeadlock (distinct roots)).2 = [] →
        ∀ key, (last.breakDeadlock (distinct roots)).1.isEvaluating key = false)) ∧
    ∀ after results, Evaluates registry evaluator roots after (.ok results) →
      (∀ key, after.graph.state? key ≠ some .evaluating) ∧
      ∀ root ∈ roots, results.get? root = after.graph.result? root ∧
        ((after.graph.state? root = some .done ∧
            ∃ value, after.graph.result? root = some (.ok value)) ∨
          (after.graph.state? root = some .error ∧
            ∃ failure, after.graph.result? root = some (.error failure))) := by
  have rested := reachable.tidy.rested_opening roots
  have unique := nodup_distinct roots
  constructor
  · intro ready last order moves
    have inOrder := (Round.InOrder.begin unique rested order).advances moves
    have cyclic : (∃ key, last.isEvaluating key = true) →
        (last.waits (distinct roots)).cyclicComponents ≠ [] := by
      rintro ⟨key, evaluating⟩
      exact Round.cyclicComponents_ne_nil _ inOrder.waiting evaluating
    refine ⟨cyclic, ?_, Round.isEvaluating_of_breakDeadlock_nil inOrder.waiting⟩
    cases stuck : (last.waits (distinct roots)).vertices with
    | nil => exact .inl rfl
    | cons key others =>
        refine .inr (cyclic ⟨key, (Round.mem_stuck (distinct roots) inOrder.waiting).mp ?_⟩)
        show key ∈ (last.waits (distinct roots)).vertices
        rw [stuck]
        exact List.mem_cons_self
  · intro after results evaluates
    obtain ⟨final, ends, rfl, rfl⟩ := evaluates.complete
    obtain ⟨idle, settled⟩ := ends.settled unique rested
    refine ⟨fun key evaluating => ?_, fun root isRoot => ?_⟩
    · have busy : final.isEvaluating key = true := decide_eq_true evaluating
      rw [idle key] at busy
      cases busy
    · have isDistinct := mem_distinct.mpr isRoot
      have found := settled root isDistinct
      unfold Round.isSettled Node.isSettled at found
      rw [← Graph.result?_eq] at found
      obtain ⟨result, isResult⟩ := Option.isSome_iff_exists.mp found
      show Results.get? _ root = final.graph.result? root ∧
        ((final.graph.state? root = _ ∧ ∃ value, final.graph.result? root = _) ∨
          (final.graph.state? root = _ ∧ ∃ failure, final.graph.result? root = _))
      rw [Results.get?_of_mem isDistinct, Graph.state?_of_result? isResult, isResult]
      refine ⟨by simp [resultOf, isResult], ?_⟩
      cases result with
      | ok value => exact .inl ⟨rfl, value, rfl⟩
      | error failure => exact .inr ⟨rfl, failure, rfl⟩

/-- Two keys that ask for each other. -/
def circle : Registry Nat Nat Empty where
  kindName _ := "circle"
  function? key := some fun _ =>
    .request [1 - key] none fun _ => .check (.finish (.value key))

/-- The circle is broken, and its keys have failed for it. -/
theorem never_stalls_circle :
    ∃ after results, Evaluates circle ({ settings := {} } : Evaluator Nat Nat Empty) [0] after
        (.ok results) ∧
      (∀ key, after.graph.state? key ≠ some .evaluating) ∧
      results.get? 0 = some (.error (.cycle 0 [0, 1])) := by
  have evaluates := evaluate_evaluates circle 20 { settings := {} } [0]
  have answered : (({ settings := {} } : Evaluator Nat Nat Empty).evaluate circle 20 [0]).2 =
      .ok ⟨[(0, .error (.cycle 0 [0, 1]))]⟩ := by rfl
  rw [answered] at evaluates
  have complete := (never_stalls ⟨{}, .refl⟩ circle [0]).2 _ _ evaluates
  exact ⟨_, _, evaluates, complete.1, rfl⟩

end Evaluator

end MemoGraph
