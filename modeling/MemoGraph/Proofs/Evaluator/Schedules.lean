import Mathlib.Data.Option.Basic
import MemoGraph.Proofs.Round.Origins

namespace MemoGraph

namespace Node

variable {κ ν φ : Type} {left right : Node κ ν φ}

/-- The nodes are the same, but for the order in which their dependents are listed. -/
structure Agrees (left right : Node κ ν φ) : Prop where
  state : left.state = right.state
  result? : left.result? = right.result?
  memo : left.memo = right.memo
  dependencies : left.dependencies = right.dependencies
  dependents : ∀ key, key ∈ left.dependents ↔ key ∈ right.dependents
  lastChanged : left.lastChanged = right.lastChanged
  lastEvaluated : left.lastEvaluated = right.lastEvaluated
  injected : left.injected = right.injected

theorem Agrees.of_bare (bare : left.bare = right.bare) (free : left.work = none)
    (freeOther : right.work = none)
    (dependents : ∀ key, key ∈ left.dependents ↔ key ∈ right.dependents) : Agrees left right := by
  have alike := alike_of_bare bare free freeOther
  refine ⟨?_, alike.result?, alike.memo, alike.dependencies, dependents, alike.lastChanged,
    alike.lastEvaluated, alike.injected⟩
  unfold Node.state
  rw [free, freeOther, alike.memo]

end Node

theorem Graph.result?_of_agrees {κ ν φ : Type} [Key κ] {left right : Graph κ ν φ} {key : κ}
    (agree : Option.Rel Node.Agrees (left.node? key) (right.node? key)) :
    left.result? key = right.result? key := by
  unfold Graph.result?
  generalize left.node? key = found at agree ⊢
  generalize right.node? key = other at agree ⊢
  cases agree with
  | none => rfl
  | some agrees => exact agrees.result?

namespace Round

variable {κ ν φ : Type} [Key κ] [BEq ν] {round final finalOther : Round κ ν φ} {roots : List κ}
  {registry : Registry κ ν φ}

/-- Two rounds that begin with the same graph end with nodes that agree, for the same keys. -/
theorem Ends.agree (strict : registry.Strict) (unique : roots.Nodup) (rested : Rested round.graph)
    (linked : round.graph.Linked) (ends : Ends registry roots round final .complete)
    (endsOther : Ends registry roots round finalOther .complete) (key : κ) :
    Option.Rel Node.Agrees (final.graph.node? key) (finalOther.graph.node? key) := by
  have aligned := ends.aligned strict unique rested endsOther
  have linkedFinal := ends.linked unique rested linked
  have linkedOther := endsOther.linked unique rested linked
  have dependencies : ∀ user, (final.graph.nodeAt user).dependencies =
      (finalOther.graph.nodeAt user).dependencies := by
    intro user
    have same := congrArg Node.dependencies (aligned.bare user)
    exact same
  have keys : key ∈ final.graph.keys ↔ key ∈ finalOther.graph.keys := by
    rw [(ends.founded unique rested).mem_keys linkedFinal,
      (endsOther.founded unique rested).mem_keys linkedOther]
    simp only [aligned.isIdle, aligned.isSettled, dependencies]
  by_cases known : key ∈ final.graph.keys
  · rw [Graph.node?_of_mem known, Graph.node?_of_mem (keys.mp known)]
    refine .some (.of_bare (aligned.bare key) (ends.rested unique rested key)
      (endsOther.rested unique rested key) fun user => ?_)
    rw [linkedFinal, linkedOther, dependencies]
  · rw [Graph.node?_of_not_mem known, Graph.node?_of_not_mem (keys.not.mp known)]
    exact .none

end Round

namespace Evaluator

variable {κ ν φ : Type} [Key κ] [BEq ν] {evaluator after other : Evaluator κ ν φ}
  {registry : Registry κ ν φ} {roots : List κ} {results others : Results κ ν φ}

/-- After any history, for strict functions: two evaluations of the same roots
that are not cut short give the same results in whatever order they step their
keys. They also leave the same keys with the same states, results, dependencies,
dependents and versions, and the same keys to be attempted again. -/
theorem evaluations_agree (reachable : Reachable evaluator) (strict : registry.Strict)
    (evaluates : Evaluates registry evaluator roots after (.ok results))
    (evaluatesOther : Evaluates registry evaluator roots other (.ok others)) :
    results = others ∧
      (∀ key, Option.Rel Node.Agrees (after.graph.node? key) (other.graph.node? key)) ∧
      ∀ key, key ∈ after.retries ↔ key ∈ other.retries := by
  obtain ⟨final, ends, rfl, rfl⟩ := evaluates.complete
  obtain ⟨finalOther, endsOther, rfl, rfl⟩ := evaluatesOther.complete
  have tidy := reachable.tidy.retryTransient
  have unique := nodup_distinct roots
  have rested : Round.Rested (evaluator.opening roots).graph := tidy.rested
  have linked : (evaluator.opening roots).graph.Linked := tidy.linked
  have aligned := ends.aligned strict unique rested endsOther
  have agree := ends.agree strict unique rested linked endsOther
  refine ⟨?_, agree, fun key => ?_⟩
  · have same : ∀ root, resultOf final.graph root = resultOf finalOther.graph root := by
      intro root
      unfold resultOf
      rw [Graph.result?_of_agrees (agree root)]
    simp only [same]
  · show key ∈ _ ++ final.transient.toList ↔ key ∈ _ ++ finalOther.transient.toList
    rw [List.mem_append, List.mem_append, aligned.transient]

/-- The last key asks for the two others at once. -/
def fork : Registry Nat Nat Empty where
  kindName _ := "fork"
  function? key := some fun _ =>
    match key with
    | 0 => .finish (.value 3)
    | 1 => .finish (.value 4)
    | _ => .request [0, 1] none fun answers => .check <|
        match answers with
        | [.value first, .value second] => .finish (.value (first + second))
        | _ => .finish (.refused .incomplete)

theorem strict_fork : fork.Strict := by
  rintro key function registered run
  cases registered
  refine ⟨rfl, ?_⟩
  match key with
  | 0 => exact .finish _
  | 1 => exact .finish _
  | _ + 2 =>
      refine .request fun answers _ => ?_
      split <;> exact .finish _

/-- The two keys may be computed in either order. -/
theorem evaluations_agree_fork : ∃ after other results others,
    Evaluates fork ({ settings := {} } : Evaluator Nat Nat Empty) [2] after (.ok results) ∧
      Evaluates fork { settings := {} } [2] other (.ok others) ∧ after.log ≠ other.log ∧
      results = others ∧ after.graph.value? 2 = some 7 ∧
      Option.Rel Node.Agrees (after.graph.node? 2) (other.graph.node? 2) := by
  let fresh : Evaluator Nat Nat Empty := { settings := {} }
  let opened := ((fresh.opening [2]).begin (distinct [2])).1
  have begun : Round.Advances fork (distinct [2]) (opened, [2]) (opened, [2]) := .refl
  have asked := begun.tail
    (.step (by decide +kernel) (.refl [2]) (show List.Perm [0, 1] _ by decide +kernel))
  have first := asked.tail
    (.step (by decide +kernel) (.refl [0, 1]) (show List.Perm [1] _ by decide +kernel))
  have both := first.tail
    (.step (by decide +kernel) (.refl [1]) (show List.Perm [2] _ by decide +kernel))
  have committed := both.tail
    (.step (by decide +kernel) (.refl [2]) (show List.Perm [] _ by decide +kernel))
  have ends : Round.Ends fork (distinct [2]) (fresh.opening [2]) _ .complete :=
    .complete (by decide +kernel) committed (by decide +kernel) (by decide +kernel)
  have second := asked.tail
    (.step (by decide +kernel) (List.Perm.swap 1 0 []) (show List.Perm [0] _ by decide +kernel))
  have bothOther := second.tail
    (.step (by decide +kernel) (.refl [0]) (show List.Perm [2] _ by decide +kernel))
  have committedOther := bothOther.tail
    (.step (by decide +kernel) (.refl [2]) (show List.Perm [] _ by decide +kernel))
  have endsOther : Round.Ends fork (distinct [2]) (fresh.opening [2]) _ .complete :=
    .complete (by decide +kernel) committedOther (by decide +kernel) (by decide +kernel)
  have evaluates : Evaluates fork fresh [2] _ (.ok _) := .intro ends
  have evaluatesOther : Evaluates fork fresh [2] _ (.ok _) := .intro endsOther
  obtain ⟨same, agree, _⟩ := evaluations_agree ⟨{}, .refl⟩ strict_fork evaluates evaluatesOther
  exact ⟨_, _, _, _, evaluates, evaluatesOther, by decide +kernel, same, by decide +kernel, agree 2⟩

end Evaluator

end MemoGraph
