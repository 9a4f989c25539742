import MemoGraph.Proofs.Evaluator.Completion
import MemoGraph.Proofs.Evaluator.Grounds
import MemoGraph.Proofs.Round.Sights

namespace MemoGraph

namespace Evaluator

variable {κ ν φ : Type} [Key κ] [BEq ν] {registry : Registry κ ν φ}
  {evaluator : Evaluator κ ν φ} {sights : Sights κ ν φ}

/-- What can become of a new evaluator with the given functions, and what the
last run of each of them was told. A value from outside takes the place of what
a run has found, unless it equals that. -/
inductive Sees (registry : Registry κ ν φ) : Evaluator κ ν φ → Sights κ ν φ → Prop
  | new (settings : Settings) : Sees registry { settings } fun _ => []
  | inject {evaluator : Evaluator κ ν φ} {sights : Sights κ ν φ}
      (sees : Sees registry evaluator sights) (key : κ) (value : ν) :
      Sees registry (evaluator.inject key value).1
        (if (evaluator.graph.value? key).any (· == value) then sights
          else Function.update sights key [])
  | invalidate {evaluator : Evaluator κ ν φ} {sights : Sights κ ν φ}
      (sees : Sees registry evaluator sights) (keys : List κ) :
      Sees registry (evaluator.invalidate keys).1 sights
  | prune {evaluator : Evaluator κ ν φ} {sights : Sights κ ν φ}
      (sees : Sees registry evaluator sights) (keep : List κ) :
      Sees registry (evaluator.prune keep).1 sights
  | interrupt {evaluator : Evaluator κ ν φ} {sights : Sights κ ν φ}
      (sees : Sees registry evaluator sights) : Sees registry evaluator.interrupt sights
  | evaluate {evaluator : Evaluator κ ν φ} {sights seen : Sights κ ν φ} {roots : List κ}
      {final : Round κ ν φ} {halt : Round.Halt} (sees : Sees registry evaluator sights)
      (shows : Round.Shows registry (distinct roots) (evaluator.opening roots) sights final halt
        seen) :
      Sees registry (evaluator.retryTransient.closeRound final halt) seen

theorem Sees.reachable (sees : Sees registry evaluator sights) : Reachable evaluator := by
  induction sees with
  | new settings => exact ⟨settings, .refl⟩
  | inject _ key value ih => exact ih.turn (.inject _ key value)
  | invalidate _ keys ih => exact ih.turn (.invalidate _ keys)
  | prune _ keep ih => exact ih.turn (.prune _ keep)
  | interrupt _ ih => exact ih.turn (.interrupt _)
  | evaluate _ shows ih => exact ih.turn (.evaluate registry (.intro shows.ends))

/-- Whatever an evaluation does, it can be noted what its runs are told. -/
theorem Sees.evaluates {after : Evaluator κ ν φ} {roots : List κ}
    {answer : Except Stop (Results κ ν φ)} (sees : Sees registry evaluator sights)
    (evaluates : Evaluates registry evaluator roots after answer) :
    ∃ seen, Sees registry after seen := by
  obtain ⟨ends⟩ := evaluates
  obtain ⟨seen, shows⟩ := ends.shows sights
  exact ⟨seen, sees.evaluate shows⟩

theorem Sees.grounded (sees : Sees registry evaluator sights) :
    Grounded (Round.seenBacking sights) evaluator ∧
      ∀ key, registry.function? key = none → sights key = [] := by
  induction sees with
  | new settings => exact ⟨.empty _, fun _ _ => rfl⟩
  | @inject evaluator sights sees key value ih =>
      obtain ⟨grounded, unregistered⟩ := ih
      cases equal : (evaluator.graph.value? key).any (· == value) with
      | true =>
          rw [if_pos rfl]
          exact ⟨grounded.inject_of_equal equal, unregistered⟩
      | false =>
          rw [if_neg Bool.false_ne_true]
          have cleared : ∀ other, ∀ pair ∈ Function.update sights key [] other,
              pair ∈ sights other := by
            intro other pair member
            by_cases same : other = key
            · rw [same, Function.update_self] at member
              cases member
            · rwa [Function.update_of_ne same] at member
          have rebased : Grounded (Round.seenBacking (Function.update sights key [])) evaluator :=
            grounded.rebase id
              (fun other _ _ _ holds pair member => holds pair (cleared other pair member))
              fun other _ _ _ holds => .inr fun pair member =>
                holds pair (cleared other pair member)
          refine ⟨rebased.inject_of_different sees.reachable.tidy equal
            fun results pair member => ?_, fun other absent => ?_⟩
          · rw [Function.update_self] at member
            cases member
          · exact List.eq_nil_iff_forall_not_mem.mpr fun pair member =>
              List.not_mem_nil (unregistered other absent ▸ cleared other pair member)
  | invalidate sees keys ih =>
      exact ⟨ih.1.invalidateFor sees.reachable.tidy .manual keys, ih.2⟩
  | prune sees keep ih => exact ⟨ih.1.prune sees.reachable.tidy keep, ih.2⟩
  | interrupt sees ih => exact ih
  | evaluate sees shows ih =>
      have tidy := sees.reachable.tidy
      have rested := tidy.retryTransient.rested
      obtain ⟨grounded, unregistered⟩ := shows.grounded (nodup_distinct _) rested
        (ih.1.retryTransient tidy) ih.2
      exact ⟨Grounded.closeRound tidy shows.ends grounded, unregistered⟩

/-- After any history, whatever the functions do: if a key has a value or an
error that lasts, then every value and every error that the last run of its
function was told is the one that the dependency has now. Whatever an evaluation
does, it can be noted what its runs are told. -/
theorem results_seen_hold (sees : Sees registry evaluator sights) :
    (∀ roots after answer, Evaluates registry evaluator roots after answer →
      ∃ seen, Sees registry after seen) ∧
    ∀ key, (evaluator.graph.state? key = some .done ∨
        (evaluator.graph.state? key = some .error ∧
          ∃ failure, evaluator.graph.failure? key = some failure ∧
            failure.transience = .persistent)) →
      ∀ dependency result, (dependency, result) ∈ sights key →
        evaluator.graph.result? dependency = some result ∧
          (evaluator.graph.state? dependency = some .done ∨
            evaluator.graph.state? dependency = some .error) := by
  refine ⟨fun roots after answer => sees.evaluates, fun key lasting => ?_⟩
  have isResult : ∃ result, evaluator.graph.result? key = some result ∧
      Round.isTransient result = false := by
    rcases lasting with done | ⟨_, failure, found, persistent⟩
    · obtain ⟨value, found⟩ := Graph.result?_of_done done
      exact ⟨_, found, rfl⟩
    · exact ⟨_, Graph.result?_of_failure? found, by simp [Round.isTransient, persistent]⟩
  obtain ⟨own, found, stays⟩ := isResult
  rw [Graph.result?_eq] at found
  obtain ⟨_, holds⟩ := sees.grounded.1.settled key own found stays
  intro dependency result member
  have current : evaluator.graph.result? dependency = some result := by
    rw [Graph.result?_eq]
    exact (holds (dependency, result) member).2
  exact ⟨current, Graph.state?_of_settled current⟩

/-- Every key but the first asks for the one below it. -/
def tower : Registry Nat Nat Empty where
  kindName _ := "tower"
  function? key := some fun _ =>
    match key with
    | 0 => .finish (.value 7)
    | below + 1 => .request [below] none fun answers => .check <|
        match answers with
        | [.value value] => .finish (.value (value + 1))
        | _ => .finish (.refused .incomplete)

/-- The run that gave the upper key its value was told the value of the lower one. -/
theorem results_seen_hold_tower : ∃ evaluator sights, Sees tower evaluator sights ∧
    evaluator.graph.state? 1 = some .done ∧ (0, .ok 7) ∈ sights 1 ∧
      evaluator.graph.result? 0 = some (.ok 7) := by
  let fresh : Evaluator Nat Nat Empty := { settings := {} }
  let opened := ((fresh.opening [1]).begin (distinct [1])).1
  have begun : Round.Watched tower (distinct [1]) (opened, [1]) (fun _ => []) (opened, [1])
      fun _ => [] := .refl
  have asked := begun.step (by decide +kernel) (.refl [1]) (show List.Perm [0] _ by decide +kernel)
  have computed :=
    asked.step (by decide +kernel) (.refl [0]) (show List.Perm [1] _ by decide +kernel)
  have committed :=
    computed.step (by decide +kernel) (.refl [1]) (show List.Perm [] _ by decide +kernel)
  have shows : Round.Shows tower (distinct [1]) (fresh.opening [1]) (fun _ => []) _ .complete _ :=
    .complete (by decide +kernel) committed (by decide +kernel) (by decide +kernel)
  have sees := (Sees.new {}).evaluate shows
  refine ⟨_, _, sees, by decide +kernel, by decide +kernel, ?_⟩
  exact ((results_seen_hold sees).2 1 (.inl (by decide +kernel)) 0 (.ok 7) (by decide +kernel)).1

end Evaluator

end MemoGraph
