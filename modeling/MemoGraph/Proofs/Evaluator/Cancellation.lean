import MemoGraph.Proofs.Evaluator.Deliveries
import MemoGraph.Proofs.Evaluator.Incremental
import MemoGraph.Proofs.Evaluator.Interruption
import MemoGraph.Proofs.Evaluator.Schedules
import MemoGraph.Proofs.Round.Cancellation

namespace MemoGraph

variable {κ ν φ : Type} [Key κ] [BEq ν]

namespace Evaluator

variable {evaluator after : Evaluator κ ν φ} {registry : Registry κ ν φ} {roots : List κ}

/-- An evaluation of the roots ran no function and gave no key a result. Nodes
are as they were when its round opened; only roots may have got one, a blank one. -/
structure Untouched (evaluator : Evaluator κ ν φ) (roots : List κ) (after : Evaluator κ ν φ) :
    Prop where
  runs : after.runs = evaluator.runs
  uncommitted : ∀ key, ¬ Committed evaluator roots after.log key
  version : after.version = evaluator.retryTransient.version
  node? : ∀ key ∈ evaluator.retryTransient.graph.keys,
    after.graph.node? key = evaluator.retryTransient.graph.node? key
  blank : ∀ key ∉ evaluator.retryTransient.graph.keys,
    after.graph.node? key = if key ∈ roots then some {} else none

/-- One thing that happens to an evaluator other than a request to cancel.
Evaluations come to an end. -/
inductive Calm : Evaluator κ ν φ → Evaluator κ ν φ → Prop
  | inject (evaluator : Evaluator κ ν φ) (key : κ) (value : ν) :
      Calm evaluator (evaluator.inject key value).1
  | invalidate (evaluator : Evaluator κ ν φ) (keys : List κ) :
      Calm evaluator (evaluator.invalidate keys).1
  | prune (evaluator : Evaluator κ ν φ) (keep : List κ) : Calm evaluator (evaluator.prune keep).1
  | evaluate {evaluator after : Evaluator κ ν φ} {roots : List κ}
      {answer : Except Stop (Results κ ν φ)} (registry : Registry κ ν φ)
      (evaluates : Evaluates registry evaluator roots after answer)
      (ended : answer ≠ .error .exhausted) : Calm evaluator after

theorem Calm.turn (calm : Calm evaluator after) : Turn evaluator after := by
  cases calm with
  | inject key value => exact .inject _ key value
  | invalidate keys => exact .invalidate _ keys
  | prune keep => exact .prune _ keep
  | evaluate registry evaluates => exact .evaluate registry evaluates

omit [BEq ν] in
theorem interrupted_opening : (evaluator.opening roots).interrupted = evaluator.interrupted :=
  interrupted_retryTransient

theorem Evaluates.going {answer : Except Stop (Results κ ν φ)} (evaluates : Evaluates registry evaluator roots after answer)
    (tidy : Tidy evaluator) (going : evaluator.interrupted = false)
    (ended : answer ≠ .error .exhausted) : after.interrupted = false := by
  obtain ⟨ends⟩ := evaluates
  rename_i final halt
  cases halt with
  | interrupted => simp [closeRound]
  | exhausted => exact absurd rfl ended
  | complete =>
      have kept := ends.going (nodup_distinct roots) (tidy.rested_opening roots)
        (interrupted_opening.trans going)
      simp [closeRound, kept]

theorem Evaluates.cleared (evaluates : Evaluates registry evaluator roots after
    (.error .interrupted)) : after.interrupted = false := by
  obtain ⟨last, left, halt, comes, rfl, interrupted⟩ := evaluates.cut
  obtain rfl := interrupted rfl
  simp [closeRound]

theorem interrupted_inject (key : κ) (value : ν) :
    (evaluator.inject key value).1.interrupted = evaluator.interrupted := by
  unfold inject
  simp only
  split <;> rfl

theorem Calm.going (calm : Calm evaluator after) (tidy : Tidy evaluator)
    (going : evaluator.interrupted = false) : after.interrupted = false := by
  cases calm with
  | inject key value => exact (interrupted_inject key value).trans going
  | invalidate | prune => exact going
  | evaluate registry evaluates ended => exact evaluates.going tidy going ended

theorem going_of_calm {later : Evaluator κ ν φ} (reachable : Reachable after)
    (going : after.interrupted = false) (calm : Relation.ReflTransGen Calm after later) :
    Reachable later ∧ later.interrupted = false := by
  induction calm with
  | refl => exact ⟨reachable, going⟩
  | tail _ last ih => exact ⟨ih.1.turn last.turn, last.going ih.1.tidy ih.2⟩

omit [BEq ν] in
theorem untouched_of_opened {final : Round κ ν φ} {halt : Round.Halt}
    (opened : Round.Opened (evaluator.opening roots) (distinct roots) final) :
    Untouched evaluator roots (evaluator.retryTransient.closeRound final halt) := by
  have known : ∀ key, key ∈ final.graph.keys ↔
      key ∈ roots ∨ key ∈ evaluator.retryTransient.graph.keys := fun key => by
    rw [opened.keys, mem_distinct]
    rfl
  constructor
  case runs => exact opened.context.runs.trans (runs_opening roots)
  case version => rfl
  case uncommitted =>
    rintro key ⟨ending, notCached, told⟩
    rw [show (evaluator.retryTransient.closeRound final halt).log = final.log from rfl,
      news_eq opened.log, List.mem_map] at told
    obtain ⟨root, _, same⟩ := told
    split at same
    · cases same
    · cases same
      exact notCached rfl
  case node? =>
    intro key there
    rw [Graph.node?_of_mem there]
    exact (Graph.node?_of_mem ((known key).mpr (.inr there))).trans
      (congrArg some (opened.nodes key))
  case blank =>
    intro key absent
    show final.graph.node? key = _
    split
    · rename_i isRoot
      rw [Graph.node?_of_mem ((known key).mpr (.inl isRoot)), opened.nodes]
      exact congrArg some (Graph.nodeAt_of_not_mem absent)
    · rename_i other
      exact Graph.node?_of_not_mem fun there => ((known key).mp there).elim other absent

omit [BEq ν] in
theorem begin_eq_nil_iff (tidy : Tidy evaluator) :
    ((evaluator.opening roots).begin (distinct roots)).2 = [] ↔
      ∀ root ∈ roots, (evaluator.retryTransient.graph.result? root).isSome = true := by
  have begun := (evaluator.opening roots).begin_spec (nodup_distinct roots)
  have idle : ∀ root, ((evaluator.opening roots).graph.nodeAt root).isIdle = false ↔
      (evaluator.retryTransient.graph.result? root).isSome = true := by
    intro root
    have free := tidy.rested_opening roots root
    rw [Node.isIdle_eq_false_iff, free, Graph.result?_eq]
    simp only [Option.isSome_none, Bool.false_eq_true, false_or]
    rfl
  simp only [begun.ready, List.filter_eq_nil_iff, mem_distinct, Bool.not_eq_true, idle]

theorem evaluate_eq (bound : Nat) :
    evaluator.evaluate registry bound roots =
      (evaluator.retryTransient.closeRound
          ((evaluator.opening roots).run registry bound (distinct roots)).1
          ((evaluator.opening roots).run registry bound (distinct roots)).2,
        answer ((evaluator.opening roots).run registry bound (distinct roots)).1.graph
          (distinct roots) ((evaluator.opening roots).run registry bound (distinct roots)).2) := by
  unfold evaluate opening
  simp only
  generalize (evaluator.retryTransient.openRound.tell (.round (distinct roots))).run registry bound
    (distinct roots) = ended
  obtain ⟨final, halt⟩ := ended
  cases halt <;> rfl

omit [BEq ν] in
theorem answer_eq_interrupted {graph : Graph κ ν φ} {halt : Round.Halt}
    (stopped : answer graph roots halt = .error .interrupted) : halt = .interrupted := by
  cases halt with
  | interrupted => rfl
  | complete | exhausted => cases stopped

/-- A cancellation that is pending when an evaluation is called takes effect in it
if one of the roots has no valid result: then the evaluation is cancelled, and
afterwards no later one is, unless one of its own functions requests it or it was
requested anew. If all roots have valid results, these are the answer, and the
cancellation stays pending. Either way no function runs, no key gets a result,
and every node is as it was when the round opened. -/
theorem pending_cancellation (reachable : Reachable evaluator)
    (pending : evaluator.interrupted = true) (registry : Registry κ ν φ) (roots : List κ) :
    (∀ after answer, Evaluates registry evaluator roots after answer →
      Untouched evaluator roots after) ∧
    ((∃ root ∈ roots, evaluator.retryTransient.graph.result? root = none) →
      (∀ after results, ¬ Evaluates registry evaluator roots after (.ok results)) ∧
      ∀ bound, roots.length < bound →
        (evaluator.evaluate registry bound roots).2 = .error .interrupted) ∧
    ((∀ root ∈ roots, (evaluator.retryTransient.graph.result? root).isSome = true) →
      ∀ bound, (evaluator.evaluate registry bound roots).1.interrupted = true ∧
        (evaluator.evaluate registry bound roots).2 = .ok ⟨(distinct roots).map fun root =>
          (root, resultOf evaluator.retryTransient.graph root)⟩) ∧
    ∀ after, Evaluates registry evaluator roots after (.error .interrupted) →
      ∀ later, Relation.ReflTransGen Calm after later → later.interrupted = false ∧
        ∀ (laterRegistry : Registry κ ν φ) (bound : Nat) (laterRoots : List κ),
          (later.evaluate laterRegistry bound laterRoots).2 = .error .interrupted →
            ∃ now left key attempt, ComesTo laterRegistry later laterRoots (now, left) ∧
              key ∈ left ∧ now.ran? laterRegistry key = some attempt ∧
              attempt.interrupts = true := by
  have tidy := reachable.tidy
  have unique := nodup_distinct roots
  have rested := tidy.rested_opening roots
  have cancelled : (evaluator.opening roots).interrupted = true :=
    interrupted_opening.trans pending
  refine ⟨?untouched, ?cancels, ?carried, ?later⟩
  case untouched =>
    rintro after answer ⟨ends⟩
    exact untouched_of_opened (ends.of_interrupted unique rested cancelled).1
  case cancels =>
    rintro ⟨root, isRoot, unsettled⟩
    have busy : ((evaluator.opening roots).begin (distinct roots)).2 ≠ [] := by
      intro cached
      have settled := (begin_eq_nil_iff tidy).mp cached root isRoot
      simp [unsettled] at settled
    refine ⟨fun after results evaluates => ?_, fun bound enough => ?_⟩
    · obtain ⟨final, ends, _⟩ := evaluates.complete
      exact busy ((ends.of_interrupted unique rested cancelled).2 rfl)
    · have few : (distinct roots).length < bound :=
        Nat.lt_of_le_of_lt (List.subperm_of_subset unique fun _ => mem_distinct.mp).length_le enough
      rw [evaluate_eq, Round.run_of_interrupted unique cancelled few busy]
      rfl
  case carried =>
    intro settled bound
    have cached := (begin_eq_nil_iff tidy).mpr settled
    have opened := Round.opened_of_cached unique cached
    rw [evaluate_eq, Round.run_of_cached cached]
    have same : ∀ root, resultOf ((evaluator.opening roots).begin (distinct roots)).1.graph root =
        resultOf evaluator.retryTransient.graph root := by
      intro root
      unfold resultOf
      rw [Graph.result?_eq, Graph.result?_eq, opened.nodes]
      rfl
    refine ⟨by simp [closeRound, opened.context.interrupted, cancelled], ?_⟩
    simp only [answer, same]
  case later =>
    intro after evaluates later calm
    have closed : after.interrupted = false := evaluates.cleared
    obtain ⟨reachableLater, going⟩ :=
      going_of_calm (reachable.turn (.evaluate registry evaluates)) closed calm
    refine ⟨going, fun laterRegistry bound laterRoots stopped => ?_⟩
    rw [evaluate_eq] at stopped
    obtain ⟨start, now, left, key, attempt, order, moves, there⟩ :=
      Round.exists_interrupting_of_run (nodup_distinct laterRoots)
        (reachableLater.tidy.rested_opening laterRoots) (interrupted_opening.trans going)
        (answer_eq_interrupted stopped)
    exact ⟨now, left, key, attempt, ⟨start, order, moves⟩, there⟩

/-- The cancellation takes effect in the first evaluation, which leaves a blank
node, and the second one gives the value. -/
theorem pending_cancellation_fork :
    ∃ pending after : Evaluator Nat Nat Empty, pending.interrupted = true ∧
      after = (pending.evaluate fork 20 [2]).1 ∧
      (pending.evaluate fork 20 [2]).2 = .error .interrupted ∧
      after.graph.node? 2 = some {} ∧ after.runs = 0 ∧ after.interrupted = false ∧
      (after.evaluate fork 20 [2]).2.toOption.map Results.entries = some [(2, .ok 7)] := by
  let pending := ({ settings := {} } : Evaluator Nat Nat Empty).interrupt
  have reachable : Reachable pending := Reachable.turn ⟨{}, .refl⟩ (.interrupt _)
  obtain ⟨untouched, cancels, _, later⟩ := pending_cancellation reachable rfl fork [2]
  have evaluates := evaluate_evaluates fork 20 pending [2]
  have stopped := (cancels ⟨2, by simp, rfl⟩).2 20 (by decide)
  have left := untouched _ _ evaluates
  rw [stopped] at evaluates
  exact ⟨pending, _, rfl, rfl, stopped, left.blank 2 (by decide), left.runs,
    (later _ evaluates _ .refl).1, by decide +kernel⟩

/-- All that the first evaluation is for is known already. It gives the value, and
the cancellation hits the second one, which is for another key. -/
theorem cancellation_carried_fork :
    ∃ pending : Evaluator Nat Nat Empty, Reachable pending ∧ pending.interrupted = true ∧
      (pending.evaluate fork 20 [0]).2.toOption.map Results.entries = some [(0, .ok 3)] ∧
      (pending.evaluate fork 20 [0]).1.interrupted = true ∧
      (((pending.evaluate fork 20 [0]).1.evaluate fork 20 [1]).2.map fun _ => ()) =
        .error .interrupted := by
  have known : Reachable (({ settings := {} } : Evaluator Nat Nat Empty).evaluate fork 20 [0]).1 :=
    Reachable.turn ⟨{}, .refl⟩ (.evaluate fork (evaluate_evaluates fork 20 _ [0]))
  exact ⟨_, known.turn (.interrupt _), rfl, by decide +kernel, by decide +kernel,
    by decide +kernel⟩

end Evaluator

end MemoGraph
