import MemoGraph.Proofs.Evaluator.Histories
import MemoGraph.Proofs.Round.Invariants

namespace MemoGraph

variable {κ ν φ : Type}

namespace Node

variable {node other : Node κ ν φ} {value : ν}

/-- The node has a value from outside, which rests on nothing. -/
structure Pinned (value : ν) (node : Node κ ν φ) : Prop where
  holds : node.result? = some (.ok value)
  dependencies : node.dependencies = .empty
  injected : node.injected = true

theorem Pinned.alike (pinned : other.Pinned value) (alike : node.Alike other) :
    node.Pinned value :=
  ⟨alike.result?.trans pinned.holds, alike.dependencies.trans pinned.dependencies,
    alike.injected.trans pinned.injected⟩

theorem Pinned.rootless (pinned : node.Pinned value) :
    node.dependencies = .empty ∧ ∃ value, node.result? = some (.ok value) :=
  ⟨pinned.dependencies, value, pinned.holds⟩

end Node

namespace Evaluator

variable [Key κ] {evaluator after : Evaluator κ ν φ} {key : κ} {value : ν}

/-- The key has the value from outside, and it rests on nothing. -/
abbrev Pins (evaluator : Evaluator κ ν φ) (key : κ) (value : ν) : Prop :=
  (evaluator.graph.nodeAt key).Pinned value

section Pins

variable (pins : evaluator.Pins key value) (tidy : Tidy evaluator)
include pins tidy

/-- No walk from a key to its dependents comes across one that rests on nothing. -/
theorem Pins.apart (dependency : κ) : key ∉ (evaluator.graph.nodeAt dependency).dependents := by
  intro listed
  have needed := (tidy.linked key dependency).mp listed
  rw [pins.dependencies] at needed
  exact Grouping.not_mem_empty dependency needed

theorem Pins.invalidateFor (reason : Reason) (keys : List κ) :
    (evaluator.invalidateFor reason keys).1.Pins key value := by
  have same := (evaluator.invalidateFor_marked reason keys).spared key pins.injected
    (pins.apart tidy)
  unfold Pins
  rwa [same]

theorem Pins.retryTransient : evaluator.retryTransient.Pins key value := by
  have cleared : Pins { evaluator with retries := [] } key value := pins
  exact retryTransient_kept (fun later => later.Pins key value) pins
    (cleared.invalidateFor ⟨tidy.rested, tidy.linked⟩ .transientRetry)

theorem Pins.prune (keep : List κ) : (evaluator.prune keep).1.Pins key value := by
  unfold Pins
  rw [nodeAt_prune, if_pos (kept_of_injected tidy keep pins.injected)]
  exact ⟨pins.holds, pins.dependencies, pins.injected⟩

variable [BEq ν]

theorem Pins.inject {other : κ} (different : other ≠ key) (new : ν) :
    (evaluator.inject other new).1.Pins key value := by
  unfold Pins
  cases equal : (evaluator.graph.value? other).any (· == new) with
  | true =>
      rw [nodeAt_inject_of_equal equal, if_neg different.symm]
      exact pins
  | false =>
      exact pins.alike ((inject_replaced tidy equal).spared key different.symm (pins.apart tidy))

theorem Pins.elsewhere (elsewhere : Elsewhere key evaluator after) : after.Pins key value := by
  cases elsewhere with
  | inject other new different => exact pins.inject tidy different new
  | invalidate keys => exact pins.invalidateFor tidy .manual keys
  | prune keep => exact pins.prune tidy keep
  | interrupt => exact pins
  | evaluate registry evaluates =>
      obtain ⟨ends⟩ := evaluates
      have opened := pins.retryTransient tidy
      have settled := Node.isSettled_of_result? opened.holds
      exact opened.alike (ends.extends (nodup_distinct _) (tidy.rested_opening _) key settled)

/-- While a round goes on the key has its value, and it is not among those to be
stepped. -/
theorem Pins.comesTo {registry : Registry κ ν φ} {roots : List κ} {now : Round κ ν φ × List κ}
    (comes : ComesTo registry evaluator roots now) :
    now.1.graph.result? key = some (.ok value) ∧ key ∉ now.2 := by
  obtain ⟨ready, order, moves⟩ := comes
  have opened := pins.retryTransient tidy
  have unique := nodup_distinct roots
  have rested := tidy.rested_opening roots
  have start := Round.InOrder.begin unique rested order
  have begun := (evaluator.opening roots).begin_spec unique
  have held := (start.extends moves begun.extends).result? opened.holds
  refine ⟨Graph.result?_eq key ▸ held, fun listed => ?_⟩
  have busy := ((start.advances moves).waiting.mem_ready key).mp listed
  have unsettled : (now.1.graph.nodeAt key).isSettled = false :=
    Round.not_isSettled_of_evaluating busy.1
  rw [Node.isSettled_of_result? held] at unsettled
  cases unsettled

end Pins

variable [BEq ν]

/-- What comes from outside rests on nothing, unless it equals a value that
rests on something. -/
theorem pins_inject (tidy : Tidy evaluator)
    (free : (evaluator.graph.value? key).any (· == value) = true →
      (evaluator.graph.nodeAt key).dependencies = .empty) :
    ∃ held, (held = value ∨ (held == value) = true) ∧
      (evaluator.inject key value).1.Pins key held := by
  unfold Pins
  cases equal : (evaluator.graph.value? key).any (· == value) with
  | true =>
      obtain ⟨held, found, same⟩ := (Option.any_eq_true _ _).mp equal
      refine ⟨held, .inr same, ?_⟩
      rw [nodeAt_inject_of_equal equal, if_pos rfl]
      exact ⟨Graph.result?_eq key ▸ Graph.result?_of_value? found, free equal, rfl⟩
  | false =>
      have replaced := inject_replaced tidy equal
      exact ⟨value, .inl rfl, .alike ⟨rfl, rfl, rfl⟩ replaced.self⟩

/-- A value from outside stays until the key is given another one, whatever
happens in between, provided that it does not equal a valid value that rests on
dependencies: the key is done with it, its function does not run, and every run
that asks for the key is told it. -/
theorem injected_values_last (reachable : Reachable evaluator) (key : κ) (value : ν)
    (free : (evaluator.graph.value? key).any (· == value) = true →
      (evaluator.graph.nodeAt key).dependencies = .empty) :
    ∃ held, (held = value ∨ (held == value) = true) ∧
      ∀ later, Relation.ReflTransGen (Elsewhere key) (evaluator.inject key value).1 later →
        later.graph.state? key = some .done ∧ later.graph.result? key = some (.ok held) ∧
        ∀ registry roots now, ComesTo registry later roots now → key ∉ now.2 ∧
          ∀ (attempt : Attempt κ φ) (keys : List κ) (handler : Option (Handler φ)) (index : Nat),
            keys[index]? = some key →
              (attempt.request now.1.graph.result? keys handler).2[index]? =
                some (.value held) := by
  have injected := reachable.turn (.inject evaluator key value)
  obtain ⟨held, same, pins⟩ := pins_inject reachable.tidy free
  refine ⟨held, same, fun later turns => ?_⟩
  have lasts : Reachable later ∧ later.Pins key held := by
    induction turns with
    | refl => exact ⟨injected, pins⟩
    | tail _ elsewhere ih => exact ⟨ih.1.turn elsewhere.turn, ih.2.elsewhere ih.1.tidy elsewhere⟩
  obtain ⟨reached, pins⟩ := lasts
  have found : later.graph.result? key = some (.ok held) := Graph.result?_eq key ▸ pins.holds
  refine ⟨Graph.state?_of_result? found, found, ?_⟩
  intro registry roots now comes
  obtain ⟨told, spared⟩ := pins.comesTo reached.tidy comes
  exact ⟨spared, fun attempt keys handler index asked =>
    Attempt.answerAll_of_value told handler asked⟩

/-- The second key has the value of the first. -/
def relay : Registry Nat Nat Empty where
  kindName _ := "relay"
  function? key := some fun _ =>
    match key with
    | 1 => .request [0] none fun answers => .check <|
        match answers with
        | [.value value] => .finish (.value value)
        | _ => .finish (.refused .incomplete)
    | _ => .finish (.crashed none)

theorem elsewhere_relay (evaluator : Evaluator Nat Nat Empty) :
    Relation.ReflTransGen (Elsewhere 1) evaluator
      ((evaluator.inject 0 8).1.evaluate relay 50 [1]).1 := by
  have changed : Elsewhere 1 evaluator (evaluator.inject 0 8).1 := .inject _ 0 8 (by decide)
  exact (Relation.ReflTransGen.single changed).tail
    (.evaluate relay (evaluate_evaluates relay 50 _ [1]))

/-- A value that differs from the computed one stays when the first key changes. -/
theorem injected_values_last_relay : ∃ evaluator later : Evaluator Nat Nat Empty,
    Reachable evaluator ∧ evaluator.graph.value? 1 = some 7 ∧
    Relation.ReflTransGen (Elsewhere 1) (evaluator.inject 1 9).1 later ∧
    later.graph.value? 0 = some 8 ∧ later.graph.result? 1 = some (.ok 9) := by
  have built : Reachable (build {} [(0, 7)] : Evaluator Nat Nat Empty) := .build ..
  have reachable := built.turn (.evaluate relay (evaluate_evaluates relay 50 _ [1]))
  obtain ⟨held, same, lasts⟩ := injected_values_last reachable 1 9 (by decide +kernel)
  obtain rfl : held = 9 := by simpa using same
  have stays := (lasts _ (elsewhere_relay _)).2.1
  exact ⟨_, _, reachable, by decide +kernel, elsewhere_relay _, by decide +kernel, stays⟩

/-- A value that equals the computed one is lost when the first key changes. -/
theorem equal_value_lost_relay : ∃ evaluator later : Evaluator Nat Nat Empty,
    Reachable evaluator ∧ evaluator.graph.value? 1 = some 7 ∧
    Relation.ReflTransGen (Elsewhere 1) (evaluator.inject 1 7).1 later ∧
    later.graph.result? 1 = some (.ok 8) := by
  have built : Reachable (build {} [(0, 7)] : Evaluator Nat Nat Empty) := .build ..
  have reachable := built.turn (.evaluate relay (evaluate_evaluates relay 50 _ [1]))
  exact ⟨_, _, reachable, by decide +kernel, elsewhere_relay _, by decide +kernel⟩

end Evaluator

end MemoGraph
