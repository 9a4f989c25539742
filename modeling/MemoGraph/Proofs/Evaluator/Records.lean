import MemoGraph.Proofs.Evaluator.Consistency
import MemoGraph.Proofs.Evaluator.Stories
import MemoGraph.Proofs.Round.Records

namespace MemoGraph

namespace Node

variable {κ ν φ : Type} {node old : Node κ ν φ}

section Inject

variable [BEq ν] {value : ν}

theorem record_inject_of_equal {same : ν} (found : node.result? = some (.ok same))
    (equal : (same == value) = true) (version : Version) :
    ({ node with injected := true } : Node κ ν φ).record = node.record.inject version value := by
  obtain ⟨free, memo⟩ := result?_eq_some_iff.mp found
  obtain ⟨_, _, _, _, _, _, _⟩ := node
  cases free
  cases memo
  have held : (({ memo := .valid (.ok same) } : Node κ ν φ).record).holds value = true := equal
  unfold Record.inject
  exact (if_pos (Bool.and_eq_true_iff.mpr ⟨rfl, held⟩)).symm

theorem record_inject_of_different
    (different : ∀ same, node.result? = some (.ok same) → (same == value) = false)
    (version : Version) :
    (node.withValue version value).record = node.record.inject version value := by
  have other : ¬ (node.record.state = .done && node.record.holds value) = true := by
    intro equal
    obtain ⟨isDone, held⟩ := Bool.and_eq_true_iff.mp equal
    have done : node.record.state = .done := of_decide_eq_true isDone
    obtain ⟨same, stored, isEqual⟩ := Record.exists_value_of_holds held
    have found : node.result? = some (.ok same) := by
      rw [← record_lookup?, Record.lookup?, done, stored]
    rw [different same found] at isEqual
    cases isEqual
  rw [Record.inject, if_neg other]
  rfl

/-- Whatever is done to a node, its record follows by the operation of the same name. -/
structure Followed (node : Node κ ν φ) : Prop where
  takeUp : node.record.takeUp? = node.takeUp?.map Node.record
  updateWork : ∀ change, (node.updateWork change).record = node.record.updateWork change
  commit : ∀ version result dependencies, (node.commit version result dependencies).record =
    node.record.commit version result dependencies
  revalidate : ∀ version result, node.memo.result? = some result →
    (node.revalidate version).record = node.record.revalidate version
  rollBack : node.rollBack.record = node.record.rollBack
  inject_equal : ∀ version value same, node.result? = some (.ok same) → (same == value) = true →
    ({ node with injected := true } : Node κ ν φ).record = node.record.inject version value
  inject_different : ∀ version value,
    (∀ same, node.result? = some (.ok same) → (same == value) = false) →
      (node.withValue version value).record = node.record.inject version value
  markChanged : ∀ result, node.injected = false → node.work = none →
    node.memo = .valid result ∨ node.memo = .dirty result →
      ({ node with memo := .changed result } : Node κ ν φ).record = node.record.markChanged
  markDirty : ∀ result, node.result? = some result →
    ({ node with memo := .dirty result } : Node κ ν φ).record = node.record.markDirty

theorem followed (node : Node κ ν φ) : node.Followed where
  takeUp := record_takeUp? node
  updateWork := record_updateWork node
  commit := record_commit node
  revalidate version _ remembered := record_revalidate remembered version
  rollBack := record_rollBack node
  inject_equal version _ _ found equal := record_inject_of_equal found equal version
  inject_different version _ different := record_inject_of_different different version
  markChanged _ := record_markChanged
  markDirty _ := record_markDirty

theorem writes_injected {same : ν} (found : node.result? = some (.ok same))
    (equal : (same == value) = true) : Writes node { node with injected := true } := by
  refine .of_write ?_
  rw [record_inject_of_equal found equal .initial]
  exact .inject node.record .initial value

theorem writes_withValue
    (different : ∀ same, node.result? = some (.ok same) → (same == value) = false)
    (version : Version) : Writes node (node.withValue version value) := by
  refine .of_write ?_
  rw [record_inject_of_different different version]
  exact .inject node.record version value

end Inject

/-- Work on a node leaves all that it remembers. -/
theorem takenFrom_of_bare {work : Work κ φ} (found : node.work = some work)
    (free : old.work = none) (same : node.bare = old.bare) :
    node.record.TakenFrom old.record ⟨node.memo.state, work⟩ := by
  have memo := memo_of_bare same
  obtain ⟨_, dependencies, _, lastChanged, lastEvaluated, injected, _⟩ := Node.mk.inj same
  constructor
  case found => rw [record, found]; rfl
  case prior =>
    show node.memo.state = old.state
    rw [memo, state, free]
    rfl
  case value => exact congrArg Memo.value? memo
  case failure => exact congrArg Memo.failure? memo
  case dependencies => exact dependencies
  case lastChanged => exact lastChanged
  case lastEvaluated => exact lastEvaluated
  case injected => exact injected

end Node

namespace Evaluator

variable {κ ν φ : Type} [Key κ] [BEq ν] {evaluator after : Evaluator κ ν φ}
  {registry : Registry κ ν φ} {roots : List κ}

theorem writes_invalidateFor (evaluator : Evaluator κ ν φ) (reason : Reason) (keys : List κ) :
    evaluator.graph.Writes (evaluator.invalidateFor reason keys).1.graph := fun key =>
  ((evaluator.invalidateFor_marked reason keys).nodes key).writes

theorem writes_retryTransient (evaluator : Evaluator κ ν φ) :
    evaluator.graph.Writes evaluator.retryTransient.graph :=
  retryTransient_kept (fun after => evaluator.graph.Writes after.graph) (.refl _)
    (writes_invalidateFor { evaluator with retries := [] } .transientRetry)

theorem writes_prune (evaluator : Evaluator κ ν φ) (keep : List κ) :
    evaluator.graph.Writes (evaluator.prune keep).1.graph := by
  intro key
  rw [nodeAt_prune]
  split
  · exact Node.writes_relist _ _
  · exact Node.writes_forget _

theorem Tidy.writes_inject (tidy : Tidy evaluator) (key : κ) (value : ν) :
    evaluator.graph.Writes (evaluator.inject key value).1.graph := by
  intro other
  cases equal : (evaluator.graph.value? key).any (· == value) with
  | true =>
      rw [nodeAt_inject_of_equal equal]
      split
      · rename_i isKey
        rw [isKey]
        cases found : evaluator.graph.value? key with
        | none => simp [found] at equal
        | some same =>
            rw [found, Option.any_some] at equal
            have valid := Graph.result?_eq key ▸ Graph.result?_of_value? found
            exact Node.writes_injected valid equal
      · exact .refl _
  | false =>
      have replaced := inject_replaced tidy equal
      have different : ∀ same, (evaluator.graph.nodeAt key).result? = some (.ok same) →
          (same == value) = false := by
        intro same valid
        rw [Graph.value?, Graph.result?_eq, valid] at equal
        exact equal
      by_cases same : other = key
      · subst same
        exact (Node.writes_withValue different evaluator.version.next).trans
          (Node.Alike.writes replaced.self)
      · rcases replaced.others other same with alike | ⟨result, valid, alike⟩
        · exact alike.writes
        · have dirtied := Node.Dirtied.writes (.inr ⟨result, valid, rfl⟩)
          exact dirtied.trans alike.writes

/-- Whatever happens to an evaluator, the records of its keys are only written
to. -/
theorem Turn.writes (turn : Turn evaluator after) (tidy : Tidy evaluator) :
    evaluator.graph.Writes after.graph := by
  cases turn with
  | inject key value => exact tidy.writes_inject key value
  | invalidate keys => exact evaluator.writes_invalidateFor .manual keys
  | prune keep => exact evaluator.writes_prune keep
  | interrupt => exact .refl _
  | evaluate registry evaluates =>
      obtain ⟨ends⟩ := evaluates
      exact evaluator.writes_retryTransient.trans
        (ends.writes (nodup_distinct _) (tidy.rested_opening _))

theorem Reachable.written (reachable : Reachable evaluator) (key : κ) :
    (evaluator.graph.nodeAt key).record.Written :=
  reachable.invariant (fun _ => Relation.ReflTransGen.refl) fun earlier turn written =>
    Relation.ReflTransGen.trans written (turn.writes earlier.tidy key)

theorem ComesTo.writes (tidy : Tidy evaluator) {now : Round κ ν φ × List κ}
    (comes : ComesTo registry evaluator roots now) :
    (evaluator.opening roots).graph.Writes now.1.graph := by
  obtain ⟨ready, order, moves⟩ := comes
  have rested := tidy.rested_opening roots
  have unique := nodup_distinct roots
  have begun := (evaluator.opening roots).begin_spec unique
  exact (Round.InOrder.begin unique rested order).writes moves begun.writes

theorem Reachable.written_opening (reachable : Reachable evaluator) (roots : List κ) (key : κ) :
    ((evaluator.opening roots).graph.nodeAt key).record.Written :=
  Relation.ReflTransGen.trans (reachable.written key) (evaluator.writes_retryTransient key)

theorem ComesTo.begin (registry : Registry κ ν φ) (evaluator : Evaluator κ ν φ) (roots : List κ) :
    ComesTo registry evaluator roots ((evaluator.opening roots).begin (distinct roots)) :=
  ⟨_, .refl _, .refl⟩

/-- A key that a round works on has been taken from what it was when the round
opened. -/
theorem ComesTo.takenFrom (reachable : Reachable evaluator) {now : Round κ ν φ}
    {left : List κ} (comes : ComesTo registry evaluator roots (now, left)) {key : κ}
    {work : Work κ φ} (found : (now.graph.nodeAt key).work = some work) :
    (now.graph.nodeAt key).record.TakenFrom ((evaluator.opening roots).graph.nodeAt key).record
      ⟨(now.graph.nodeAt key).memo.state, work⟩ := by
  have rested := reachable.tidy.rested_opening roots
  obtain ⟨_, same, _⟩ := (ComesTo.fate reachable.tidy comes key).of_work rested found
  exact Node.takenFrom_of_bare found (rested key) same

/-- After any history the records of all nodes are at rest, with fields that fit
their state. While a round goes on, records are only written to and stay well
formed. The record of a key that the round works on still holds what it held when
the round opened, and returns to that if the work is thrown away; a key is looked
up in vain exactly if it has no valid result; and what is being checked is
accepted again as the value or the failure that it was. -/
theorem records_stay_wellFormed (reachable : Reachable evaluator) :
    (∀ key node, evaluator.graph.node? key = some node →
      node.record.Written ∧ node.record.AtRest ∧ node.record.state ≠ .evaluating) ∧
    (∀ node : Node κ ν φ, node.Followed) ∧
    ∀ (registry : Registry κ ν φ) (roots : List κ) (now : Round κ ν φ) (left : List κ),
      ComesTo registry evaluator roots (now, left) →
      ∀ key node, now.graph.node? key = some node →
        Record.Writes ((evaluator.opening roots).graph.nodeAt key).record node.record ∧
        node.record.WellFormed ∧
        (node.record.state = .evaluating → ∃ building, node.record.Underway building ∧
          node.record.TakenFrom ((evaluator.opening roots).graph.nodeAt key).record building ∧
          node.record.rollBack =
            { ((evaluator.opening roots).graph.nodeAt key).record with
              dependents := node.record.dependents }) ∧
        node.record.lookup? = now.graph.result? key ∧
        (node.record.lookup? = none ↔ node.record.state.isSettled = false) ∧
        ∀ building version, node.record.building = some building →
          building.work.phase.isChecking = true →
            (node.revalidate version).record = node.record.revalidate version ∧
            (node.record.revalidate version).AtRest ∧
            (((node.record.revalidate version).state = .done ∧ node.record.value.isSome = true) ∨
              ((node.record.revalidate version).state = .error ∧
                node.record.failure.isSome = true)) := by
  refine ⟨?rest, Node.followed, ?underway⟩
  case rest =>
    intro key node found
    rw [← Graph.nodeAt_of_node? found]
    have rest := Node.atRest_of_free (reachable.written key) (reachable.tidy.rested key)
    exact ⟨reachable.written key, rest, rest.not_evaluating⟩
  case underway =>
    intro registry roots now left comes key node found
    obtain rfl := Graph.nodeAt_of_node? found
    have writes := ComesTo.writes reachable.tidy comes key
    have written : (now.graph.nodeAt key).record.Written :=
      Relation.ReflTransGen.trans (reachable.written_opening roots key) writes
    have wellFormed := written.wellFormed
    refine ⟨writes, wellFormed, ?evaluating, ?lookup, wellFormed.lookup?_eq_none_iff, ?checking⟩
    case evaluating =>
      intro evaluating
      obtain ⟨work, isWork⟩ := Option.isSome_iff_exists.mp
        (Node.state_eq_evaluating_iff.mp evaluating)
      have taken := ComesTo.takenFrom reachable comes isWork
      have underway := wellFormed.underway taken.found
      have opened := Node.atRest_of_free (reachable.written_opening roots key)
        (reachable.tidy.rested_opening roots key)
      exact ⟨_, underway, taken, underway.rollBack_eq taken opened.free⟩
    case lookup =>
      rw [Node.record_lookup?, Graph.result?_eq]
    case checking =>
      intro building version isBuilding checking
      have underway := wellFormed.underway isBuilding
      have dirty := underway.checks checking
      obtain ⟨work, _, rfl⟩ := Option.map_eq_some_iff.mp isBuilding
      obtain ⟨rest, which⟩ := underway.revalidate checking version
      exact ⟨Node.record_revalidate_of_dirty dirty version, rest, which⟩

/-- A key with a value and one that crashed rest on an input that has changed. -/
def renewed : Evaluator Nat Nat Empty :=
  (((build {} [(0, 7)] : Evaluator Nat Nat Empty).evaluate tangle 50 [1, 4]).1.inject 0 8).1

/-- The next round checks both. Accepted again, one is done and the other has
failed. -/
theorem records_stay_wellFormed_renewed :
    Reachable renewed ∧ ∃ (now : Round Nat Nat Empty) (left : List Nat),
      ComesTo tangle renewed [1, 4] (now, left) ∧
      [1, 4].map (fun key => (now.graph.nodeAt key).record.value) = [some 8, none] ∧
      [1, 4].map (fun key => ((now.graph.nodeAt key).record.revalidate 3).state) =
        [.done, .error] ∧
      ∀ key ∈ [1, 4], ∃ building, (now.graph.nodeAt key).record.Underway building := by
  have built : Reachable (build {} [(0, 7)] : Evaluator Nat Nat Empty) := .build ..
  have evaluated := built.turn (.evaluate tangle (evaluate_evaluates tangle 50 _ [1, 4]))
  have reachable : Reachable renewed := evaluated.turn (.inject _ 0 8)
  refine ⟨reachable, ((renewed.opening [1, 4]).begin (distinct [1, 4])).1,
    ((renewed.opening [1, 4]).begin (distinct [1, 4])).2, ComesTo.begin .., by decide +kernel,
    by decide +kernel, fun key member => ?_⟩
  have known : ∀ key ∈ [1, 4],
      key ∈ ((renewed.opening [1, 4]).begin (distinct [1, 4])).1.graph.keys := by decide +kernel
  have evaluating : ∀ key ∈ [1, 4],
      (((renewed.opening [1, 4]).begin (distinct [1, 4])).1.graph.nodeAt key).record.state =
        .evaluating := by decide +kernel
  obtain ⟨_, _, taken, _⟩ := (records_stay_wellFormed reachable).2.2 tangle [1, 4] _ _
    (ComesTo.begin tangle renewed [1, 4]) key _ (Graph.node?_of_mem (known key member))
  obtain ⟨building, underway, _⟩ := taken (evaluating key member)
  exact ⟨building, underway⟩

end Evaluator

end MemoGraph
