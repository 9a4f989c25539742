import MemoGraph.Proofs.Evaluator.Completion
import MemoGraph.Proofs.Evaluator.Moments
import MemoGraph.Proofs.Evaluator.Stories
import MemoGraph.Proofs.Round.Chronicles

namespace MemoGraph

namespace Evaluator

variable {κ ν φ : Type} [Key κ] {evaluator : Evaluator κ ν φ}

/-- The observer was told of no deeds. -/
def Quiet (before after : Array (Signal κ φ)) : Prop :=
  ∃ told, after.toList = before.toList ++ told ∧ ∀ key, deeds key told = []

theorem Quiet.refl (log : Array (Signal κ φ)) : Quiet log log :=
  ⟨[], (List.append_nil _).symm, fun _ => rfl⟩

theorem Quiet.trans {before middle after : Array (Signal κ φ)} (left : Quiet before middle)
    (right : Quiet middle after) : Quiet before after := by
  obtain ⟨told, log, none⟩ := left
  obtain ⟨more, laterLog, noMore⟩ := right
  refine ⟨told ++ more, by rw [laterLog, log, List.append_assoc], fun key => ?_⟩
  rw [deeds_append, none, noMore, List.append_nil]

theorem Announces.quiet {before after : Array (Signal κ φ)} (announces : Announces before after) :
    Quiet before after := by
  obtain ⟨records, told⟩ := announces
  refine ⟨_, told, fun key => ?_⟩
  unfold deeds
  rw [List.filter_eq_nil_iff]
  intro signal listed
  obtain ⟨record, _, rfl⟩ := List.mem_map.mp listed
  simp [Signal.isDeed]

/-- Before a round begins, an evaluation at most turns to a new version. -/
theorem retryTransient_cases : evaluator.retryTransient = evaluator ∨
    evaluator.retryTransient.version = evaluator.version.next := by
  unfold retryTransient
  split
  · exact .inl rfl
  · exact .inr rfl

theorem quiet_opening (roots : List κ) : Quiet evaluator.log (evaluator.opening roots).log :=
  announces_retryTransient.quiet.trans ⟨[.round (distinct roots)], Array.toList_push, fun _ => rfl⟩

theorem ComesTo.version [BEq ν] {registry : Registry κ ν φ} {roots : List κ}
    {now : Round κ ν φ × List κ} (comes : ComesTo registry evaluator roots now)
    (tidy : Tidy evaluator) : now.1.version = evaluator.retryTransient.version :=
  (Round.ComesTo.recounted comes (nodup_distinct roots) (tidy.rested_opening roots)).2.version

end Evaluator

namespace Moment

variable {κ ν φ : Type} [Key κ] {before middle after : Moment κ ν φ}

/-- How a later moment follows an earlier one: the version does not fall, and
what was told in between accounts for all results unless it rose. -/
structure Follows (before after : Moment κ ν φ) : Prop where
  version : before.version ≤ after.version
  told : after.version = before.version → ∃ told, after.log.toList = before.log.toList ++ told ∧
    before.graph.Chronicled told after.graph

theorem Follows.refl (moment : Moment κ ν φ) : moment.Follows moment :=
  ⟨Nat.le_refl _, fun _ => ⟨[], (List.append_nil _).symm, fun _ => .idle _⟩⟩

theorem Follows.trans (left : before.Follows middle) (right : middle.Follows after) :
    before.Follows after := by
  refine ⟨Nat.le_trans left.version right.version, fun same => ?_⟩
  have notLater : middle.version = before.version :=
    Nat.le_antisymm (same ▸ right.version) left.version
  obtain ⟨told, log, chronicled⟩ := left.told notLater
  obtain ⟨more, laterLog, laterChronicled⟩ := right.told (same.trans notLater.symm)
  exact ⟨told ++ more, by rw [laterLog, log, List.append_assoc], chronicled.trans laterChronicled⟩

/-- What tells of no deeds and changes no result unless the version rises. -/
theorem Follows.of_quiet (version : before.version ≤ after.version)
    (quiet : Evaluator.Quiet before.log after.log)
    (results : after.version = before.version →
      ∀ key, after.graph.result? key = before.graph.result? key) : before.Follows after := by
  refine ⟨version, fun same => ?_⟩
  obtain ⟨told, log, none⟩ := quiet
  refine ⟨told, log, fun key => ?_⟩
  rw [none, results same]
  exact .idle _

variable {evaluator : Evaluator κ ν φ}

theorem follows_begin (evaluator : Evaluator κ ν φ) (roots : List κ) (begun : Moment κ ν φ)
    (graph : begun.graph = ((evaluator.opening roots).begin (distinct roots)).1.graph)
    (log : begun.log = ((evaluator.opening roots).begin (distinct roots)).1.log)
    (version : begun.version = evaluator.retryTransient.version) :
    (rest evaluator).Follows begun ∧ Evaluator.Quiet evaluator.log begun.log := by
  have quiet : Evaluator.Quiet evaluator.log begun.log := by
    rw [log]
    exact (Evaluator.quiet_opening roots).trans (Round.deeds_begin (nodup_distinct roots))
  refine ⟨.of_quiet ?_ quiet fun same key => ?_, quiet⟩
  · show evaluator.version ≤ begun.version
    rcases evaluator.retryTransient_cases with unchanged | rises
    · rw [version, unchanged]
    · rw [version, rises]
      exact Nat.le_succ _
  · have unchanged := evaluator.retryTransient_cases.resolve_right fun rises =>
      Nat.succ_ne_self _ (rises.symm.trans (version.symm.trans same))
    rw [graph, ((evaluator.opening roots).begin_spec (nodup_distinct roots)).result?]
    show evaluator.retryTransient.graph.result? key = evaluator.graph.result? key
    rw [unchanged]

variable [BEq ν]

theorem follows_inject (tidy : Evaluator.Tidy evaluator) (key : κ) (value : ν) :
    (rest evaluator).Follows (rest (evaluator.inject key value).1) := by
  cases equal : (evaluator.graph.value? key).any (· == value) with
  | true =>
      refine .of_quiet ?_ (Evaluator.announces_inject key value).quiet fun _ other => ?_
      · rw [Evaluator.inject_of_equal equal]
        exact Nat.le_refl _
      · show (evaluator.inject key value).1.graph.result? other = evaluator.graph.result? other
        rw [Graph.result?_eq, Graph.result?_eq, Evaluator.nodeAt_inject_of_equal equal]
        split
        · rename_i same
          rw [same]
          rfl
        · rfl
  | false =>
      have rises : (evaluator.inject key value).1.version = evaluator.version.next :=
        (Evaluator.inject_replaced tidy equal).version
      refine .of_quiet ?_ (Evaluator.announces_inject key value).quiet fun same => ?_
      · show evaluator.version ≤ (evaluator.inject key value).1.version
        rw [rises]
        exact Nat.le_succ _
      · exact absurd (rises.symm.trans same) (Nat.succ_ne_self _)

/-- Whatever happens next, what is told of it accounts for all results, and a
rise of the version comes without deeds. -/
theorem Next.follows (next : Next before after) (reached : before.Reached) :
    before.Follows after ∧
      (after.version ≠ before.version → Evaluator.Quiet before.log after.log) := by
  have chronicled : ∀ {before after : Moment κ ν φ}, after.version = before.version →
      (∃ told, after.log.toList = before.log.toList ++ told ∧
        before.graph.Chronicled told after.graph) →
      before.Follows after ∧
        (after.version ≠ before.version → Evaluator.Quiet before.log after.log) :=
    fun same told => ⟨⟨Nat.le_of_eq same.symm, fun _ => told⟩, fun rises => absurd same rises⟩
  cases next with
  | inject evaluator key value =>
      exact ⟨follows_inject (Evaluator.Reachable.tidy reached) key value,
        fun _ => (Evaluator.announces_inject key value).quiet⟩
  | invalidate evaluator keys =>
      have quiet : Evaluator.Quiet evaluator.log (evaluator.invalidate keys).1.log :=
        (Evaluator.announces_invalidated evaluator.log _).quiet
      exact ⟨.of_quiet (Nat.le_succ evaluator.version) quiet
        fun same => absurd same (Nat.succ_ne_self evaluator.version), fun _ => quiet⟩
  | interrupt evaluator =>
      exact ⟨.of_quiet (Nat.le_refl evaluator.version) (.refl evaluator.log) fun _ _ => rfl,
        fun rises => absurd rfl rises⟩
  | @begin registry roots evaluator ready order =>
      have context := ((evaluator.opening roots).begin_spec (nodup_distinct roots)).context
      obtain ⟨follows, quiet⟩ := follows_begin evaluator roots
        (underway registry roots evaluator
          (((evaluator.opening roots).begin (distinct roots)).1, ready)) rfl rfl context.version
      exact ⟨follows, fun _ => quiet⟩
  | @cached registry roots evaluator nothing =>
      obtain ⟨follows, quiet⟩ := follows_begin evaluator roots
        (rest (evaluator.retryTransient.closeRound
          ((evaluator.opening roots).begin (distinct roots)).1 .complete)) rfl rfl rfl
      exact ⟨follows, fun _ => quiet⟩
  | @move registry roots evaluator now later move =>
      obtain ⟨reachable, comes⟩ := reached
      have sound := Evaluator.ComesTo.sound reachable.tidy comes
      cases move with
      | step going chosen order =>
          have member := chosen.mem_iff.mpr List.mem_cons_self
          obtain ⟨_, _, _, _, _, moved⟩ := sound.moved member registry
          exact chronicled moved.version (sound.step_chronicled member)
      | unblock going blocked order =>
          exact chronicled (Round.failed_breakDeadlock sound.waiting _).version
            (Round.breakDeadlock_chronicled sound.waiting _)
  | @finish registry roots evaluator last going finished =>
      obtain ⟨reachable, comes⟩ := reached
      have sound := Evaluator.ComesTo.sound reachable.tidy comes
      exact chronicled (comes.version reachable.tidy).symm
        (Round.breakDeadlock_chronicled sound.waiting _)
  | @cut registry roots evaluator now halt short =>
      obtain ⟨reachable, comes⟩ := reached
      have version := (comes.version reachable.tidy).symm
      exact ⟨.of_quiet (Nat.le_of_eq version.symm) (.refl now.1.log)
        fun _ => Evaluator.ComesTo.result?_rollBack reachable.tidy comes,
        fun rises => absurd version rises⟩

theorem Reached.follows (reached : before.Reached)
    (history : Relation.ReflTransGen Next before after) : after.Reached ∧ before.Follows after := by
  induction history with
  | refl => exact ⟨reached, .refl _⟩
  | tail _ next ih =>
      obtain ⟨reached, follows⟩ := ih
      exact ⟨reached.next next, follows.trans (next.follows reached).1⟩

end Moment

namespace Evaluator

variable {κ ν φ : Type} [Key κ] [BEq ν] {earlier later : Moment κ ν φ}

/-- Take any two moments of any life, between which nothing is pruned and the
version is the same: evaluations of any roots and with any functions may lie
between them, completed or cut short, and the moments may lie in the middle of
evaluations. Then a key that had a result at the first has that result at the
second, and neither was its function run in between nor was it given a result.
A key without a result at the first was run any number of times, and then, if
it has one at the second, given a result once and not run again. When the
version rises, nothing is run and nothing is given a result. What evaluations
at this version answer with are the results that there were before. -/
theorem commits_once (reached : earlier.Reached)
    (history : Relation.ReflTransGen Moment.Next earlier later)
    (sameVersion : later.version = earlier.version) :
    (∃ told, later.log.toList = earlier.log.toList ++ told ∧
      ∀ key, Chronicle key (earlier.result? key) (deeds key told) (later.result? key)) ∧
    (∀ next, Moment.Next later next → next.version ≠ later.version →
      ∃ told, next.log.toList = later.log.toList ++ told ∧ ∀ key, deeds key told = []) ∧
    ∀ evaluator registry roots after results, later = .rest evaluator →
      Evaluates registry evaluator roots after (.ok results) → after.version = earlier.version →
      ∀ root ∈ roots, ∀ result, earlier.result? root = some result →
        results.get? root = some result := by
  obtain ⟨reachedLater, follows⟩ := reached.follows history
  refine ⟨follows.told sameVersion, fun next happens => (happens.follows reachedLater).2, ?_⟩
  rintro evaluator registry roots after results rfl evaluates same root isRoot result found
  have afterwards := reached.follows (history.trans (Moment.next_of_evaluates evaluates))
  obtain ⟨told, _, chronicled⟩ := afterwards.2.told same
  obtain ⟨final, _, rfl, rfl⟩ := evaluates.complete
  have chronicle := chronicled root
  rw [show earlier.graph.result? root = some result from found] at chronicle
  have kept : final.graph.result? root = some result := chronicle.of_some.2
  rw [Results.get?_of_mem (mem_distinct.mpr isRoot), resultOf, kept]
  rfl

/-- Each key asks for the one before it. -/
def stairs : Registry Nat Nat Empty where
  kindName _ := "stairs"
  function? key := some fun _ =>
    match key with
    | 0 => .finish (.value 0)
    | below + 1 => .request [below] none fun _ => .check (.finish (.value (below + 1)))

/-- Two evaluations share a version. The first is cut short when one key has a
result, and only the other is run in the second. -/
theorem commits_once_stairs : ∃ (fresh cut after : Evaluator Nat Nat Empty) (told : List _)
    (results : Results Nat Nat Empty),
    Moment.Reached (.rest fresh) ∧ Evaluates stairs fresh [1] cut (.error .exhausted) ∧
      Evaluates stairs cut [1] after (.ok results) ∧ after.version = fresh.version ∧
      after.log.toList = fresh.log.toList ++ told ∧
      deeds 0 told = [.compute 0 0, .finish 0 .changed] ∧
      deeds 1 told = [.compute 1 0, .compute 1 0, .finish 1 .changed] ∧
      Chronicle 0 (fresh.graph.result? 0) (deeds 0 told) (after.graph.result? 0) ∧
      after.graph.result? 0 = cut.graph.result? 0 := by
  let fresh : Evaluator Nat Nat Empty := { settings := {} }
  have first := evaluate_evaluates stairs 2 fresh [1]
  have isCut : (fresh.evaluate stairs 2 [1]).2 = .error .exhausted := by rfl
  rw [isCut] at first
  obtain ⟨results, second⟩ := exists_evaluates stairs 20 (fresh.evaluate stairs 2 [1]).1 [1]
    (by decide +kernel)
  have version : ((fresh.evaluate stairs 2 [1]).1.evaluate stairs 20 [1]).1.version =
      fresh.version := by decide +kernel
  have below : deeds 0 ((fresh.evaluate stairs 2 [1]).1.evaluate stairs 20 [1]).1.log.toList =
      [.compute 0 0, .finish 0 .changed] := by decide +kernel
  have above : deeds 1 ((fresh.evaluate stairs 2 [1]).1.evaluate stairs 20 [1]).1.log.toList =
      [.compute 1 0, .compute 1 0, .finish 1 .changed] := by decide +kernel
  have same : ((fresh.evaluate stairs 2 [1]).1.evaluate stairs 20 [1]).1.graph.result? 0 =
      (fresh.evaluate stairs 2 [1]).1.graph.result? 0 := by decide +kernel
  generalize ((fresh.evaluate stairs 2 [1]).1.evaluate stairs 20 [1]).1 = after at *
  have reached : Moment.Reached (.rest fresh) := (⟨{}, .refl⟩ : Reachable fresh)
  have history := (Moment.next_of_evaluates first).trans (Moment.next_of_evaluates second)
  obtain ⟨⟨told, log, chronicle⟩, _⟩ := commits_once reached history version
  have isTold : after.log.toList = told := log
  rw [isTold] at below above
  exact ⟨fresh, _, after, told, results, reached, first, second, version, log, below, above,
    chronicle 0, same⟩

end Evaluator

end MemoGraph
