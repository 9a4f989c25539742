import MemoGraph.Proofs.Evaluator.Chronicles
import MemoGraph.Proofs.Evaluator.Freshness

namespace MemoGraph.Evaluator

variable {κ ν φ : Type} [Key κ] [BEq ν] {settings : Settings} {registry : Registry κ ν φ}
  {before after evaluator : Evaluator κ ν φ} {count : Nat} {roots : List κ}

/-- What a number of turns can make of a new evaluator. -/
inductive History (settings : Settings) : Nat → Evaluator κ ν φ → Prop
  | new : History settings 0 { settings }
  | turn {count : Nat} {before after : Evaluator κ ν φ} (history : History settings count before)
      (turn : Turn before after) : History settings (count + 1) after

theorem History.reachable (history : History settings count evaluator) : Reachable evaluator := by
  induction history with
  | new => exact ⟨settings, .refl⟩
  | turn _ turn ih => exact ih.turn turn

theorem Reachable.exists_history (reachable : Reachable evaluator) :
    ∃ settings count, History settings count evaluator := by
  obtain ⟨settings, turns⟩ := reachable
  refine ⟨settings, ?_⟩
  induction turns with
  | refl => exact ⟨0, .new⟩
  | tail _ turn ih =>
      obtain ⟨count, history⟩ := ih
      exact ⟨count + 1, history.turn turn⟩

omit [BEq ν] in
theorem version_retryTransient_le :
    evaluator.retryTransient.version ≤ evaluator.version + 1 := by
  unfold retryTransient
  split
  · exact Nat.le_succ _
  · exact Nat.le_refl _

/-- No turn raises the version by more than one. -/
theorem Turn.version_le (turn : Turn before after) (tidy : Tidy before) :
    after.version ≤ before.version + 1 := by
  cases turn with
  | inject key value =>
      cases equal : (before.graph.value? key).any (· == value) with
      | true =>
          rw [inject_of_equal equal]
          exact Nat.le_succ _
      | false => exact Nat.le_of_eq (inject_replaced tidy equal).version
  | invalidate keys => exact Nat.le_refl _
  | prune keep => exact Nat.le_succ _
  | interrupt => exact Nat.le_succ _
  | evaluate registry evaluates =>
      obtain ⟨ends⟩ := evaluates
      exact version_retryTransient_le

theorem History.version_le (history : History settings count evaluator) :
    evaluator.version ≤ count := by
  induction history with
  | new => exact Nat.le_refl 0
  | turn earlier turn ih =>
      exact (turn.version_le earlier.reachable.tidy).trans (Nat.succ_le_succ ih)

/-- On its way an evaluation keeps the versions of nodes in order. -/
theorem Dated.comesTo (dated : evaluator.Dated) (tidy : Tidy evaluator)
    {now : Round κ ν φ × List κ} (comes : ComesTo registry evaluator roots now) (key : κ) :
    (now.1.graph.nodeAt key).Dated evaluator.retryTransient.version := by
  obtain ⟨ready, order, moves⟩ := comes
  have inOrder := (Round.InOrder.begin (nodup_distinct roots) (tidy.rested_opening roots)
    order).advances moves
  -- Were the round cut short here, it would leave these versions as they are.
  have cut : Round.Ends registry (distinct roots) (evaluator.opening roots) now.1.rollBack
      .interrupted := .cut order moves nofun
  exact .of_bare (Round.bare_rollBack inOrder key).symm
    (dated.turn tidy (.evaluate registry (.intro cut)) key)

theorem History.fits (history : History settings count evaluator) (few : count + 1 < UInt64.size)
    {now : Round κ ν φ × List κ} (comes : ComesTo registry evaluator roots now) :
    evaluator.version.next.Fits ∧ now.1.version.Fits ∧
      ∀ key, (now.1.graph.nodeAt key).lastChanged.Fits ∧
        (now.1.graph.nodeAt key).lastEvaluated.Fits := by
  have dated := history.reachable.dated
  have tidy := history.reachable.tidy
  have next : evaluator.version.next.Fits :=
    Nat.lt_of_le_of_lt (Nat.succ_le_succ history.version_le) few
  have opened : evaluator.retryTransient.version.Fits := next.of_le version_retryTransient_le
  refine ⟨next, comes.version tidy ▸ opened, fun key => ?_⟩
  have node := dated.comesTo tidy comes key
  exact ⟨opened.of_le (node.changed_le.trans node.evaluated_le), opened.of_le node.evaluated_le⟩

/-- Unless an evaluator was turned to some 2^64 times, the words that versions are stored
in stand for them: the version is not counted up beyond the largest word, and at any
moment of an evaluation words compare like the versions that nodes were computed and
changed at. -/
theorem History.words_exact (history : History settings count evaluator)
    (few : count + 1 < UInt64.size) {now : Round κ ν φ × List κ}
    (comes : ComesTo registry evaluator roots now) :
    (evaluator.version.word + 1).toNat = evaluator.version.next ∧
      now.1.version.word.toNat = now.1.version ∧
      ∀ key dependency,
        ((now.1.graph.nodeAt key).lastEvaluated.word <
            (now.1.graph.nodeAt dependency).lastChanged.word ↔
          (now.1.graph.nodeAt key).lastEvaluated < (now.1.graph.nodeAt dependency).lastChanged) := by
  obtain ⟨next, current, nodes⟩ := history.fits few comes
  refine ⟨?_, Version.toNat_word current, fun key dependency => ?_⟩
  · rw [← Version.word_next, Version.toNat_word next]
  · exact Version.word_lt_word (nodes key).2 (nodes dependency).1

end MemoGraph.Evaluator
