import MemoGraph.Proofs.Evaluator.Grounds
import MemoGraph.Proofs.Evaluator.Injections
import MemoGraph.Proofs.Evaluator.Retries
import MemoGraph.Proofs.Round.Matching

namespace MemoGraph.Evaluator

variable {κ ν φ : Type} [Key κ] {evaluator after : Evaluator κ ν φ} {registry : Registry κ ν φ}
  {key : κ}

/-- The dependency is one of those that a lasting result was derived from. -/
def Rests (evaluator : Evaluator κ ν φ) (dependency key : κ) : Prop :=
  ∃ result, (evaluator.graph.nodeAt key).result? = some result ∧
    Round.isTransient result = false ∧ ¬ evaluator.Injected key ∧
      dependency ∈ (evaluator.graph.nodeAt key).dependencies

/-- Lasting results were set from outside, or derived without circles from results
that are remembered. -/
structure Trusted (registry : Registry κ ν φ) (evaluator : Evaluator κ ν φ) : Prop where
  tidy : Tidy evaluator
  grounded : Grounded (registry.backing evaluator.Injected) evaluator
  founded : WellFounded evaluator.Rests
  rootless : ∀ key, evaluator.Injected key →
    (evaluator.graph.nodeAt key).dependencies = .empty ∧
      ∃ value, (evaluator.graph.nodeAt key).result? = some (.ok value)

theorem Trusted.empty (registry : Registry κ ν φ) (settings : Settings) :
    Trusted registry { settings } where
  tidy := .empty settings
  grounded := .empty _
  founded := ⟨fun key => ⟨key, fun _ ⟨_, found, _⟩ => by cases found⟩⟩
  rootless _ injected := by cases injected

theorem Trusted.pins (trusted : Trusted registry evaluator)
    (injected : evaluator.Injected key) : ∃ value, evaluator.Pins key value := by
  obtain ⟨bare, value, found⟩ := trusted.rootless key injected
  exact ⟨value, found, bare, injected⟩

section Invalidate

theorem Trusted.invalidateFor (trusted : Trusted registry evaluator) (reason : Reason)
    (keys : List κ) : Trusted registry (evaluator.invalidateFor reason keys).1 := by
  have marked := evaluator.invalidateFor_marked reason keys
  have injected := @injected_invalidateFor κ ν φ _ evaluator reason keys
  constructor
  case tidy => exact trusted.tidy.invalidateFor reason keys
  case grounded =>
    rw [injected]
    exact trusted.grounded.invalidateFor trusted.tidy reason keys
  case founded =>
    refine Subrelation.wf (fun {dependency key} rests => ?_) trusted.founded
    obtain ⟨result, found, lasting, own, needed⟩ := rests
    have same := (marked.nodes key).eq_of_settled (Node.isSettled_of_result? found)
    exact ⟨result, same ▸ found, lasting, injected ▸ own, same ▸ needed⟩
  case rootless =>
    intro key isInjected
    obtain ⟨value, pins⟩ := trusted.pins (injected ▸ isInjected)
    exact (pins.invalidateFor trusted.tidy reason keys).rootless

theorem Trusted.retryTransient (trusted : Trusted registry evaluator) :
    Trusted registry evaluator.retryTransient := by
  have cleared : Trusted registry { evaluator with retries := [] } :=
    ⟨⟨trusted.tidy.rested, trusted.tidy.linked⟩, trusted.grounded, trusted.founded,
      trusted.rootless⟩
  exact retryTransient_kept (Trusted registry) trusted (cleared.invalidateFor .transientRetry)

theorem Trusted.result?_retryTransient (trusted : Trusted registry evaluator)
    (injected : evaluator.Injected key) :
    evaluator.retryTransient.graph.result? key = evaluator.graph.result? key := by
  obtain ⟨value, pins⟩ := trusted.pins injected
  rw [Graph.result?_eq, Graph.result?_eq, pins.holds]
  exact (pins.retryTransient trusted.tidy).holds

/-- Before a round begins, only lasting results are left. -/
theorem Trusted.lasting_retryTransient (trusted : Trusted registry evaluator)
    (noted : Noted evaluator) {result : Result κ ν φ}
    (memo : (evaluator.retryTransient.graph.nodeAt key).memo = .valid result ∨
      (evaluator.retryTransient.graph.nodeAt key).memo = .dirty result) :
    Round.isTransient result = false := by
  by_cases injected : evaluator.Injected key
  · obtain ⟨_, value, found⟩ := trusted.rootless key injected
    rw [← Graph.result?_eq, ← trusted.result?_retryTransient injected, Graph.result?_eq] at found
    rw [(Node.result?_eq_some_iff.mp found).2] at memo
    have same : Except.ok value = result := by simpa using memo
    rw [← same]
    rfl
  · exact noted.lasting_retryTransient trusted.tidy injected memo

end Invalidate

section Prune

theorem Trusted.prune (trusted : Trusted registry evaluator) (keep : List κ) :
    Trusted registry (evaluator.prune keep).1 := by
  have injected := injected_prune trusted.tidy keep
  have node : ∀ {key result}, ((evaluator.prune keep).1.graph.nodeAt key).result? = some result →
      evaluator.kept keep key = true := by
    intro key result found
    rw [nodeAt_prune] at found
    split at found
    · assumption
    · cases found
  constructor
  case tidy => exact trusted.tidy.prune keep
  case grounded =>
    rw [injected]
    exact trusted.grounded.prune trusted.tidy keep
  case founded =>
    refine Subrelation.wf (fun {dependency key} rests => ?_) trusted.founded
    obtain ⟨result, found, lasting, own, needed⟩ := rests
    have isKept := node found
    rw [nodeAt_prune, if_pos isKept] at found needed
    exact ⟨result, found, lasting, injected ▸ own, needed⟩
  case rootless =>
    intro key isInjected
    obtain ⟨value, pins⟩ := trusted.pins (injected ▸ isInjected)
    exact (pins.prune trusted.tidy keep).rootless

end Prune

section Inject

variable [BEq ν] {value : ν}

/-- A new value, or the one that was set before, may be set from outside. -/
theorem Trusted.inject (trusted : Trusted registry evaluator) (key : κ) (value : ν)
    (fresh : evaluator.Injected key ∨ (evaluator.graph.value? key).any (· == value) = false) :
    Trusted registry (evaluator.inject key value).1 := by
  have tidy := trusted.tidy.inject key value
  cases equal : (evaluator.graph.value? key).any (· == value) with
  | true =>
      have injected : evaluator.Injected key := fresh.resolve_right (by simp [equal])
      have node : ∀ other, (evaluator.inject key value).1.graph.nodeAt other =
          evaluator.graph.nodeAt other := by
        intro other
        rw [nodeAt_inject_of_equal equal]
        split
        · rename_i same
          unfold Injected at injected
          rw [same, ← injected]
        · rfl
      have same : (evaluator.inject key value).1.Injected = evaluator.Injected := by
        funext other
        unfold Injected
        rw [node]
      refine ⟨tidy, ?_, ?_, fun other isInjected => ?_⟩
      · rw [same]
        exact trusted.grounded.inject_of_equal equal
      · refine Subrelation.wf (fun {dependency other} rests => ?_) trusted.founded
        unfold Rests at rests ⊢
        rwa [node, same] at rests
      · rw [node]
        exact trusted.rootless other (same ▸ isInjected)
  | false =>
      have replaced := inject_replaced trusted.tidy equal
      have isKey : (evaluator.inject key value).1.Injected key := replaced.self.injected
      have flags := injected_inject trusted.tidy key value
      constructor
      case tidy => exact tidy
      case grounded =>
        have rebased : Grounded (registry.backing (evaluator.inject key value).1.Injected)
            evaluator := by
          refine trusted.grounded.rebase id (fun other _ _ _ holds => ?_)
            fun other _ _ _ holds => .inr ?_
          · exact holds.imp_left fun injected => (flags other).mpr (.inl injected)
          · exact holds.imp_left fun injected => (flags other).mpr (.inl injected)
        exact rebased.inject_of_different trusted.tidy equal fun results => .inl isKey
      case founded =>
        refine Subrelation.wf (fun {dependency other} rests => ?_) trusted.founded
        obtain ⟨result, found, lasting, own, needed⟩ := rests
        have different : other ≠ key := fun same => own (same ▸ isKey)
        rcases replaced.others other different with alike | ⟨lost, _, alike⟩
        · exact ⟨result, alike.result? ▸ found, lasting,
            fun injected => own ((flags other).mpr (.inl injected)), alike.dependencies ▸ needed⟩
        · rw [alike.result?, Node.result?_dirty] at found
          cases found
      case rootless =>
        intro other isInjected
        by_cases same : other = key
        · subst same
          exact ⟨replaced.self.dependencies, value, replaced.self.result?⟩
        · have injected := ((flags other).mp isInjected).resolve_right same
          obtain ⟨held, pins⟩ := trusted.pins injected
          exact (pins.inject trusted.tidy (Ne.symm same) value).rootless

end Inject

section Evaluate

theorem Trusted.opening (trusted : Trusted registry evaluator) (noted : Noted evaluator)
    (roots : List κ) : Round.Honest registry evaluator.Injected evaluator.Injected
      (evaluator.opening roots) := by
  have retried := trusted.retryTransient
  have same := @injected_retryTransient κ ν φ _ evaluator
  have lasting : ∀ {key result},
      (evaluator.retryTransient.graph.nodeAt key).result? = some result →
        Round.isTransient result = false :=
    fun found => trusted.lasting_retryTransient noted (.inl (Node.result?_eq_some_iff.mp found).2)
  constructor
  case grounded =>
    have grounded := retried.grounded
    rw [same] at grounded
    exact grounded
  case derives =>
    intro key result found own
    obtain ⟨_, injected | derives⟩ := retried.grounded.settled key result found (lasting found)
    · exact absurd (same ▸ injected) own
    · exact derives.congr fun dependency _ => (Graph.result?_eq dependency).symm
  case founded =>
    refine Subrelation.wf (fun {dependency key} needs => ?_) retried.founded
    obtain ⟨settled, own, needed⟩ := needs
    obtain ⟨result, found⟩ := Node.exists_result? settled
    exact ⟨result, found, lasting found, same ▸ own, needed⟩
  case lasting => exact fun key result memo => trusted.lasting_retryTransient noted (.inr memo)
  case noted =>
    intro key result found passes
    rw [lasting found] at passes
    cases passes
  case includes => exact fun _ => id
  case passing =>
    intro key injected
    obtain ⟨_, value, found⟩ := retried.rootless key (same ▸ injected)
    exact ⟨_, found, .inl injected⟩
  case flagged =>
    intro key
    rw [← same]
    rfl
  case rootless => exact fun key injected => retried.rootless key (same ▸ injected)

variable [BEq ν] [LawfulBEq ν] {roots : List κ} {answer : Except Stop (Results κ ν φ)}

/-- What an evaluation leaves can be trusted, even where it was cut short. -/
theorem Trusted.evaluates (trusted : Trusted registry evaluator) (noted : Noted evaluator)
    (strict : registry.Strict) (evaluates : Evaluates registry evaluator roots after answer) :
    Trusted registry after := by
  have tidy := trusted.tidy.evaluates evaluates
  have same := injected_evaluates trusted.tidy evaluates
  obtain ⟨ends⟩ := evaluates
  rename_i final halt
  have unique := nodup_distinct roots
  have rested := trusted.tidy.rested_opening roots
  obtain ⟨later, honest⟩ := ends.honest strict unique rested (trusted.opening noted roots)
  refine ⟨tidy, ?_, ?_, fun key injected => honest.rootless key (same ▸ injected)⟩
  · rw [same]
    exact Grounded.closeRound trusted.tidy ends honest.grounded
  · refine Subrelation.wf (fun {dependency key} rests => ?_) honest.founded
    obtain ⟨result, found, lasting, own, needed⟩ := rests
    refine ⟨Node.isSettled_of_result? found, fun isGiven => ?_, needed⟩
    obtain ⟨other, isOther, injected | passes⟩ := honest.passing key isGiven
    · exact own (same ▸ injected)
    · have found : (final.graph.nodeAt key).result? = some result := found
      rw [isOther, Option.some.injEq] at found
      rw [← found, passes] at lasting
      cases lasting

end Evaluate

end MemoGraph.Evaluator
