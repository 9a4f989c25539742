import MemoGraph.Proofs.Evaluator.Stories
import MemoGraph.Proofs.Round.Deliveries

namespace MemoGraph.Evaluator

variable {κ ν φ : Type} [Key κ] [BEq ν] {evaluator : Evaluator κ ν φ}
  {commits : List (Commit κ ν φ)}

/-- A history that ends with the evaluator, and everything that was committed in
its rounds, in order. -/
inductive Tallied : Evaluator κ ν φ → List (Commit κ ν φ) → Prop
  | new (settings : Settings) : Tallied { settings } []
  | inject {evaluator : Evaluator κ ν φ} {commits : List (Commit κ ν φ)}
      (tallied : Tallied evaluator commits) (key : κ) (value : ν) :
      Tallied (evaluator.inject key value).1 commits
  | invalidate {evaluator : Evaluator κ ν φ} {commits : List (Commit κ ν φ)}
      (tallied : Tallied evaluator commits) (keys : List κ) :
      Tallied (evaluator.invalidate keys).1 commits
  | prune {evaluator : Evaluator κ ν φ} {commits : List (Commit κ ν φ)}
      (tallied : Tallied evaluator commits) (keep : List κ) :
      Tallied (evaluator.prune keep).1 commits
  | interrupt {evaluator : Evaluator κ ν φ} {commits : List (Commit κ ν φ)}
      (tallied : Tallied evaluator commits) : Tallied evaluator.interrupt commits
  | evaluate {evaluator : Evaluator κ ν φ} {commits : List (Commit κ ν φ)}
      {registry : Registry κ ν φ} {roots : List κ} {moves : List (Move κ ν φ)}
      {final : Round κ ν φ} {halt : Round.Halt} (tallied : Tallied evaluator commits)
      (closes : Round.Closes registry (distinct roots) (evaluator.opening roots) moves final halt) :
      Tallied (evaluator.retryTransient.closeRound final halt)
        (commits ++ Round.commitsOf registry (distinct roots) moves)

theorem Tallied.reachable (tallied : Tallied evaluator commits) : Reachable evaluator := by
  induction tallied with
  | new settings => exact ⟨settings, .refl⟩
  | inject _ key value reachable => exact reachable.turn (.inject _ key value)
  | invalidate _ keys reachable => exact reachable.turn (.invalidate _ keys)
  | prune _ keep reachable => exact reachable.turn (.prune _ keep)
  | interrupt _ reachable => exact reachable.turn (.interrupt _)
  | evaluate _ closes reachable => exact reachable.turn (.evaluate _ (.intro closes.ends))

theorem Reachable.tallied (reachable : Reachable evaluator) :
    ∃ commits, Tallied evaluator commits := by
  obtain ⟨settings, turns⟩ := reachable
  induction turns with
  | refl => exact ⟨[], .new settings⟩
  | tail _ turn ih =>
      obtain ⟨commits, tallied⟩ := ih
      cases turn with
      | inject key value => exact ⟨commits, tallied.inject key value⟩
      | invalidate keys => exact ⟨commits, tallied.invalidate keys⟩
      | prune keep => exact ⟨commits, tallied.prune keep⟩
      | interrupt => exact ⟨commits, tallied.interrupt⟩
      | evaluate registry evaluates =>
          obtain ⟨moves, final, halt, closes, rfl⟩ := evaluates.closes
          exact ⟨_, tallied.evaluate closes⟩

section Before

omit [Key κ] [BEq ν] in
theorem ledger_announced {before after : Array (Signal κ φ)}
    (ledger : Ledger commits before.toList) (announces : Announces before after) :
    Ledger commits after.toList := by
  obtain ⟨records, told⟩ := announces
  rw [told, ← List.append_nil commits]
  refine ledger.append (.of_quiet fun signal listed => ?_)
  obtain ⟨record, _, rfl⟩ := List.mem_map.mp listed
  exact ⟨rfl, rfl⟩

omit [BEq ν] in
theorem ledger_opening (ledger : Ledger commits evaluator.log.toList) (roots : List κ) :
    Ledger commits (evaluator.opening roots).log.toList := by
  have announced := ledger_announced ledger announces_retryTransient
  have opened : (evaluator.opening roots).log.toList =
      evaluator.retryTransient.log.toList ++ [.round (distinct roots)] := Array.toList_push
  rw [opened, ← List.append_nil commits]
  exact announced.append (.quiet rfl rfl .nil)

omit [BEq ν] in
theorem runs_opening (roots : List κ) : (evaluator.opening roots).runs = evaluator.runs :=
  retryTransient_kept (fun after => after.runs = evaluator.runs) rfl fun _ => rfl

theorem runs_inject (key : κ) (value : ν) :
    (evaluator.inject key value).1.runs = evaluator.runs := by
  unfold inject
  simp only
  split <;> rfl

end Before

theorem Tallied.ledger (tallied : Tallied evaluator commits) :
    Ledger commits evaluator.log.toList ∧ Numbered 0 evaluator.runs commits := by
  induction tallied with
  | new settings => exact ⟨.nil, .of_silent (Nat.le_refl 0) (by simp)⟩
  | inject _ key value ih =>
      exact ⟨ledger_announced ih.1 (announces_inject key value), (runs_inject key value).symm ▸ ih.2⟩
  | invalidate _ keys ih => exact ⟨ledger_announced ih.1 (announces_invalidated _ _), ih.2⟩
  | prune _ _ ih | interrupt _ ih => exact ih
  | @evaluate _ _ _ roots _ _ _ tallied closes ih =>
      have delivers := closes.delivers (nodup_distinct roots) (tallied.reachable.tidy.rested_opening roots)
      obtain ⟨signals, told, ledger⟩ := delivers.ledger
      have numbered := delivers.numbered
      rw [runs_opening] at numbered
      refine ⟨?_, ih.2.append numbered⟩
      have whole := (ledger_opening ih.1 roots).append ledger
      rwa [← told] at whole

/-- Take any history, in which rounds may be cut short anywhere, and what its
rounds committed. Everything that the observer was told of ends of keys and of
events comes from these commits, one after another: each one tells the events
that it delivers, and right after them the end of its key. A commit delivers the
events of the run that gave the key its own value or its own failure, in the
order of report, and nothing else does: a result that was confirmed, that was
given for a failed dependency, a cycle, a crash, an unregistered kind or a run
that gave up for nothing, comes without events. So the listener receives in the
name of a key what its commits deliver. No run commits twice, and a run that
leaves its key without a result delivers nothing. -/
theorem events_are_delivered_once (reachable : Reachable evaluator) :
    (∃ commits, Tallied evaluator commits) ∧
    (∀ commits, Tallied evaluator commits →
      Ledger commits evaluator.log.toList ∧
      (∀ key, receivedFrom key evaluator.log.toList =
        (commits.filter fun commit => commit.key = key).flatMap Commit.delivered) ∧
      Numbered 0 evaluator.runs commits) ∧
    ∀ registry roots moves final halt,
      Round.Closes registry (distinct roots) (evaluator.opening roots) moves final halt →
        ∀ before key, .step before key ∈ moves →
          (before.step registry key).1.isSettled key = false →
            received (before.step registry key).1.log.toList = received before.log.toList := by
  refine ⟨reachable.tallied, fun commits tallied => ?_, fun registry roots moves final halt closes => ?_⟩
  · obtain ⟨ledger, numbered⟩ := tallied.ledger
    exact ⟨ledger, ledger.receivedFrom_eq, numbered⟩
  · exact (closes.delivers (nodup_distinct roots) (reachable.tidy.rested_opening roots)).silent

/-- The second key reports before and after it asks for the first. -/
def herald : Registry Nat Nat Empty where
  kindName _ := "herald"
  function? key := some fun _ =>
    match key with
    | 0 => .finish (.value 0)
    | _ => .report .info "asking" <| .request [0] none fun _ => .check <|
        .report .info "answered" <| .finish (.value key)

/-- Of three runs two are for the second key. What it reported is received once,
though the first of them reported, too, and there are two evaluations. -/
theorem events_are_delivered_once_herald :
    ∃ (evaluator : Evaluator Nat Nat Empty) (commits : List (Commit Nat Nat Empty)),
      Reachable evaluator ∧ Tallied evaluator commits ∧ evaluator.runs = 3 ∧
      receivedFrom 1 evaluator.log.toList = [⟨.info, 1, "asking"⟩, ⟨.info, 1, "answered"⟩] ∧
      (commits.filter fun commit => commit.key = 1).flatMap Commit.delivered =
        [⟨.info, 1, "asking"⟩, ⟨.info, 1, "answered"⟩] := by
  let fresh : Evaluator Nat Nat Empty := { settings := {} }
  let once := (fresh.evaluate herald 20 [1]).1
  let twice := (once.evaluate herald 20 [1]).1
  have start : Reachable fresh := ⟨{}, .refl⟩
  have reachable : Reachable twice :=
    (start.turn (.evaluate herald (evaluate_evaluates herald 20 fresh [1]))).turn
      (.evaluate herald (evaluate_evaluates herald 20 once [1]))
  have told : receivedFrom 1 twice.log.toList =
      [⟨.info, 1, "asking"⟩, ⟨.info, 1, "answered"⟩] := by decide +kernel
  obtain ⟨⟨commits, tallied⟩, delivered, _⟩ := events_are_delivered_once reachable
  exact ⟨twice, commits, reachable, tallied, by decide +kernel, told,
    ((delivered commits tallied).2.1 1).symm.trans told⟩

end MemoGraph.Evaluator
