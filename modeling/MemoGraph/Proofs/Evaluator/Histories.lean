import MemoGraph.Proofs.Evaluator.Inputs
import MemoGraph.Proofs.Round.Endings

namespace MemoGraph

namespace Round

variable {κ ν φ : Type} [Key κ] {round after final : Round κ ν φ} {roots ready : List κ}

theorem Begun.linked (begun : Begun round roots after ready) (linked : round.graph.Linked) :
    after.graph.Linked := by
  intro dependent dependency
  have edges : ∀ other,
      (after.graph.nodeAt other).dependencies = (round.graph.nodeAt other).dependencies ∧
        (after.graph.nodeAt other).dependents = (round.graph.nodeAt other).dependents := by
    intro other
    rw [begun.nodes]
    split
    · exact ⟨Node.dependencies_taken, Node.dependents_taken⟩
    · exact ⟨rfl, rfl⟩
  rw [(edges dependent).1, (edges dependency).2]
  exact linked dependent dependency

variable [BEq ν] {registry : Registry κ ν φ}

theorem InOrder.linked {now : Round κ ν φ × List κ} (inOrder : InOrder round ready)
    (moves : Advances registry roots (round, ready) now) (linked : round.graph.Linked) :
    now.1.graph.Linked :=
  inOrder.invariant moves (fun _ _ _ _ moved => moved.linked)
    (fun order => (failed_breakDeadlock order.waiting roots).linked) linked

theorem Ends.linked {halt : Halt} (ends : Ends registry roots round final halt)
    (unique : roots.Nodup) (rested : Rested round.graph) (linked : round.graph.Linked) :
    final.graph.Linked := by
  have begun := (round.begin_spec unique).linked linked
  cases ends with
  | cached => exact begun
  | complete order moves going finished =>
      have start := InOrder.begin unique rested order
      have inOrder := start.advances moves
      exact (failed_breakDeadlock inOrder.waiting roots).linked (start.linked moves begun)
  | cut order moves short =>
      have start := InOrder.begin unique rested order
      have inOrder := start.advances moves
      intro dependent dependency
      rw [nodeAt_rollBack_of_waiting inOrder.waiting, nodeAt_rollBack_of_waiting inOrder.waiting]
      exact start.linked moves begun dependent dependency

end Round

namespace Evaluator

/-! Everything that can happen to an evaluator.

An evaluation may step its keys in any order and may be cut short anywhere, so
what holds after every history holds for any number of workers and for a
cancellation at any time.
-/

variable {κ ν φ : Type} [Key κ] [BEq ν]

/-- The round of an evaluation before it begins. -/
def opening (evaluator : Evaluator κ ν φ) (roots : List κ) : Round κ ν φ :=
  evaluator.retryTransient.openRound.tell (.round (distinct roots))

omit [BEq ν] in
theorem Tidy.rested_opening {evaluator : Evaluator κ ν φ} (tidy : Tidy evaluator)
    (roots : List κ) : Round.Rested (evaluator.opening roots).graph :=
  tidy.retryTransient.rested

/-- A round and its ready keys are what an evaluation comes to on its way. -/
def ComesTo (registry : Registry κ ν φ) (evaluator : Evaluator κ ν φ) (roots : List κ)
    (now : Round κ ν φ × List κ) : Prop :=
  ∃ ready : List κ, ready.Perm ((evaluator.opening roots).begin (distinct roots)).2 ∧
    Round.Advances registry (distinct roots)
      (((evaluator.opening roots).begin (distinct roots)).1, ready) now

/-- What an evaluation answers when its round halted. -/
def answer (graph : Graph κ ν φ) (roots : List κ) :
    Round.Halt → Except Stop (Results κ ν φ)
  | .complete => .ok ⟨roots.map fun root => (root, resultOf graph root)⟩
  | .interrupted => .error .interrupted
  | .exhausted => .error .exhausted

/-- An evaluation of the roots, its keys stepped in any order. -/
inductive Evaluates (registry : Registry κ ν φ) (evaluator : Evaluator κ ν φ) (roots : List κ) :
    Evaluator κ ν φ → Except Stop (Results κ ν φ) → Prop
  | intro {final : Round κ ν φ} {halt : Round.Halt}
      (ends : Round.Ends registry (distinct roots) (evaluator.opening roots) final halt) :
      Evaluates registry evaluator roots (evaluator.retryTransient.closeRound final halt)
        (answer final.graph (distinct roots) halt)

/-- An evaluation as it is run is one of them. -/
theorem evaluate_evaluates (registry : Registry κ ν φ) (bound : Nat)
    (evaluator : Evaluator κ ν φ) (roots : List κ) :
    Evaluates registry evaluator roots (evaluator.evaluate registry bound roots).1
      (evaluator.evaluate registry bound roots).2 := by
  have ends := Round.run_ends registry bound (distinct roots) (evaluator.opening roots)
  have evaluates := Evaluates.intro ends
  unfold evaluate
  unfold opening at evaluates
  simp only
  generalize (evaluator.retryTransient.openRound.tell (.round (distinct roots))).run registry bound
    (distinct roots) = ended at evaluates ⊢
  obtain ⟨final, halt⟩ := ended
  cases halt <;> exact evaluates

theorem exists_evaluates (registry : Registry κ ν φ) (bound : Nat) (evaluator : Evaluator κ ν φ)
    (roots : List κ)
    (answered : (evaluator.evaluate registry bound roots).2.toOption.isSome = true) :
    ∃ results, Evaluates registry evaluator roots (evaluator.evaluate registry bound roots).1
      (.ok results) := by
  have evaluates := evaluate_evaluates registry bound evaluator roots
  generalize (evaluator.evaluate registry bound roots).2 = answer at answered evaluates
  cases answer with
  | ok results => exact ⟨results, evaluates⟩
  | error stop => cases answered

theorem Evaluates.complete {registry : Registry κ ν φ} {evaluator after : Evaluator κ ν φ}
    {roots : List κ} {results : Results κ ν φ}
    (evaluates : Evaluates registry evaluator roots after (.ok results)) :
    ∃ final, Round.Ends registry (distinct roots) (evaluator.opening roots) final .complete ∧
      after = evaluator.retryTransient.closeRound final .complete ∧
      results = ⟨(distinct roots).map fun root => (root, resultOf final.graph root)⟩ := by
  generalize answered : Except.ok results = given at evaluates
  obtain ⟨ends⟩ := evaluates
  rename_i final halt
  cases halt with
  | complete => cases answered; exact ⟨final, ends, rfl, rfl⟩
  | interrupted => cases answered
  | exhausted => cases answered

/-- One thing that happens to an evaluator. Functions may differ from one
evaluation to the next. -/
inductive Turn : Evaluator κ ν φ → Evaluator κ ν φ → Prop
  | inject (evaluator : Evaluator κ ν φ) (key : κ) (value : ν) :
      Turn evaluator (evaluator.inject key value).1
  | invalidate (evaluator : Evaluator κ ν φ) (keys : List κ) :
      Turn evaluator (evaluator.invalidate keys).1
  | prune (evaluator : Evaluator κ ν φ) (keep : List κ) : Turn evaluator (evaluator.prune keep).1
  | interrupt (evaluator : Evaluator κ ν φ) : Turn evaluator evaluator.interrupt
  | evaluate {evaluator after : Evaluator κ ν φ} {roots : List κ}
      {answer : Except Stop (Results κ ν φ)} (registry : Registry κ ν φ)
      (evaluates : Evaluates registry evaluator roots after answer) : Turn evaluator after

/-- One thing that happens to an evaluator, but not a new value for the key. -/
inductive Elsewhere (key : κ) : Evaluator κ ν φ → Evaluator κ ν φ → Prop
  | inject (evaluator : Evaluator κ ν φ) (other : κ) (value : ν) (different : other ≠ key) :
      Elsewhere key evaluator (evaluator.inject other value).1
  | invalidate (evaluator : Evaluator κ ν φ) (keys : List κ) :
      Elsewhere key evaluator (evaluator.invalidate keys).1
  | prune (evaluator : Evaluator κ ν φ) (keep : List κ) :
      Elsewhere key evaluator (evaluator.prune keep).1
  | interrupt (evaluator : Evaluator κ ν φ) : Elsewhere key evaluator evaluator.interrupt
  | evaluate {evaluator after : Evaluator κ ν φ} {roots : List κ}
      {answer : Except Stop (Results κ ν φ)} (registry : Registry κ ν φ)
      (evaluates : Evaluates registry evaluator roots after answer) :
      Elsewhere key evaluator after

theorem Elsewhere.turn {key : κ} {evaluator after : Evaluator κ ν φ}
    (elsewhere : Elsewhere key evaluator after) : Turn evaluator after := by
  cases elsewhere with
  | inject other value different => exact .inject _ other value
  | invalidate keys => exact .invalidate _ keys
  | prune keep => exact .prune _ keep
  | interrupt => exact .interrupt _
  | evaluate registry evaluates => exact .evaluate registry evaluates

/-- What can become of a new evaluator. -/
def Reachable (evaluator : Evaluator κ ν φ) : Prop :=
  ∃ settings : Settings, Relation.ReflTransGen Turn { settings } evaluator

section Reachable

variable {evaluator after : Evaluator κ ν φ}

theorem Reachable.turn (reachable : Reachable evaluator) (turn : Turn evaluator after) :
    Reachable after :=
  reachable.imp fun _ turns => turns.tail turn

theorem Reachable.invariant {holds : Evaluator κ ν φ → Prop} (reachable : Reachable evaluator)
    (new : ∀ settings, holds { settings })
    (turn : ∀ {before after}, Reachable before → Turn before after → holds before → holds after) :
    holds evaluator := by
  obtain ⟨settings, turns⟩ := reachable
  induction turns with
  | refl => exact new settings
  | tail earlier last ih => exact turn ⟨settings, earlier⟩ last ih

theorem Reachable.build (settings : Settings) (injections : List (κ × ν)) :
    Reachable (build settings injections : Evaluator κ ν φ) := by
  have start : Reachable ({ settings } : Evaluator κ ν φ) := ⟨settings, .refl⟩
  unfold Evaluator.build
  generalize ({ settings } : Evaluator κ ν φ) = evaluator at start ⊢
  induction injections generalizing evaluator with
  | nil => exact start
  | cons first rest ih => exact ih _ (start.turn (.inject _ first.1 first.2))

end Reachable

section Tidy

variable {evaluator after : Evaluator κ ν φ} {registry : Registry κ ν φ} {roots : List κ}
  {answer : Except Stop (Results κ ν φ)}

theorem Tidy.evaluates (tidy : Tidy evaluator)
    (evaluates : Evaluates registry evaluator roots after answer) : Tidy after := by
  obtain ⟨ends⟩ := evaluates
  have opened := tidy.retryTransient
  exact ⟨ends.rested (nodup_distinct roots) opened.rested,
    ends.linked (nodup_distinct roots) opened.rested opened.linked⟩

theorem Tidy.turn (tidy : Tidy evaluator) (turn : Turn evaluator after) : Tidy after := by
  cases turn with
  | inject key value => exact tidy.inject key value
  | invalidate keys => exact tidy.invalidateFor .manual keys
  | prune keep => exact tidy.prune keep
  | interrupt => exact ⟨tidy.rested, tidy.linked⟩
  | evaluate registry evaluates => exact tidy.evaluates evaluates

theorem Reachable.tidy (reachable : Reachable evaluator) : Tidy evaluator :=
  reachable.invariant .empty fun _ turn tidy => tidy.turn turn

end Tidy

end Evaluator

end MemoGraph
