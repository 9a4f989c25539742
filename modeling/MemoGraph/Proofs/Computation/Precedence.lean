import MemoGraph.Proofs.Computation.Blame
import MemoGraph.Proofs.Computation.Strict

namespace MemoGraph

namespace Attempt

variable {κ ν φ : Type}

/-- One of the handlers that the run named for the key accepts the failure. -/
def Accepts (attempt : Attempt κ φ) (key : κ) (failure : Failure κ φ) : Prop :=
  ∃ handler, (key, handler) ∈ attempt.handlers ∧ failure.passes handler = true

/-- Of the keys that the run requested, the dependency is the first one with a
failure that none of the handlers named for it accepts. -/
structure Foremost (results : κ → Option (Result κ ν φ)) (attempt : Attempt κ φ) (dependency : κ)
    (cause : Failure κ φ) : Prop where
  failed : results dependency = some (.error cause)
  refused : ¬ attempt.Accepts dependency cause
  first : ∃ earlier later, attempt.requested.keys = earlier ++ dependency :: later ∧
    ∀ other ∈ earlier, ∀ failure, results other = some (.error failure) →
      attempt.Accepts other failure

/-- The failure behind a run that fails for a dependency: the foremost one, or,
if all failures are accepted, the first that a request did not offer to handle. -/
inductive Precedes (results : κ → Option (Result κ ν φ)) (attempt : Attempt κ φ)
    (dependency : κ) (cause : Failure κ φ) : Prop
  | foremost (foremost : attempt.Foremost results dependency cause)
  | fallback
      (accepted : ∀ other ∈ attempt.requested, ∀ failure, results other = some (.error failure) →
        attempt.Accepts other failure)
      (unhandled : attempt.unhandled = some (dependency, cause))

variable [DecidableEq κ] {attempt : Attempt κ φ} {key : κ} {failure : Failure κ φ}

theorem handled_iff : handled attempt.handlers key failure = true ↔ attempt.Accepts key failure := by
  unfold handled Accepts
  simp [List.any_eq_true]

end Attempt

variable {κ ν φ : Type} [Key κ] {graph : Graph κ ν φ} {key dependency : κ}
  {cause : Failure κ φ} {attempt : Attempt κ φ}

theorem firstUnhandled?_eq :
    firstUnhandled? graph attempt.requested attempt.handlers =
      attempt.requested.keys.findSome? fun asked => (graph.failure? asked).bind fun failure =>
        if handled attempt.handlers asked failure then none else some (asked, failure) := by
  unfold firstUnhandled?
  congr 1
  funext asked
  cases graph.failure? asked <;> rfl

theorem firstUnhandled?_eq_some_iff :
    firstUnhandled? graph attempt.requested attempt.handlers = some (dependency, cause) ↔
      attempt.Foremost graph.result? dependency cause := by
  have found : ∀ asked, ((graph.failure? asked).bind fun failure =>
      if handled attempt.handlers asked failure then none else some (asked, failure)) =
        some (dependency, cause) ↔ asked = dependency ∧
          graph.result? dependency = some (.error cause) ∧
          ¬ attempt.Accepts dependency cause := by
    intro asked
    rw [← Attempt.handled_iff, Graph.result?_eq, ← Graph.failure?_eq_some_iff]
    cases failed : graph.failure? asked <;> grind
  have passed : ∀ asked, ((graph.failure? asked).bind fun failure =>
      if handled attempt.handlers asked failure then none else some (asked, failure)) = none ↔
        ∀ failure, graph.result? asked = some (.error failure) → attempt.Accepts asked failure := by
    intro asked
    simp only [← Attempt.handled_iff, Graph.result?_eq, ← Graph.failure?_eq_some_iff]
    cases failed : graph.failure? asked <;> grind
  rw [firstUnhandled?_eq, List.findSome?_eq_some_iff]
  constructor
  · rintro ⟨earlier, asked, later, keys, isFound, others⟩
    obtain ⟨rfl, failed, refused⟩ := (found asked).mp isFound
    exact ⟨failed, refused, earlier, later, keys, fun other member => (passed other).mp (others other member)⟩
  · rintro ⟨failed, refused, earlier, later, keys, others⟩
    exact ⟨earlier, dependency, later, keys, (found dependency).mpr ⟨rfl, failed, refused⟩,
      fun other member => (passed other).mpr (others other member)⟩

theorem accepts_of_handled
    (handled : firstUnhandled? graph attempt.requested attempt.handlers = none) {other : κ}
    (requested : other ∈ attempt.requested) {failure : Failure κ φ}
    (failed : graph.result? other = some (.error failure)) : attempt.Accepts other failure := by
  have passed := List.findSome?_eq_none_iff.mp handled other requested
  rw [Graph.result?_eq] at failed
  rw [Graph.failure?_eq_some_iff.mpr failed] at passed
  rw [← Attempt.handled_iff]
  by_contra refused
  simp [refused] at passed

/-- A run that fails for a dependency missed nothing, and keeps what it asked for. -/
theorem precedes_of_verdict {outcome : Outcome ν φ} {dependencies : Grouping κ}
    {events : List (Event κ)}
    (decided : attempt.verdict graph key outcome =
      .commit (.error (.dependency key dependency cause)) dependencies events) :
    attempt.missing = [] ∧ dependencies = attempt.requested ∧ events = [] ∧
      attempt.Precedes graph.result? dependency cause := by
  obtain ⟨requested, decides⟩ := decides_of_verdict decided
  generalize failed : Failure.dependency key dependency cause = failure at decides
  cases decides with
  | crashed | incomplete => cases failed
  | failed fault =>
      unfold Failure.ofFault at failed
      split at failed <;> cases failed
  | blamed _ first _ _ complete unhandled foremost =>
      cases failed
      refine ⟨complete, requested, rfl, ?_⟩
      cases found : firstUnhandled? graph attempt.requested attempt.handlers with
      | some blamed =>
          obtain rfl : blamed = (dependency, cause) := by rwa [found] at foremost
          exact .foremost (firstUnhandled?_eq_some_iff.mp found)
      | none =>
          obtain rfl : first = (dependency, cause) := by rwa [found] at foremost
          exact .fallback (fun other member failure => accepts_of_handled found member) unhandled

end MemoGraph
