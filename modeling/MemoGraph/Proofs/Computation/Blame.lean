import MemoGraph.Proofs.Computation.Runs
import MemoGraph.Proofs.Graph.View

namespace MemoGraph

namespace Attempt

variable {κ ν φ : Type} [DecidableEq κ] {attempt : Attempt κ φ}
  {results : κ → Option (Result κ ν φ)}

/-- The failure that the run did not offer to handle is one of a requested key. -/
def Blames (results : κ → Option (Result κ ν φ)) (attempt : Attempt κ φ) : Prop :=
  ∀ key failure, attempt.unhandled = some (key, failure) →
    key ∈ attempt.requested ∧ results key = some (.error failure)

omit [DecidableEq κ] in
theorem Blames.addUnhandled (blames : Blames results attempt) {key : κ} {failure : Failure κ φ}
    (asked : key ∈ attempt.requested) (failed : results key = some (.error failure)) :
    Blames results (attempt.addUnhandled key failure) := by
  intro other cause isFirst
  unfold Attempt.addUnhandled at isFirst
  rcases Option.or_eq_some_iff.mp isFirst with earlier | ⟨_, new⟩
  · exact blames other cause earlier
  · cases new
    exact ⟨asked, failed⟩

theorem Blames.answer (blames : Blames results attempt) (handler : Option (Handler φ)) {key : κ}
    (asked : key ∈ attempt.requested) :
    Blames results (attempt.answer handler key (results key)).1 := by
  cases found : results key with
  | none =>
      unfold Attempt.answer addMissing
      simp only
      split
      · exact blames
      · exact blames
  | some result =>
      cases result with
      | ok value => exact blames
      | error failure =>
          unfold Attempt.answer
          simp only
          split
          · split
            · exact blames
            · exact blames.addUnhandled asked found
          · exact blames.addUnhandled asked found

theorem Blames.answerAll (blames : Blames results attempt) (handler : Option (Handler φ))
    {keys : List κ} (asked : ∀ key ∈ keys, key ∈ attempt.requested) :
    Blames results (answerAll results handler attempt keys).1 := by
  induction keys generalizing attempt with
  | nil => exact blames
  | cons key keys ih =>
      refine ih (blames.answer handler (asked key List.mem_cons_self)) fun other member => ?_
      have inRequest := asked other (List.mem_cons_of_mem key member)
      exact (answer_requested handler key (results key)).symm ▸ inRequest

theorem Blames.run (blames : Blames results attempt) (key : κ) (computation : Computation κ ν φ) :
    Blames results (Attempt.run results key computation attempt).1 := by
  induction computation generalizing attempt with
  | request keys handler resume ih =>
      refine ih _ (Blames.answerAll ?_ handler fun other member =>
        (Grouping.mem_push ..).mpr (.inr member))
      intro other failure isFirst
      obtain ⟨asked, failed⟩ := blames other failure isFirst
      exact ⟨(Grouping.mem_push ..).mpr (.inl asked), failed⟩
  | inspect resume ih => exact ih _ blames
  | report severity message rest ih => exact ih blames
  | interrupt rest ih => exact ih blames
  | finish outcome => exact blames

end Attempt

variable {κ ν φ : Type} [Key κ] {graph : Graph κ ν φ} {key dependency : κ}
  {cause failure : Failure κ φ}

theorem firstUnhandled?_eq_some {requested : Grouping κ} {handlers : List (κ × Handler φ)}
    (unhandled : firstUnhandled? graph requested handlers = some (dependency, cause)) :
    dependency ∈ requested ∧ graph.result? dependency = some (.error cause) := by
  obtain ⟨asked, member, found⟩ := List.exists_of_findSome?_eq_some unhandled
  cases failed : graph.failure? asked with
  | none => simp [failed] at found
  | some failure =>
      simp only [failed, Option.ite_none_left_eq_some, Option.some.injEq, Prod.mk.injEq] at found
      obtain ⟨_, rfl, rfl⟩ := found
      exact ⟨member, Graph.result?_of_failure? failed⟩

/-- A failure of a key that is not a cycle, and which, if it blames one of the
dependencies, has its failure for a cause. -/
structure Accounts (graph : Graph κ ν φ) (key : κ) (dependencies : Grouping κ)
    (failure : Failure κ φ) : Prop where
  owner : failure.key = key
  acyclic : ∀ owner path, failure ≠ .cycle owner path
  blamed : ∀ owner dependency cause, failure = .dependency owner dependency cause →
    dependency ∈ dependencies ∧ graph.result? dependency = some (.error cause)

theorem Accounts.of_failed {dependencies : Grouping κ} (needed : dependency ∈ dependencies)
    (failed : graph.result? dependency = some (.error cause)) :
    Accounts graph key dependencies (.dependency key dependency cause) := by
  refine ⟨rfl, nofun, ?_⟩
  rintro _ _ _ ⟨⟩
  exact ⟨needed, failed⟩

theorem Accounts.of_fault (dependencies : Grouping κ) (fault : Fault φ) :
    Accounts graph key dependencies (.infrastructure key fault) :=
  ⟨rfl, nofun, nofun⟩

theorem Accounts.of_raised (dependencies : Grouping κ) (fault : Fault φ) :
    Accounts graph key dependencies (.ofFault key fault) := by
  unfold Failure.ofFault
  split
  · exact .of_fault ..
  · exact ⟨rfl, nofun, nofun⟩

/-- Whatever failure is made of a run accounts for itself. -/
theorem accounts_of_verdict {attempt : Attempt κ φ} {outcome : Outcome ν φ}
    {computation : Computation κ ν φ} {dependencies : Grouping κ} {events : List (Event κ)}
    (run : Attempt.run graph.result? key computation {} = (attempt, outcome))
    (decided : attempt.verdict graph key outcome = .commit (.error failure) dependencies events) :
    Accounts graph key dependencies failure := by
  have blames : Attempt.Blames graph.result? attempt := by
    have start : Attempt.Blames graph.result? ({} : Attempt κ φ) := nofun
    have blames := start.run key computation
    rwa [run] at blames
  obtain ⟨rfl, decides⟩ := decides_of_verdict decided
  cases decides with
  | crashed message => exact .of_fault ..
  | failed fault => exact .of_raised ..
  | incomplete => exact .of_fault ..
  | blamed _ first dependency cause _ unhandled foremost =>
      cases found : firstUnhandled? graph attempt.requested attempt.handlers with
      | some blamed =>
          obtain rfl : blamed = (dependency, cause) := by rwa [found] at foremost
          obtain ⟨asked, failed⟩ := firstUnhandled?_eq_some found
          exact .of_failed asked failed
      | none =>
          obtain rfl : first = (dependency, cause) := by rwa [found] at foremost
          obtain ⟨asked, failed⟩ := blames dependency cause unhandled
          exact .of_failed asked failed

end MemoGraph
