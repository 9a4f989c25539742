import MemoGraph.Computation.Attempt
import MemoGraph.Round.Commit

namespace MemoGraph

theorem Grouping.not_mem_empty {κ : Type} (key : κ) : key ∉ (Grouping.empty : Grouping κ) :=
  List.not_mem_nil

namespace Attempt

variable {κ ν φ : Type} [DecidableEq κ] {attempt : Attempt κ φ}
  {results : κ → Option (Result κ ν φ)}

/-- The missing keys are the requested ones without a result, each once. -/
structure Faithful (results : κ → Option (Result κ ν φ)) (attempt : Attempt κ φ) : Prop where
  unique : attempt.missing.Nodup
  mem_missing : ∀ key, key ∈ attempt.missing ↔ key ∈ attempt.requested ∧ results key = none

theorem answer_requested (handler : Option (Handler φ)) (key : κ)
    (result : Option (Result κ ν φ)) :
    (attempt.answer handler key result).1.requested = attempt.requested := by
  unfold answer addMissing addUnhandled
  split
  · rfl
  · split <;> rfl
  · split
    · split <;> rfl
    · rfl

theorem answer_missing (handler : Option (Handler φ)) (key : κ)
    (result : Option (Result κ ν φ)) :
    (attempt.answer handler key result).1.missing =
      if result.isNone && key ∉ attempt.missing then attempt.missing ++ [key]
      else attempt.missing := by
  unfold answer addMissing addUnhandled
  split
  · rfl
  · by_cases listed : key ∈ attempt.missing <;> simp [listed]
  · split
    · split <;> rfl
    · rfl

theorem answerAll_requested (handler : Option (Handler φ)) (keys : List κ) :
    (answerAll results handler attempt keys).1.requested = attempt.requested := by
  induction keys generalizing attempt with
  | nil => rfl
  | cons key keys ih => exact ih.trans (answer_requested handler key _)

theorem answerAll_events (handler : Option (Handler φ)) (keys : List κ) :
    (answerAll results handler attempt keys).1.events = attempt.events := by
  induction keys generalizing attempt with
  | nil => rfl
  | cons key keys ih =>
      have first : (attempt.answer handler key (results key)).1.events = attempt.events := by
        unfold answer addMissing addUnhandled
        split
        · rfl
        · split <;> rfl
        · split
          · split <;> rfl
          · rfl
      exact ih.trans first

theorem events_run {key : κ} (computation : Computation κ ν φ)
    (own : ∀ event ∈ attempt.events, event.key = key) :
    ∀ event ∈ (Attempt.run results key computation attempt).1.events, event.key = key := by
  induction computation generalizing attempt with
  | request keys handler resume ih =>
      have asked : (attempt.request results keys handler).1.events = attempt.events :=
        answerAll_events handler keys
      exact ih _ (asked.symm ▸ own)
  | inspect resume ih => exact ih _ own
  | report severity message rest ih =>
      refine ih fun event isEvent => ?_
      rcases List.mem_append.mp isEvent with isOld | isNew
      · exact own event isOld
      · rw [List.mem_singleton.mp isNew]
  | interrupt rest ih => exact ih own
  | finish outcome => exact own

theorem answerAll_of_value {key : κ} {value : ν} (found : results key = some (.ok value))
    (handler : Option (Handler φ)) {keys : List κ} {index : Nat}
    (asked : keys[index]? = some key) :
    (answerAll results handler attempt keys).2[index]? = some (.value value) := by
  induction keys generalizing attempt index with
  | nil => simp at asked
  | cons first keys ih =>
      unfold answerAll
      cases index with
      | zero =>
          have isFirst : first = key := by simpa using asked
          rw [isFirst, found]
          rfl
      | succ index => exact ih (by simpa using asked)

theorem mem_missing_answerAll (handler : Option (Handler φ)) (keys : List κ) (key : κ) :
    key ∈ (answerAll results handler attempt keys).1.missing ↔
      key ∈ attempt.missing ∨ (key ∈ keys ∧ results key = none) := by
  induction keys generalizing attempt with
  | nil => simp [answerAll]
  | cons first keys ih =>
      show key ∈ (answerAll results handler
        (attempt.answer handler first (results first)).1 keys).1.missing ↔ _
      rw [ih, answer_missing, List.mem_cons]
      by_cases same : key = first
      · subst same
        cases results key <;> by_cases listed : key ∈ attempt.missing <;> simp [listed]
      · split <;> simp [same]

theorem nodup_missing_answerAll (handler : Option (Handler φ)) (keys : List κ)
    (unique : attempt.missing.Nodup) :
    (answerAll results handler attempt keys).1.missing.Nodup := by
  induction keys generalizing attempt with
  | nil => exact unique
  | cons first keys ih =>
      refine ih ?_
      show (attempt.answer handler first (results first)).1.missing.Nodup
      rw [answer_missing]
      split
      · rename_i fresh
        have unlisted : first ∉ attempt.missing := by
          simp only [Bool.and_eq_true, decide_eq_true_eq] at fresh
          exact fresh.2
        refine List.nodup_append.mpr ⟨unique, by simp, ?_⟩
        rintro old inMissing new isFirst rfl
        exact unlisted (List.mem_singleton.mp isFirst ▸ inMissing)
      · exact unique

theorem Faithful.request (faithful : Faithful results attempt) (keys : List κ)
    (handler : Option (Handler φ)) :
    Faithful results (attempt.request results keys handler).1 := by
  constructor
  · exact nodup_missing_answerAll handler keys faithful.unique
  · intro key
    unfold Attempt.request
    rw [mem_missing_answerAll, answerAll_requested, Grouping.mem_push, faithful.mem_missing,
      or_and_right]

theorem Faithful.run (faithful : Faithful results attempt) (key : κ)
    (computation : Computation κ ν φ) :
    Faithful results (Attempt.run results key computation attempt).1 := by
  induction computation generalizing attempt with
  | request keys handler resume ih => exact ih _ (faithful.request keys handler)
  | inspect resume ih => exact ih _ faithful
  | report severity message rest ih => exact ih ⟨faithful.unique, faithful.mem_missing⟩
  | interrupt rest ih => exact ih ⟨faithful.unique, faithful.mem_missing⟩
  | finish outcome => exact faithful

theorem faithful_run (results : κ → Option (Result κ ν φ)) (key : κ)
    (computation : Computation κ ν φ) :
    Faithful results (Attempt.run results key computation {}).1 :=
  Faithful.run ⟨List.nodup_nil, fun key => by simp [Grouping.not_mem_empty]⟩ key computation

theorem faithful_of_run {key : κ} {computation : Computation κ ν φ} {outcome : Outcome ν φ}
    (run : Attempt.run results key computation {} = (attempt, outcome)) :
    Faithful results attempt := by
  have faithful := faithful_run results key computation
  rwa [run] at faithful

end Attempt

section Verdict

variable {κ ν φ : Type} [Key κ] {graph : Graph κ ν φ} {key : κ} {attempt : Attempt κ φ}
  {outcome : Outcome ν φ} {result : Result κ ν φ} {dependencies : Grouping κ}
  {events : List (Event κ)}

/-- The ways in which a run decides about its key: the result that it gives and
the events that come with it. Only a crash decides while something is missing. -/
inductive Attempt.Decides (graph : Graph κ ν φ) (key : κ) (attempt : Attempt κ φ) :
    Outcome ν φ → Result κ ν φ → List (Event κ) → Prop
  | crashed (message : Option String) :
      Decides graph key attempt (.crashed message)
        (.error (.infrastructure key (.ofInfrastructure (.crashed message)))) []
  | value (value : ν) (complete : attempt.missing = []) (handled : attempt.unhandled = none) :
      Decides graph key attempt (.value value) (.ok value) attempt.events
  | failed (fault : Fault φ) (complete : attempt.missing = [])
      (handled : attempt.unhandled = none) :
      Decides graph key attempt (.refused (.failed fault)) (.error (.ofFault key fault))
        attempt.events
  | incomplete (complete : attempt.missing = []) (handled : attempt.unhandled = none) :
      Decides graph key attempt (.refused .incomplete)
        (.error (.infrastructure key
          ((Fault.ofInfrastructure .incomplete).withTransience .persistent))) []
  | blamed (outcome : Outcome ν φ) (first : κ × Failure κ φ) (dependency : κ)
      (cause : Failure κ φ) (complete : attempt.missing = [])
      (unhandled : attempt.unhandled = some first)
      (foremost : (firstUnhandled? graph attempt.requested attempt.handlers).getD first =
        (dependency, cause)) :
      Decides graph key attempt outcome (.error (.dependency key dependency cause)) []

/-- Whatever is recorded of a run was decided by it, and rests on all that it
asked for. -/
theorem decides_of_verdict
    (decided : attempt.verdict graph key outcome = .commit result dependencies events) :
    dependencies = attempt.requested ∧ attempt.Decides graph key outcome result events := by
  have blamed : ∀ first, attempt.missing = [] → attempt.unhandled = some first →
      Attempt.verdict.blame graph key attempt first = .commit result dependencies events →
        dependencies = attempt.requested ∧ attempt.Decides graph key outcome result events := by
    intro first complete unhandled decided
    cases decided
    exact ⟨rfl, .blamed outcome first _ _ complete unhandled rfl⟩
  unfold Attempt.verdict at decided
  cases outcome with
  | crashed message =>
      cases decided
      exact ⟨rfl, .crashed message⟩
  | value value =>
      cases missing : attempt.missing with
      | cons => simp [missing] at decided
      | nil =>
          cases unhandled : attempt.unhandled with
          | none =>
              simp only [missing, unhandled] at decided
              cases decided
              exact ⟨rfl, .value value missing unhandled⟩
          | some first =>
              simp only [missing, unhandled] at decided
              exact blamed first missing unhandled decided
  | refused refusal =>
      cases missing : attempt.missing with
      | cons => simp [missing] at decided
      | nil =>
          cases unhandled : attempt.unhandled with
          | some first =>
              simp only [missing, unhandled] at decided
              exact blamed first missing unhandled decided
          | none =>
              cases refusal with
              | incomplete =>
                  simp only [missing, unhandled] at decided
                  cases decided
                  exact ⟨rfl, .incomplete missing unhandled⟩
              | failed fault =>
                  simp only [missing, unhandled] at decided
                  cases decided
                  exact ⟨rfl, .failed fault missing unhandled⟩

/-- A result is only recorded with the dependencies of the run, and only with
all of them available unless it is not kept anyway. -/
theorem verdict_commit
    (decided : attempt.verdict graph key outcome = .commit result dependencies events) :
    dependencies = attempt.requested ∧
      (attempt.missing = [] ∨ Round.isTransient result = true) := by
  obtain ⟨requested, decides⟩ := decides_of_verdict decided
  refine ⟨requested, ?_⟩
  cases decides with
  | crashed message => exact .inr rfl
  | value _ complete | failed _ complete | incomplete complete | blamed _ _ _ _ complete =>
      exact .inl complete

/-- A value is only recorded with all dependencies available and none of them
failed unhandled. -/
theorem verdict_value {value : ν}
    (decided : attempt.verdict graph key outcome = .commit (.ok value) dependencies events) :
    attempt.missing = [] ∧ attempt.unhandled = none := by
  cases (decides_of_verdict decided).2 with
  | value _ complete handled => exact ⟨complete, handled⟩

theorem verdict_restart (decided : attempt.verdict graph key outcome = .restart) :
    attempt.missing ≠ [] := by
  intro nothing
  unfold Attempt.verdict at decided
  cases outcome with
  | crashed message => cases decided
  | value value => cases unhandled : attempt.unhandled <;> simp [nothing, unhandled,
      Attempt.verdict.blame] at decided
  | refused refusal => cases unhandled : attempt.unhandled <;> cases refusal <;>
      simp [nothing, unhandled, Attempt.verdict.blame] at decided

end Verdict

end MemoGraph
