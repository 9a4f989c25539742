import MemoGraph.Proofs.Computation.Runs

namespace MemoGraph

variable {κ ν φ : Type}

/-- The computation goes on after a request only if everything that it requested
is available. -/
inductive Computation.Strict : Computation κ ν φ → Prop
  | request {keys : List κ} {handler : Option (Handler φ)}
      {rest : List (Answer ν φ) → Computation κ ν φ}
      (available : ∀ answers, .absent ∉ answers → Strict (rest answers)) :
      Strict (.request keys handler fun answers => (rest answers).check)
  | inspect {resume : Bool → Computation κ ν φ} (available : Strict (resume false)) :
      Strict (.inspect resume)
  | report {severity : Severity} {message : String} {rest : Computation κ ν φ}
      (strict : Strict rest) : Strict (.report severity message rest)
  | interrupt {rest : Computation κ ν φ} (strict : Strict rest) : Strict (.interrupt rest)
  | finish (outcome : Outcome ν φ) : Strict (.finish outcome)

/-- The function is strict, and what it does depends on nothing but what it is
told. -/
def Computation.Steady (function : Nat → Computation κ ν φ) : Prop :=
  ∀ run, function run = function 0 ∧ (function run).Strict

/-- All functions are strict, and what they do depends on nothing but what they
are told. -/
def Registry.Strict (registry : Registry κ ν φ) : Prop :=
  ∀ key function, registry.function? key = some function →
    ∀ run, function run = function 0 ∧ (function run).Strict

namespace Registry.Strict

variable {registry : Registry κ ν φ} (strict : registry.Strict) {key : κ}
  {function : Nat → Computation κ ν φ} (registered : registry.function? key = some function)
include strict registered

theorem same_run (run : Nat) : function run = function 0 := (strict key function registered run).1

theorem computation : (function 0).Strict := (strict key function registered 0).2

end Registry.Strict

namespace Attempt

/-! Runs of strict functions.

A strict function that is run again with more results asks for the same keys as
before, and for further ones only once all of these have results.
-/

section Request

variable [DecidableEq κ] {attempt later : Attempt κ φ}
  {results others : κ → Option (Result κ ν φ)}

omit [DecidableEq κ] in
theorem isShort_eq_false_iff :
    attempt.isShort = false ↔ attempt.missing = [] ∧ attempt.unhandled = none := by
  unfold isShort
  cases attempt.missing <;> cases attempt.unhandled <;> simp

theorem answer_handlers (handler : Option (Handler φ)) (key : κ)
    (result : Option (Result κ ν φ)) :
    (attempt.answer handler key result).1.handlers = attempt.handlers := by
  unfold answer addMissing addUnhandled
  split
  · rfl
  · split <;> rfl
  · split
    · split <;> rfl
    · rfl

theorem answerAll_handlers (handler : Option (Handler φ)) (keys : List κ) :
    (answerAll results handler attempt keys).1.handlers = attempt.handlers := by
  induction keys generalizing attempt with
  | nil => rfl
  | cons key keys ih => exact ih.trans (answer_handlers handler key _)

theorem request_requested (keys : List κ) (handler : Option (Handler φ)) :
    (attempt.request results keys handler).1.requested = attempt.requested.push keys :=
  answerAll_requested handler keys

theorem request_handlers (keys : List κ) (handler : Option (Handler φ)) :
    (attempt.request results keys handler).1.handlers = attempt.handlers ++
      handler.toList.flatMap fun handles => keys.map fun key => (key, handles) :=
  answerAll_handlers handler keys

theorem answerAll_congr (handler : Option (Handler φ)) {keys : List κ}
    (same : ∀ key ∈ keys, results key = others key) :
    answerAll results handler attempt keys = answerAll others handler attempt keys := by
  induction keys generalizing attempt with
  | nil => rfl
  | cons key keys ih =>
      have rest := fun other member => same other (List.mem_cons_of_mem key member)
      unfold answerAll
      rw [same key List.mem_cons_self]
      simp only [ih rest]

theorem unhandled_answer {handler : Option (Handler φ)} {key : κ}
    {result : Option (Result κ ν φ)}
    (silent : (attempt.answer handler key result).1.unhandled = none) :
    attempt.unhandled = none := by
  unfold answer addMissing addUnhandled at silent
  split at silent
  · exact silent
  · split at silent <;> exact silent
  · split at silent
    · split at silent
      · exact silent
      · simp at silent
    · simp at silent

theorem unhandled_answerAll {handler : Option (Handler φ)} {keys : List κ}
    (silent : (answerAll results handler attempt keys).1.unhandled = none) :
    attempt.unhandled = none := by
  induction keys generalizing attempt with
  | nil => exact silent
  | cons key keys ih => exact unhandled_answer (ih silent)

theorem passes_of_answer {handler : Option (Handler φ)} {key : κ} {failure : Failure κ φ}
    (silent : (attempt.answer handler key (.some (.error failure : Result κ ν φ))).1.unhandled =
      none) : ∃ handles, handler = some handles ∧ failure.passes handles = true := by
  unfold answer addUnhandled at silent
  simp only at silent
  split at silent
  · rename_i handles error found
    split at silent
    · rename_i accepted
      exact ⟨handles, rfl, by simp [Failure.passes, found, accepted]⟩
    · simp at silent
  · simp at silent

theorem passes_of_answerAll {handler : Option (Handler φ)} {keys : List κ}
    (silent : (answerAll results handler attempt keys).1.unhandled = none) {key : κ}
    (member : key ∈ keys) {failure : Failure κ φ} (failed : results key = some (.error failure)) :
    ∃ handles, handler = some handles ∧ failure.passes handles = true := by
  induction keys generalizing attempt with
  | nil => cases member
  | cons first keys ih =>
      rcases List.mem_cons.mp member with rfl | inRest
      · have handled : (attempt.answer handler key (results key)).1.unhandled = none :=
          unhandled_answerAll silent
        rw [failed] at handled
        exact passes_of_answer handled
      · exact ih silent inRest

/-- Without anything missing or unhandled, every key was answered. -/
theorem answered_of_available {handler : Option (Handler φ)} {keys : List κ}
    (missing : (answerAll results handler attempt keys).1.missing = [])
    (silent : (answerAll results handler attempt keys).1.unhandled = none) :
    Answer.absent ∉ (answerAll results handler attempt keys).2 := by
  induction keys generalizing attempt with
  | nil => exact List.not_mem_nil
  | cons key keys ih =>
      have rest := @ih (attempt.answer handler key (results key)).1 missing silent
      show Answer.absent ∉ (attempt.answer handler key (results key)).2 :: _
      rw [List.mem_cons, not_or]
      refine ⟨?_, rest⟩
      cases found : results key with
      | none =>
          have listed : key ∈ (answerAll results handler attempt (key :: keys)).1.missing :=
            (mem_missing_answerAll handler (key :: keys) key).mpr
              (.inr ⟨List.mem_cons_self, found⟩)
          rw [missing] at listed
          cases listed
      | some result =>
          cases result with
          | ok value => simp [answer]
          | error failure =>
              have handled : (attempt.answer handler key (results key)).1.unhandled = none :=
                unhandled_answerAll silent
              rw [found] at handled
              obtain ⟨handles, rfl, passes⟩ := passes_of_answer handled
              unfold Failure.passes at passes
              unfold answer
              cases error : failure.error? with
              | none => simp [error] at passes
              | some error =>
                  rw [error] at passes
                  simp_all

/-- With more results, fewer of the same keys are missing. -/
theorem missing_answerAll_of_grown (grown : ∀ key, others key = none → results key = none)
    (handler : Option (Handler φ)) (keys : List κ)
    (missing : later.missing = attempt.missing.filter fun key => (others key).isNone) :
    (answerAll others handler later keys).1.missing =
      (answerAll results handler attempt keys).1.missing.filter fun key =>
        (others key).isNone := by
  induction keys generalizing attempt later with
  | nil => exact missing
  | cons key keys ih =>
      refine @ih (attempt.answer handler key (results key)).1
        (later.answer handler key (others key)).1 ?_
      rw [answer_missing, answer_missing, missing]
      cases isOther : others key with
      | none =>
          rw [grown key isOther]
          by_cases listed : key ∈ attempt.missing <;>
            simp [listed, isOther, List.filter_append]
      | some other =>
          simp only [Option.isNone_some, Bool.false_and, Bool.false_eq_true, if_false]
          split
          · simp [isOther, List.filter_append]
          · rfl

end Request

variable [DecidableEq κ] {attempt later : Attempt κ φ}
  {results others : κ → Option (Result κ ν φ)} {computation : Computation κ ν φ} {key : κ}

/-- Every requested key that failed was asked for with a handler that accepts
the failure. -/
def Covered (results : κ → Option (Result κ ν φ)) (requested : Grouping κ)
    (handlers : List (κ × Handler φ)) : Prop :=
  ∀ key ∈ requested, ∀ failure, results key = some (.error failure) →
    handled handlers key failure = true

theorem Covered.request
    (covered : Covered results attempt.requested attempt.handlers) {keys : List κ}
    {handler : Option (Handler φ)}
    (silent : (attempt.request results keys handler).1.unhandled = none) :
    Covered results (attempt.request results keys handler).1.requested
      (attempt.request results keys handler).1.handlers := by
  intro key member failure failed
  rw [request_handlers]
  rw [request_requested, Grouping.mem_push] at member
  unfold handled
  rw [List.any_append, Bool.or_eq_true]
  rcases member with earlier | now
  · exact .inl (covered key earlier failure failed)
  · obtain ⟨handles, rfl, passes⟩ := passes_of_answerAll silent now failed
    refine .inr (List.any_eq_true.mpr ⟨(key, handles), ?_, by simp [passes]⟩)
    simpa using now

/-- A run that left no failure unhandled covered all of them. -/
theorem covered_run (key : κ) (computation : Computation κ ν φ)
    (covered : attempt.unhandled = none → Covered results attempt.requested attempt.handlers)
    (silent : (Attempt.run results key computation attempt).1.unhandled = none) :
    Covered results (Attempt.run results key computation attempt).1.requested
      (Attempt.run results key computation attempt).1.handlers := by
  induction computation generalizing attempt with
  | request keys handler resume ih =>
      refine ih _ (fun later => ?_) silent
      have earlier := unhandled_answerAll later
      exact (covered earlier).request later
  | inspect resume ih => exact ih _ covered silent
  | report severity message rest ih => exact ih covered silent
  | interrupt rest ih => exact ih covered silent
  | finish outcome => exact covered silent

/-- A request that misses nothing has the same answers when there are more
results. -/
theorem request_of_grown
    (grown : ∀ key result, results key = some result → others key = some result)
    {keys : List κ} {handler : Option (Handler φ)}
    (missing : (attempt.request results keys handler).1.missing = []) :
    attempt.request others keys handler = attempt.request results keys handler := by
  refine answerAll_congr handler fun key member => ?_
  cases found : results key with
  | some result => exact grown key result found
  | none =>
      have listed : key ∈ (attempt.request results keys handler).1.missing :=
        (mem_missing_answerAll handler keys key).mpr (.inr ⟨member, found⟩)
      rw [missing] at listed
      cases listed

/-- A strict function gives up as soon as something is missing. -/
theorem outcome_of_strict (strict : computation.Strict) (available : attempt.isShort = false)
    (short : (Attempt.run results key computation attempt).1.isShort = true) :
    (Attempt.run results key computation attempt).2 = .refused .incomplete := by
  induction strict generalizing attempt with
  | @request keys handler rest _ ih =>
      unfold Attempt.run at short ⊢
      cases isShort : (attempt.request results keys handler).1.isShort with
      | true => simp [Computation.check, Attempt.run, isShort]
      | false =>
          simp only [Computation.check, Attempt.run, isShort] at short ⊢
          obtain ⟨missing, unhandled⟩ := isShort_eq_false_iff.mp isShort
          exact ih _ (answered_of_available missing unhandled) isShort short
  | inspect _ ih =>
      unfold Attempt.run at short ⊢
      rw [available] at short ⊢
      exact ih available short
  | report _ ih => exact ih available short
  | interrupt _ ih => exact ih available short
  | finish outcome =>
      unfold Attempt.run at short
      rw [available] at short
      cases short

/-- What a second run has in common with a first one that had fewer results. -/
structure Resumes (others : κ → Option (Result κ ν φ))
    (first second : Attempt κ φ × Outcome ν φ) : Prop where
  same : first.1.missing = [] → second = first
  requested : ∀ key ∈ first.1.requested, key ∈ second.1.requested
  stopped : first.1.missing ≠ [] →
    (second.1.requested = first.1.requested ∧ second.1.handlers = first.1.handlers ∧
      second.1.missing = first.1.missing.filter (fun key => (others key).isNone) ∧
      second.1.isShort = true) ∨
    ((∀ key ∈ first.1.missing, (others key).isSome = true) ∧
      Covered others first.1.requested first.1.handlers)

theorem requested_run (key dependency : κ) (member : dependency ∈ attempt.requested) :
    dependency ∈ (Attempt.run results key computation attempt).1.requested := by
  induction computation generalizing attempt with
  | request keys handler resume ih =>
      have carried : dependency ∈ (attempt.request results keys handler).1.requested := by
        rw [request_requested]
        exact Grouping.mem_push.mpr (.inl member)
      exact ih _ carried
  | inspect resume ih => exact ih _ member
  | report severity message rest ih => exact ih member
  | interrupt rest ih => exact ih member
  | finish outcome => exact member

/-- With more results, a strict function asks for the same and goes on from there. -/
theorem resumes (strict : computation.Strict)
    (grown : ∀ key result, results key = some result → others key = some result)
    (available : attempt.isShort = false)
    (covered : Covered others attempt.requested attempt.handlers) :
    Resumes others (Attempt.run results key computation attempt)
      (Attempt.run others key computation attempt) := by
  induction strict generalizing attempt with
  | @request keys handler rest _ ih =>
      have absent : ∀ key, others key = none → results key = none := by
        intro key unknown
        cases found : results key with
        | none => rfl
        | some result =>
            rw [grown key result found] at unknown
            cases unknown
      obtain ⟨noneMissing, noneUnhandled⟩ := isShort_eq_false_iff.mp available
      have missing : (attempt.request others keys handler).1.missing =
          (attempt.request results keys handler).1.missing.filter
            fun key => (others key).isNone := by
        refine missing_answerAll_of_grown absent handler keys ?_
        simp [noneMissing]
      have requested : (attempt.request others keys handler).1.requested =
          (attempt.request results keys handler).1.requested := by
        rw [request_requested, request_requested]
      have handlers : (attempt.request others keys handler).1.handlers =
          (attempt.request results keys handler).1.handlers := by
        rw [request_handlers, request_handlers]
      unfold Attempt.run
      cases isShort : (attempt.request results keys handler).1.isShort with
      | false =>
          obtain ⟨nothing, unhandled⟩ := isShort_eq_false_iff.mp isShort
          rw [request_of_grown grown nothing]
          simp only [Computation.check, Attempt.run, isShort, Bool.false_eq_true, if_false]
          have again : attempt.request others keys handler = attempt.request results keys handler :=
            request_of_grown grown nothing
          refine ih _ (answered_of_available nothing unhandled) isShort ?_
          rw [← again]
          exact covered.request (again ▸ unhandled)
      | true =>
          simp only [Computation.check, Attempt.run, isShort, if_true]
          constructor
          case same =>
            intro nothing
            rw [request_of_grown grown nothing, isShort]
            rfl
          case requested =>
            intro dependency member
            rw [← requested] at member
            exact requested_run key dependency member
          case stopped =>
            intro _
            cases still : (attempt.request others keys handler).1.isShort with
            | true => exact .inl ⟨requested, handlers, missing, still⟩
            | false =>
                obtain ⟨nothing, unhandled⟩ := isShort_eq_false_iff.mp still
                refine .inr ⟨fun dependency member => ?_, ?_⟩
                · rw [nothing, eq_comm, List.filter_eq_nil_iff] at missing
                  have some := missing dependency member
                  simpa [Option.isSome_iff_ne_none] using some
                · rw [← requested, ← handlers]
                  exact covered.request unhandled
  | inspect _ ih =>
      unfold Attempt.run
      rw [available]
      exact ih available covered
  | report _ ih => exact ih available covered
  | interrupt _ ih => exact ih available covered
  | finish outcome =>
      refine ⟨fun _ => rfl, fun _ member => member, fun some => absurd ?_ some⟩
      exact (isShort_eq_false_iff.mp available).1

/-- So it does from the beginning. -/
theorem resumes_run (strict : computation.Strict)
    (grown : ∀ key result, results key = some result → others key = some result) (key : κ) :
    Resumes others (Attempt.run results key computation {})
      (Attempt.run others key computation {}) :=
  resumes strict grown rfl fun key member => absurd member (Grouping.not_mem_empty key)

end Attempt

/-- A run that gives a value offered to handle all failures among its dependencies. -/
theorem covered_of_verdict {κ ν φ : Type} [Key κ] {graph : Graph κ ν φ} {key : κ}
    {computation : Computation κ ν φ} {attempt : Attempt κ φ} {outcome : Outcome ν φ} {value : ν}
    {dependencies : Grouping κ} {events : List (Event κ)}
    (run : Attempt.run graph.result? key computation {} = (attempt, outcome))
    (decided : attempt.verdict graph key outcome = .commit (.ok value) dependencies events) :
    dependencies = attempt.requested ∧
      Attempt.Covered graph.result? dependencies attempt.handlers := by
  have requested := (verdict_commit decided).1
  have start : ({} : Attempt κ φ).unhandled = none → Attempt.Covered graph.result?
      ({} : Attempt κ φ).requested ({} : Attempt κ φ).handlers :=
    fun _ dependency none => absurd none (Grouping.not_mem_empty dependency)
  have covered := Attempt.covered_run key computation start
  rw [run, ← requested] at covered
  exact ⟨requested, covered (verdict_value decided).2⟩

end MemoGraph
