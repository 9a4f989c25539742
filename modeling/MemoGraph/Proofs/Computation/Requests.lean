import MemoGraph.Computation.Request
import MemoGraph.Proofs.Computation.Plans
import MemoGraph.Proofs.Graph.View
import MemoGraph.Proofs.Groups

namespace MemoGraph

section Answers

variable {κ ν φ : Type} [Key κ] {graph : Graph κ ν φ} {attempt : Attempt κ φ}
  {handler : Option (Handler φ)} {key : κ} {keys : List κ} {answers : List (Answer ν φ)}

/-- The failure has an error that the request offered to handle. -/
def Failure.CaughtBy (failure : Failure κ φ) (handler : Option (Handler φ)) (error : φ) : Prop :=
  failure.error? = some error ∧ ∃ handles, handler = some handles ∧ handles error = true

/-- What becomes of an attempt by a request of one key, and what it is answered. -/
inductive Responds (graph : Graph κ ν φ) (attempt : Attempt κ φ) (handler : Option (Handler φ))
    (key : κ) : Attempt κ φ → Answer ν φ → Prop
  | value {value : ν} (valid : graph.result? key = some (.ok value)) :
      Responds graph attempt handler key attempt (.value value)
  | caught {failure : Failure κ φ} {error : φ} (failed : graph.result? key = some (.error failure))
      (caught : failure.CaughtBy handler error) :
      Responds graph attempt handler key attempt (.caught error)
  | missing (absent : graph.result? key = none) :
      Responds graph attempt handler key (attempt.addMissing key) .absent
  | unhandled {failure : Failure κ φ} (failed : graph.result? key = some (.error failure))
      (uncaught : ∀ error, ¬ failure.CaughtBy handler error) :
      Responds graph attempt handler key (attempt.addUnhandled key failure) .absent

theorem responds (graph : Graph κ ν φ) (attempt : Attempt κ φ) (handler : Option (Handler φ))
    (key : κ) : Responds graph attempt handler key
      (attempt.answer handler key (graph.result? key)).1
      (attempt.answer handler key (graph.result? key)).2 := by
  cases found : graph.result? key with
  | none => exact .missing found
  | some result =>
      cases result with
      | ok value => exact .value found
      | error failure =>
          unfold Attempt.answer
          simp only
          split
          · rename_i handles error root
            split
            · rename_i isHandled
              exact .caught found ⟨root, handles, rfl, isHandled⟩
            · rename_i refused
              refine .unhandled found ?_
              rintro other ⟨isOther, handles, same, isHandled⟩
              cases same
              cases root.symm.trans isOther
              exact refused isHandled
          · rename_i without
            refine .unhandled found ?_
            rintro error ⟨root, handles, typed, _⟩
            exact without handles error typed root

/-- What a request of a key is answered, read off the graph: the committed value, the
error behind the committed failure if the request offered to handle it, and nothing
otherwise. -/
inductive Answered (graph : Graph κ ν φ) (handler : Option (Handler φ)) (key : κ) :
    Answer ν φ → Prop
  | value {value : ν} (done : graph.state? key = some .done)
      (committed : graph.value? key = some value) :
      Answered graph handler key (.value value)
  | caught {failure : Failure κ φ} {error : φ} (failed : graph.state? key = some .error)
      (committed : graph.failure? key = some failure) (caught : failure.CaughtBy handler error) :
      Answered graph handler key (.caught error)
  | absent (unfinished : graph.state? key ≠ some .done)
      (uncaught : ∀ failure error, graph.failure? key = some failure →
        ¬ failure.CaughtBy handler error) :
      Answered graph handler key .absent

/-- The failure of a key that was asked for and answered by nothing. -/
def Graph.unanswered? (graph : Graph κ ν φ) : κ × Answer ν φ → Option (κ × Failure κ φ)
  | (key, .absent) => (graph.failure? key).map (key, ·)
  | _ => none

def Graph.hasNoResult (graph : Graph κ ν φ) (key : κ) : Bool :=
  !(graph.state? key).any State.isSettled

theorem Graph.hasNoResult_eq (graph : Graph κ ν φ) (key : κ) :
    graph.hasNoResult key = (graph.result? key).isNone := by
  unfold hasNoResult
  cases found : graph.result? key with
  | some result =>
      rw [Graph.state?_of_result? found]
      cases result <;> rfl
  | none =>
      have unsettled : ¬ (graph.state? key = some .done ∨ graph.state? key = some .error) := by
        rw [← Graph.isSettled_iff, Node.isSettled, ← Graph.result?_eq, found]
        exact Bool.false_ne_true
      obtain ⟨notDone, notFailed⟩ := not_or.mp unsettled
      rcases state : graph.state? key with _ | (_ | _ | _ | _ | _ | _) <;>
        first | rfl | exact absurd state notDone | exact absurd state notFailed

namespace Responds

variable {after : Attempt κ φ} {answer : Answer ν φ}
  (responds : Responds graph attempt handler key after answer)
include responds

theorem answered : Answered graph handler key answer := by
  cases responds with
  | value valid => exact .value (Graph.state?_of_result? valid) (by simp [Graph.value?, valid])
  | caught failed caught =>
      exact .caught (Graph.state?_of_result? failed) (by simp [Graph.failure?, failed]) caught
  | missing absent =>
      refine .absent (fun done => ?_) (fun failure error committed => ?_)
      · obtain ⟨value, found⟩ := Graph.result?_of_done done
        cases absent.symm.trans found
      · cases absent.symm.trans (Graph.result?_of_failure? committed)
  | unhandled failed uncaught =>
      refine .absent (fun done => ?_) (fun failure error committed => ?_)
      · obtain ⟨value, found⟩ := Graph.result?_of_done done
        cases failed.symm.trans found
      · cases failed.symm.trans (Graph.result?_of_failure? committed)
        exact uncaught error

theorem unhandled_eq : after.unhandled = attempt.unhandled.or (graph.unanswered? (key, answer)) := by
  cases responds with
  | value _ | caught _ _ => simp [Graph.unanswered?]
  | missing absent =>
      have none : graph.failure? key = none := by simp [Graph.failure?, absent]
      unfold Attempt.addMissing
      split <;> simp [Graph.unanswered?, none]
  | @unhandled failure failed _ =>
      have found : graph.failure? key = some failure := by simp only [Graph.failure?, failed]
      simp [Graph.unanswered?, found, Attempt.addUnhandled]

theorem isShort_iff : after.isShort = true ↔ attempt.isShort = true ∨ .absent = answer := by
  cases responds with
  | value _ | caught _ _ => simp
  | missing absent =>
      unfold Attempt.addMissing Attempt.isShort
      split
      · rename_i listed
        simp [List.ne_nil_of_mem listed]
      · simp
  | unhandled failed _ => simp [Attempt.isShort, Attempt.addUnhandled]

end Responds

end Answers

/-- Resumed with the answers one after another, the computation makes the requests and
ends as stated. When it asks whether anything is short, it is told whether something was
before or a request was answered by nothing since. -/
inductive Computation.Makes {κ ν φ : Type} : Bool → Computation κ ν φ → List (Request κ φ) →
    List (List (Answer ν φ)) → Outcome ν φ → Prop
  | request {short later : Bool} {request : Request κ φ} {requests : List (Request κ φ)}
      {resume : List (Answer ν φ) → Computation κ ν φ} {answers : List (Answer ν φ)}
      {others : List (List (Answer ν φ))} {outcome : Outcome ν φ}
      (told : later = true ↔ short = true ∨ .absent ∈ answers)
      (onward : Makes later (resume answers) requests others outcome) :
      Makes short (.request request.keys request.handler? resume) (request :: requests)
        (answers :: others) outcome
  | inspect {short : Bool} {resume : Bool → Computation κ ν φ} {requests : List (Request κ φ)}
      {answers : List (List (Answer ν φ))} {outcome : Outcome ν φ}
      (onward : Makes short (resume short) requests answers outcome) :
      Makes short (.inspect resume) requests answers outcome
  | report {short : Bool} {rest : Computation κ ν φ} {requests : List (Request κ φ)}
      {answers : List (List (Answer ν φ))} {outcome : Outcome ν φ} (severity : Severity)
      (message : String) (onward : Makes short rest requests answers outcome) :
      Makes short (.report severity message rest) requests answers outcome
  | interrupt {short : Bool} {rest : Computation κ ν φ} {requests : List (Request κ φ)}
      {answers : List (List (Answer ν φ))} {outcome : Outcome ν φ}
      (onward : Makes short rest requests answers outcome) :
      Makes short (.interrupt rest) requests answers outcome
  | finish {short : Bool} (outcome : Outcome ν φ) : Makes short (.finish outcome) [] [] outcome

namespace Attempt

variable {κ ν φ : Type} [Key κ] (graph : Graph κ ν φ) (attempt : Attempt κ φ)

section Group

variable (handler : Option (Handler φ)) (keys : List κ)

theorem answerAll_cons (key : κ) : answerAll graph.result? handler attempt (key :: keys) =
    ((answerAll graph.result? handler (attempt.answer handler key (graph.result? key)).1 keys).1,
      (attempt.answer handler key (graph.result? key)).2 ::
        (answerAll graph.result? handler (attempt.answer handler key (graph.result? key)).1 keys).2) :=
  rfl

theorem answerAll_answered :
    List.Forall₂ (Answered graph handler) keys (answerAll graph.result? handler attempt keys).2 := by
  induction keys generalizing attempt with
  | nil => exact .nil
  | cons key keys ih => exact .cons (responds graph attempt handler key).answered (ih _)

theorem answerAll_missing : (answerAll graph.result? handler attempt keys).1.missing =
    attempt.missing ++ additions attempt.missing (keys.filter graph.hasNoResult) := by
  induction keys generalizing attempt with
  | nil => exact (List.append_nil _).symm
  | cons key keys ih =>
      have first : (attempt.answer handler key (graph.result? key)).1.missing =
          attempt.missing ++ additions attempt.missing ([key].filter graph.hasNoResult) := by
        rw [answer_missing, ← Graph.hasNoResult_eq]
        by_cases isLacking : graph.hasNoResult key
        · by_cases listed : key ∈ attempt.missing <;> simp [isLacking, listed, additions]
        · simp [isLacking, additions]
      rw [answerAll_cons, ih, first, append_additions_append, ← List.filter_append,
        List.singleton_append]

theorem answerAll_unhandled : (answerAll graph.result? handler attempt keys).1.unhandled =
    attempt.unhandled.or
      ((keys.zip (answerAll graph.result? handler attempt keys).2).findSome? graph.unanswered?) := by
  induction keys generalizing attempt with
  | nil => simp [answerAll]
  | cons key keys ih =>
      rw [answerAll_cons, ih, (responds graph attempt handler key).unhandled_eq, Option.or_assoc,
        List.zip_cons_cons, ← List.singleton_append, List.findSome?_append, List.findSome?_singleton]

theorem answerAll_isShort : (answerAll graph.result? handler attempt keys).1.isShort = true ↔
    attempt.isShort = true ∨ .absent ∈ (answerAll graph.result? handler attempt keys).2 := by
  induction keys generalizing attempt with
  | nil => simp [answerAll]
  | cons key keys ih =>
      rw [answerAll_cons, ih, (responds graph attempt handler key).isShort_iff, or_assoc,
        List.mem_cons]

end Group

section Serve

variable (requests : List (Request κ φ))

theorem serve_cons (request : Request κ φ) : serve graph.result? attempt (request :: requests) =
    ((serve graph.result? (attempt.request graph.result? request.keys request.handler?).1 requests).1,
      (attempt.request graph.result? request.keys request.handler?).2 ::
        (serve graph.result? (attempt.request graph.result? request.keys request.handler?).1
          requests).2) := rfl

theorem serve_answered : List.Forall₂ (fun (request : Request κ φ) answers =>
    List.Forall₂ (Answered graph request.handler?) request.keys answers) requests
      (serve graph.result? attempt requests).2 := by
  induction requests generalizing attempt with
  | nil => exact .nil
  | cons request requests ih => exact .cons (answerAll_answered ..) (ih _)

theorem serve_requested : (serve graph.result? attempt requests).1.requested =
    (requests.map Request.keys).foldl Grouping.push attempt.requested := by
  induction requests generalizing attempt with
  | nil => rfl
  | cons request requests ih =>
      rw [serve_cons, ih, request_requested]
      rfl

theorem serve_missing : (serve graph.result? attempt requests).1.missing = attempt.missing ++
    additions attempt.missing ((requests.flatMap Request.keys).filter graph.hasNoResult) := by
  induction requests generalizing attempt with
  | nil => exact (List.append_nil _).symm
  | cons request requests ih =>
      have first : (attempt.request graph.result? request.keys request.handler?).1.missing =
          attempt.missing ++ additions attempt.missing (request.keys.filter graph.hasNoResult) :=
        answerAll_missing ..
      rw [serve_cons, ih, first, append_additions_append, ← List.filter_append, List.flatMap_cons]

/-- What each key of the requests was answered. -/
def transcript (requests : List (Request κ φ)) (answers : List (List (Answer ν φ))) :
    List (κ × Answer ν φ) :=
  (requests.zip answers).flatMap fun (request, answers) => request.keys.zip answers

theorem serve_unhandled : (serve graph.result? attempt requests).1.unhandled =
    attempt.unhandled.or ((transcript requests (serve graph.result? attempt requests).2).findSome?
      graph.unanswered?) := by
  induction requests generalizing attempt with
  | nil => simp [serve, transcript]
  | cons request requests ih =>
      have first : (attempt.request graph.result? request.keys request.handler?).1.unhandled =
          attempt.unhandled.or ((request.keys.zip
            (attempt.request graph.result? request.keys request.handler?).2).findSome?
              graph.unanswered?) := answerAll_unhandled ..
      rw [serve_cons, ih, first, Option.or_assoc, ← List.findSome?_append]
      rfl

theorem serve_isShort : (serve graph.result? attempt requests).1.isShort = true ↔
    attempt.isShort = true ∨
      ∃ answers ∈ (serve graph.result? attempt requests).2, .absent ∈ answers := by
  induction requests generalizing attempt with
  | nil => simp [serve]
  | cons request requests ih =>
      have first : (attempt.request graph.result? request.keys request.handler?).1.isShort = true ↔
          attempt.isShort = true ∨
            .absent ∈ (attempt.request graph.result? request.keys request.handler?).2 :=
        answerAll_isShort ..
      rw [serve_cons, ih, first, or_assoc, List.exists_mem_cons_iff]

theorem serve_take (count : Nat) : (serve graph.result? attempt (requests.take count)).2 =
    (serve graph.result? attempt requests).2.take count := by
  induction requests generalizing attempt count with
  | nil => simp [serve]
  | cons request requests ih =>
      cases count with
      | zero => rfl
      | succ count => exact congrArg (_ :: ·) (ih _ count)

end Serve

section Notes

variable {attempt} (events : List (Event κ)) (interrupts : Bool)

omit [Key κ] in
theorem answer_noted [DecidableEq κ] (handler : Option (Handler φ)) (key : κ)
    (result : Option (Result κ ν φ)) :
    ({ attempt with events, interrupts } : Attempt κ φ).answer handler key result =
      ({ (attempt.answer handler key result).1 with events, interrupts },
        (attempt.answer handler key result).2) := by
  unfold answer addMissing addUnhandled
  split
  · rfl
  · split <;> rfl
  · split
    · split <;> rfl
    · rfl

theorem answerAll_noted (handler : Option (Handler φ)) (keys : List κ) :
    answerAll graph.result? handler { attempt with events, interrupts } keys =
      ({ (answerAll graph.result? handler attempt keys).1 with events, interrupts },
        (answerAll graph.result? handler attempt keys).2) := by
  induction keys generalizing attempt with
  | nil => rfl
  | cons key keys ih =>
      rw [answerAll_cons, answerAll_cons, answer_noted, ih]

theorem serve_noted (requests : List (Request κ φ)) :
    serve graph.result? { attempt with events, interrupts } requests =
      ({ (serve graph.result? attempt requests).1 with events, interrupts },
        (serve graph.result? attempt requests).2) := by
  induction requests generalizing attempt with
  | nil => rfl
  | cons request requests ih =>
      have first : ({ attempt with events, interrupts } : Attempt κ φ).request graph.result?
          request.keys request.handler? =
            ({ (attempt.request graph.result? request.keys request.handler?).1 with
                events, interrupts },
              (attempt.request graph.result? request.keys request.handler?).2) :=
        @answerAll_noted _ _ _ _ graph
          { attempt with
            requested := attempt.requested.push request.keys
            handlers := attempt.handlers ++ request.handler?.toList.flatMap fun handles =>
              request.keys.map fun key => (key, handles) } events interrupts _ _
      rw [serve_cons, serve_cons, first, ih]

/-- A run makes requests and ends as the computation does when it is told what these are
answered one after another, and it records what serving them records. -/
theorem exists_serve (key : κ) (computation : Computation κ ν φ) :
    ∃ requests events interrupts,
      computation.Makes attempt.isShort requests (serve graph.result? attempt requests).2
        (Attempt.run graph.result? key computation attempt).2 ∧
      (Attempt.run graph.result? key computation attempt).1 =
        { (serve graph.result? attempt requests).1 with events, interrupts } := by
  induction computation generalizing attempt with
  | request keys handler resume ih =>
      obtain ⟨request, rfl, rfl⟩ : ∃ request : Request κ φ,
          request.keys = keys ∧ request.handler? = handler := by
        cases handler with
        | none => exact ⟨.values keys, rfl, rfl⟩
        | some handler => exact ⟨.valuesOrThrow keys handler, rfl, rfl⟩
      obtain ⟨requests, events, interrupts, makes, same⟩ :=
        @ih (attempt.request graph.result? request.keys request.handler?).2
          (attempt.request graph.result? request.keys request.handler?).1
      exact ⟨request :: requests, events, interrupts, .request (answerAll_isShort ..) makes, same⟩
  | inspect resume ih =>
      obtain ⟨requests, events, interrupts, makes, same⟩ := ih attempt.isShort
      exact ⟨requests, events, interrupts, .inspect makes, same⟩
  | report severity message rest ih =>
      obtain ⟨requests, events, interrupts, makes, same⟩ :=
        @ih { attempt with events := attempt.events ++ [⟨severity, key, message⟩] }
      rw [serve_noted] at makes same
      exact ⟨requests, events, interrupts, .report severity message makes, same⟩
  | interrupt rest ih =>
      obtain ⟨requests, events, interrupts, makes, same⟩ := @ih { attempt with interrupts := true }
      rw [serve_noted] at makes same
      exact ⟨requests, events, interrupts, .interrupt makes, same⟩
  | finish outcome => exact ⟨[], attempt.events, attempt.interrupts, .finish outcome, rfl⟩

end Notes

/-- Whatever a graph holds and whatever is asked for, every request is answered key by
key, by the committed value, by the error behind the committed failure if the request
offered to handle it, and by nothing otherwise. The groups on record are the requested
ones without what was requested before. The missing keys are those without a valid
result, each at its first request, and the unhandled failure is the first that a
request was answered by nothing for. At any time something is short exactly if a
request so far was answered by nothing. A run of a function makes requests, is told
what serving them answers, and records nothing else of them. -/
theorem requests_are_recorded (requests : List (Request κ φ)) :
    List.Forall₂ (fun (request : Request κ φ) answers =>
        List.Forall₂ (Answered graph request.handler?) request.keys answers)
      requests (serve graph.result? {} requests).2 ∧
    (serve graph.result? {} requests).1.requested.groups =
      ((requests.map Request.keys).mapIdx (Grouping.fresh (requests.map Request.keys))).filter
        (· ≠ []) ∧
    (serve graph.result? {} requests).1.missing =
      distinct ((requests.flatMap Request.keys).filter graph.hasNoResult) ∧
    (serve graph.result? {} requests).1.unhandled =
      (transcript requests (serve graph.result? {} requests).2).findSome? graph.unanswered? ∧
    (∀ count, (serve graph.result? {} (requests.take count)).1.isShort = true ↔
      ∃ answers ∈ (serve graph.result? {} requests).2.take count, .absent ∈ answers) ∧
    ∀ key computation, ∃ made events interrupts,
      computation.Makes false made (serve graph.result? {} made).2
        (Attempt.run graph.result? key computation {}).2 ∧
      (Attempt.run graph.result? key computation {}).1 =
        { (serve graph.result? {} made).1 with events, interrupts } := by
  refine ⟨serve_answered .., ?_, ?_, ?_, fun count => ?_, fun key computation =>
    @exists_serve κ ν φ _ graph {} key computation⟩
  · rw [serve_requested]
    exact Grouping.groups_ofRequests _
  · exact serve_missing ..
  · exact serve_unhandled ..
  · rw [serve_isShort, serve_take]
    exact or_iff_right Bool.false_ne_true

end Attempt

end MemoGraph
