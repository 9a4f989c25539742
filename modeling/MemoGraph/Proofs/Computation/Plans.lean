import MemoGraph.Proofs.Computation.Lockstep

namespace MemoGraph

/-- What a function asks for, one group after another. What comes next depends
on nothing but the answers so far. -/
inductive Plan (κ ν φ : Type) where
  | ask (keys : List κ) (handler : Option (Handler φ)) (next : List (Answer ν φ) → Plan κ ν φ)
  | done

variable {κ ν φ : Type}

/-- The computation asks for what is planned, and goes on after a request only
if everything that it requested is available. Whatever else it does and when it
ends is left open. -/
inductive Computation.Follows : Computation κ ν φ → Plan κ ν φ → Prop
  | request {keys : List κ} {handler : Option (Handler φ)}
      {rest : List (Answer ν φ) → Computation κ ν φ} {next : List (Answer ν φ) → Plan κ ν φ}
      (available : ∀ answers, .absent ∉ answers → Follows (rest answers) (next answers)) :
      Follows (.request keys handler fun answers => (rest answers).check) (.ask keys handler next)
  | inspect {resume : Bool → Computation κ ν φ} {plan : Plan κ ν φ}
      (available : Follows (resume false) plan) : Follows (.inspect resume) plan
  | report {severity : Severity} {message : String} {rest : Computation κ ν φ}
      {plan : Plan κ ν φ} (follows : Follows rest plan) :
      Follows (.report severity message rest) plan
  | interrupt {rest : Computation κ ν φ} {plan : Plan κ ν φ} (follows : Follows rest plan) :
      Follows (.interrupt rest) plan
  | finish (outcome : Outcome ν φ) (plan : Plan κ ν φ) : Follows (.finish outcome) plan

/-- Every run of the key's function follows the plan. -/
def Registry.Follows (registry : Registry κ ν φ) (key : κ) (plan : Plan κ ν φ) : Prop :=
  ∀ function, registry.function? key = some function → ∀ run, (function run).Follows plan

/-- The plan of a computation that is strict. -/
def Computation.plan : Computation κ ν φ → Plan κ ν φ
  | .request keys handler resume => .ask keys handler fun answers => (resume answers).plan
  | .inspect resume => (resume false).plan
  | .report _ _ rest | .interrupt rest => rest.plan
  | .finish _ => .done

theorem Computation.Strict.follows {computation : Computation κ ν φ}
    (strict : computation.Strict) : computation.Follows computation.plan := by
  induction strict with
  | request _ ih => exact .request ih
  | inspect _ ih => exact .inspect ih
  | report _ ih => exact .report ih
  | interrupt _ ih => exact .interrupt ih
  | finish outcome => exact .finish outcome .done

variable [DecidableEq κ] {results others : κ → Option (Result κ ν φ)} {attempt other : Attempt κ φ}
  {plan : Plan κ ν φ} {known requested more : Grouping κ} {missing lacking : List κ}

namespace Attempt

/-- What a request is answered does not depend on the requests before. -/
theorem answers_answerAll (handler : Option (Handler φ)) (keys : List κ) :
    (answerAll results handler attempt keys).2 = (answerAll results handler other keys).2 := by
  induction keys generalizing attempt other with
  | nil => rfl
  | cons key keys ih =>
      have first : ∀ result : Option (Result κ ν φ),
          (attempt.answer handler key result).2 = (other.answer handler key result).2 := by
        intro result
        unfold answer
        split
        · rfl
        · rfl
        · split
          · split <;> rfl
          · rfl
      show (attempt.answer handler key (results key)).2 :: _ =
        (other.answer handler key (results key)).2 :: _
      rw [first, ih]

end Attempt

namespace Plan

/-- Followed against the results, with some requests made already, the plan is
given up at a group of which some keys are missing. -/
inductive Stops (results : κ → Option (Result κ ν φ)) :
    Plan κ ν φ → Grouping κ → Grouping κ → List κ → Prop
  | here {keys : List κ} {handler : Option (Handler φ)} {next : List (Answer ν φ) → Plan κ ν φ}
      {known : Grouping κ} {missing : List κ} (lacking : missing ≠ [])
      (lacks : ∀ key, key ∈ missing ↔ key ∈ keys ∧ results key = none) :
      Stops results (.ask keys handler next) known (known.push keys) missing
  | on {keys : List κ} {handler : Option (Handler φ)} {next : List (Answer ν φ) → Plan κ ν φ}
      {known requested : Grouping κ} {missing : List κ}
      (present : ∀ key ∈ keys, results key ≠ none)
      (later : Stops results
        (next (Attempt.answerAll results handler ({} : Attempt κ φ) keys).2) (known.push keys)
        requested missing) :
      Stops results (.ask keys handler next) known requested missing

theorem Stops.of_request {keys : List κ} {handler : Option (Handler φ)}
    {next : List (Answer ν φ) → Plan κ ν φ} (attempt : Attempt κ φ)
    (present : ∀ key ∈ keys, results key ≠ none)
    (later : Stops results (next (attempt.request results keys handler).2)
      (attempt.request results keys handler).1.requested requested missing) :
    Stops results (.ask keys handler next) attempt.requested requested missing := by
  have answers : (attempt.request results keys handler).2 =
      (Attempt.answerAll results handler ({} : Attempt κ φ) keys).2 :=
    Attempt.answers_answerAll handler keys
  rw [Attempt.request_requested, answers] at later
  exact .on present later

theorem Stops.lacks (stops : plan.Stops results known requested missing) :
    ∀ key ∈ missing, results key = none := by
  induction stops with
  | here _ lacks => exact fun key member => ((lacks key).mp member).2
  | on _ _ ih => exact ih

theorem Stops.continues (stops : plan.Stops results known requested missing) :
    known.Continues requested := by
  induction stops with
  | here => exact Grouping.continues_push _ _
  | on _ _ ih => exact (Grouping.continues_push _ _).trans ih

/-- All that is missing belongs to the group that was asked for last. -/
theorem Stops.last_group (stops : plan.Stops results known requested missing)
    (present : ∀ key ∈ known, results key ≠ none) :
    ∃ earlier group, requested.groups = earlier ++ [group] ∧ missing ⊆ group := by
  induction stops with
  | @here keys handler next known missing lacking lacks =>
      have added : missing ⊆ additions known.keys keys := by
        intro key member
        obtain ⟨asked, absent⟩ := (lacks key).mp member
        exact mem_additions.mpr ⟨asked, fun isKnown => present key isKnown absent⟩
      have some : additions known.keys keys ≠ [] :=
        fun nothing => lacking (List.subset_nil.mp (nothing ▸ added))
      refine ⟨known.groups, additions known.keys keys, ?_, added⟩
      rw [Grouping.groups_push, if_neg some]
  | on answered _ ih =>
      refine ih fun key member => ?_
      exact (Grouping.mem_push.mp member).elim (present key) (answered key)

/-- With more results the plan is given up no earlier. -/
theorem Stops.resumes (first : plan.Stops results known requested missing)
    (second : plan.Stops others known more lacking)
    (grown : ∀ key result, results key = some result → others key = some result) :
    requested.Continues more := by
  induction first with
  | here =>
      cases second with
      | here => exact List.prefix_refl _
      | on _ later => exact later.continues
  | @on keys handler _ _ _ _ present later ih =>
      have same : ∀ key ∈ keys, results key = others key := by
        intro key asked
        obtain ⟨result, found⟩ := Option.ne_none_iff_exists'.mp (present key asked)
        rw [found, grown key result found]
      cases second with
      | here some lacks =>
          obtain ⟨key, member⟩ := List.exists_mem_of_ne_nil _ some
          obtain ⟨asked, absent⟩ := (lacks key).mp member
          exact absurd ((same key asked).trans absent) (present key asked)
      | on _ again =>
          rw [← Attempt.answerAll_congr handler same] at again
          exact ih again

/-- With results of all that was asked for, the plan is given up at a later
group. -/
theorem Stops.advances (first : plan.Stops results .empty requested missing)
    (second : plan.Stops others .empty more lacking)
    (grown : ∀ key result, results key = some result → others key = some result)
    (some : lacking ≠ []) (present : ∀ key ∈ requested, others key ≠ none) :
    ∃ earlier group, more.groups = earlier ++ [group] ∧ lacking ⊆ group ∧
      requested.groups <+: earlier := by
  obtain ⟨earlier, group, isMore, inGroup⟩ :=
    second.last_group fun key member => absurd member (Grouping.not_mem_empty key)
  refine ⟨earlier, group, isMore, inGroup, ?_⟩
  have continues : requested.groups <+: earlier ++ [group] := isMore ▸ first.resumes second grown
  rcases List.prefix_concat_iff.mp continues with same | earlier
  · -- The last group would have been asked for before.
    obtain ⟨key, member⟩ := List.exists_mem_of_ne_nil _ some
    have asked : key ∈ requested.groups.flatten := by
      rw [same]
      exact List.mem_flatten.mpr ⟨group, by simp, inGroup member⟩
    rw [Grouping.flatten_groups] at asked
    exact absurd (second.lacks key member) (present key asked)
  · exact earlier

end Plan

/-- A run that follows a plan and misses something gave the plan up there. -/
theorem Computation.Follows.stops {computation : Computation κ ν φ}
    (follows : computation.Follows plan) (key : κ) (available : attempt.isShort = false)
    (short : (Attempt.run results key computation attempt).1.missing ≠ []) :
    plan.Stops results attempt.requested
      (Attempt.run results key computation attempt).1.requested
      (Attempt.run results key computation attempt).1.missing := by
  induction follows generalizing attempt with
  | @request keys handler rest next _ ih =>
      have nothing := (Attempt.isShort_eq_false_iff.mp available).1
      have lacks : ∀ key, key ∈ (attempt.request results keys handler).1.missing ↔
          key ∈ keys ∧ results key = none := by
        intro key
        unfold Attempt.request
        rw [Attempt.mem_missing_answerAll]
        simp [nothing]
      unfold Attempt.run at short ⊢
      cases isShort : (attempt.request results keys handler).1.isShort with
      | true =>
          simp only [Computation.check, Attempt.run, isShort, if_true] at short ⊢
          rw [Attempt.request_requested]
          exact .here short lacks
      | false =>
          obtain ⟨missing, unhandled⟩ := Attempt.isShort_eq_false_iff.mp isShort
          simp only [Computation.check, Attempt.run, isShort, Bool.false_eq_true, if_false]
            at short ⊢
          have later := ih _ (Attempt.answered_of_available missing unhandled) isShort short
          refine .of_request attempt (fun key asked absent => ?_) later
          have listed := (lacks key).mpr ⟨asked, absent⟩
          rw [missing] at listed
          cases listed
  | inspect _ ih =>
      unfold Attempt.run at short ⊢
      rw [available] at short ⊢
      exact ih available short
  | @report severity message _ _ _ ih =>
      exact @ih { attempt with events := attempt.events ++ [⟨severity, key, message⟩] } available
        short
  | interrupt _ ih => exact @ih { attempt with interrupts := true } available short
  | finish outcome => exact absurd (Attempt.isShort_eq_false_iff.mp available).1 short

end MemoGraph
