import MemoGraph.Proofs.Round.Lifecycles
import MemoGraph.Proofs.Round.Reports

namespace MemoGraph

/-! Events are delivered with the result of their key.

A commit gives a key a result or confirms the one it has. A ledger reads what
was told as a sequence of commits, each of which ends with its events and the
callback that ends the key. Everything else that is told is quiet.
-/

variable {κ ν φ : Type}

/-- A run of a function. Runs are numbered in the order in which they happen. -/
structure Trial (κ ν φ : Type) where
  number : Nat
  attempt : Attempt κ φ
  outcome : Outcome ν φ

/-- The run decides about its key by itself: it returned a value or a failure of
its own, with nothing missing and nothing unhandled. -/
def Trial.decides (trial : Trial κ ν φ) : Bool :=
  !trial.attempt.isShort &&
    match trial.outcome with
    | .value _ | .refused (.failed _) => true
    | .refused .incomplete | .crashed _ => false

/-- A key was given a result or kept it, by a run of its function if there is one. -/
structure Commit (κ ν φ : Type) where
  key : κ
  trial : Option (Trial κ ν φ) := none

/-- What has to reach the listener with the commit. -/
def Commit.delivered (commit : Commit κ ν φ) : List (Event κ) :=
  match commit.trial with
  | some trial => if trial.decides then trial.attempt.events else []
  | none => []

/-- How a commit ends its key, and the events that come with it. -/
inductive Commit.Settles : Commit κ ν φ → Ending κ φ → List (Event κ) → Prop
  | value {key : κ} {number : Nat} {attempt : Attempt κ φ} (value : ν) (kept : Bool)
      (available : attempt.isShort = false) :
      Settles ⟨key, some ⟨number, attempt, .value value⟩⟩
        (if kept then .unchanged else .changed) attempt.events
  | failed {key : κ} {number : Nat} {attempt : Attempt κ φ} (fault : Fault φ)
      (available : attempt.isShort = false) :
      Settles ⟨key, some ⟨number, attempt, .refused (.failed fault)⟩⟩
        (.ofFailure (.ofFault key fault)) attempt.events
  | incomplete {key : κ} {number : Nat} {attempt : Attempt κ φ}
      (available : attempt.isShort = false) :
      Settles ⟨key, some ⟨number, attempt, .refused .incomplete⟩⟩
        (.ofFailure (.infrastructure key
          ((Fault.ofInfrastructure .incomplete).withTransience .persistent))) []
  | crashed {key : κ} {number : Nat} {attempt : Attempt κ φ} (message : Option String) :
      Settles ⟨key, some ⟨number, attempt, .crashed message⟩⟩
        (.ofFailure (.infrastructure key (.ofInfrastructure (.crashed message)))) []
  | unhandled {key : κ} {trial : Trial κ ν φ} (dependency : κ) (cause : Failure κ φ)
      (short : trial.attempt.unhandled.isSome = true) :
      Settles ⟨key, some trial⟩ (.ofFailure (.dependency key dependency cause)) []
  /-- What an earlier run asked for has failed, and the function is not run again. -/
  | blamed (key dependency : κ) (cause : Failure κ φ) :
      Settles { key } (.ofFailure (.dependency key dependency cause)) []
  | unregistered (key : κ) (kind : String) :
      Settles { key } (.ofFailure (.infrastructure key
        ((Fault.ofInfrastructure (.unregistered kind)).withTransience .persistent))) []
  | revalidated (key : κ) : Settles { key } .revalidated []
  | stuck (key : κ) : Settles { key } .cycleDetected []

/-- The numbers of the runs that decided about keys. -/
def numbers (commits : List (Commit κ ν φ)) : List Nat :=
  commits.filterMap fun commit => commit.trial.map Trial.number

/-- What was told, as a sequence of commits. -/
inductive Ledger : List (Commit κ ν φ) → List (Signal κ φ) → Prop
  | nil : Ledger [] []
  | quiet {commits : List (Commit κ ν φ)} {told : List (Signal κ φ)} {signal : Signal κ φ}
      (notEvent : signal.event? = none) (notEnd : signal.isEnd = false)
      (rest : Ledger commits told) : Ledger commits (signal :: told)
  | commit {commits : List (Commit κ ν φ)} {told : List (Signal κ φ)} {commit : Commit κ ν φ}
      {ending : Ending κ φ} {events : List (Event κ)} (settles : commit.Settles ending events)
      (own : ∀ event ∈ events, event.key = commit.key) (rest : Ledger commits told) :
      Ledger (commit :: commits) (events.map .event ++ .finish commit.key ending :: told)

section Ledgers

variable {commits more : List (Commit κ ν φ)} {told later : List (Signal κ φ)}

theorem Commit.Settles.delivered {commit : Commit κ ν φ} {ending : Ending κ φ}
    {events : List (Event κ)} (settles : commit.Settles ending events) :
    events = commit.delivered := by
  cases settles with
  | value _ _ available | failed _ available =>
      simp [Commit.delivered, Trial.decides, available]
  | unhandled _ _ short => simp [Commit.delivered, Trial.decides, Attempt.isShort, short]
  | incomplete | crashed => simp [Commit.delivered, Trial.decides]
  | _ => rfl

theorem Commit.Settles.mem_events {key : κ} {trial : Trial κ ν φ} {ending : Ending κ φ}
    {events : List (Event κ)} (settles : Commit.Settles ⟨key, some trial⟩ ending events) :
    events ⊆ trial.attempt.events := by
  rw [settles.delivered, Commit.delivered]
  split
  · rename_i found
    cases found
    split
    · exact List.Subset.refl _
    · exact List.nil_subset _
  · exact List.nil_subset _

namespace Ledger

theorem append (ledger : Ledger commits told) (next : Ledger more later) :
    Ledger (commits ++ more) (told ++ later) := by
  induction ledger with
  | nil => exact next
  | quiet notEvent notEnd _ ih => exact .quiet notEvent notEnd ih
  | commit settles own _ ih =>
      rw [List.append_assoc]
      exact .commit settles own ih

theorem of_quiet (quiet : ∀ signal ∈ told, signal.event? = none ∧ signal.isEnd = false) :
    Ledger ([] : List (Commit κ ν φ)) told := by
  induction told with
  | nil => exact .nil
  | cons signal told ih =>
      obtain ⟨notEvent, notEnd⟩ := quiet signal List.mem_cons_self
      exact .quiet notEvent notEnd (ih fun other member =>
        quiet other (List.mem_cons_of_mem signal member))

theorem one {commit : Commit κ ν φ} {ending : Ending κ φ} {events : List (Event κ)}
    (settles : commit.Settles ending events) (own : ∀ event ∈ events, event.key = commit.key) :
    Ledger [commit] (events.map .event ++ [.finish commit.key ending]) :=
  .commit settles own .nil

end Ledger

/-- What the listener receives. -/
def received (told : List (Signal κ φ)) : List (Event κ) := told.filterMap Signal.event?

/-- What the listener receives in the name of the key. -/
def receivedFrom [DecidableEq κ] (key : κ) (told : List (Signal κ φ)) : List (Event κ) :=
  (received told).filter fun event => event.key = key

theorem Ledger.silent (ledger : Ledger ([] : List (Commit κ ν φ)) told) : received told = [] := by
  generalize none : ([] : List (Commit κ ν φ)) = commits at ledger
  induction ledger with
  | nil => rfl
  | quiet notEvent _ _ ih => exact (List.filterMap_cons_none notEvent).trans (ih none)
  | commit => cases none

/-- The listener receives what its commits deliver, commit after commit. -/
theorem Ledger.receivedFrom_eq [DecidableEq κ] (ledger : Ledger commits told) (key : κ) :
    receivedFrom key told =
      (commits.filter fun commit => commit.key = key).flatMap Commit.delivered := by
  induction ledger with
  | nil => rfl
  | quiet notEvent _ _ ih =>
      unfold receivedFrom received at ih ⊢
      rwa [List.filterMap_cons_none notEvent]
  | @commit commits told commit ending events settles own _ ih =>
      have reported : (events.map Signal.event : List (Signal κ φ)).filterMap Signal.event? =
          events := by
        rw [List.filterMap_map]
        exact List.filterMap_some
      unfold receivedFrom received at ih ⊢
      rw [List.filterMap_append, reported, List.filterMap_cons_none rfl, List.filter_append, ih,
        List.filter_cons]
      by_cases same : commit.key = key
      · have all : events.filter (fun event => event.key = key) = events :=
          List.filter_eq_self.mpr fun event isEvent => decide_eq_true ((own event isEvent).trans same)
        rw [all, if_pos (decide_eq_true same), List.flatMap_cons, settles.delivered]
      · have none : events.filter (fun event => event.key = key) = [] :=
          List.filter_eq_nil_iff.mpr fun event isEvent isKey =>
            same ((own event isEvent).symm.trans (of_decide_eq_true isKey))
        rw [none, if_neg (by simpa using same), List.nil_append]

/-- The deciding runs are in order, none of them stands there twice, and their
numbers are in the given bounds. -/
structure Numbered (lower upper : Nat) (commits : List (Commit κ ν φ)) : Prop where
  le : lower ≤ upper
  sorted : (numbers commits).Pairwise (· < ·)
  within : ∀ number ∈ numbers commits, lower ≤ number ∧ number < upper

namespace Numbered

variable {lower middle upper : Nat}

theorem of_silent (le : lower ≤ upper) (silent : ∀ commit ∈ commits, commit.trial = none) :
    Numbered lower upper commits := by
  have none : numbers commits = [] := by
    refine List.filterMap_eq_nil_iff.mpr fun commit member => ?_
    rw [silent commit member]
    rfl
  exact ⟨le, none ▸ .nil, by simp [none]⟩

theorem append (first : Numbered lower middle commits) (second : Numbered middle upper more) :
    Numbered lower upper (commits ++ more) := by
  have split : numbers (commits ++ more) = numbers commits ++ numbers more :=
    List.filterMap_append ..
  refine ⟨first.le.trans second.le, ?_, fun number member => ?_⟩
  · rw [split, List.pairwise_append]
    exact ⟨first.sorted, second.sorted, fun early isEarly late isLate =>
      (first.within early isEarly).2.trans_le (second.within late isLate).1⟩
  · rw [split, List.mem_append] at member
    rcases member with early | late
    · obtain ⟨above, below⟩ := first.within number early
      exact ⟨above, below.trans_le second.le⟩
    · obtain ⟨above, below⟩ := second.within number late
      exact ⟨first.le.trans above, below⟩

end Numbered

end Ledgers

section Verdict

variable [Key κ] {graph : Graph κ ν φ} {key : κ} {attempt : Attempt κ φ} {outcome : Outcome ν φ}
  {result : Result κ ν φ} {dependencies : Grouping κ} {events : List (Event κ)}

theorem settles_of_verdict
    (decided : attempt.verdict graph key outcome = .commit result dependencies events)
    (number : Nat) (kept : Bool) :
    Commit.Settles ⟨key, some ⟨number, attempt, outcome⟩⟩ (.ofResult kept result) events := by
  have available : attempt.missing = [] → attempt.unhandled = none → attempt.isShort = false :=
    fun missing unhandled => Attempt.isShort_eq_false_iff.mpr ⟨missing, unhandled⟩
  cases (decides_of_verdict decided).2 with
  | crashed message => exact .crashed message
  | value value complete handled => exact .value value kept (available complete handled)
  | failed fault complete handled => exact .failed fault (available complete handled)
  | incomplete complete handled => exact .incomplete (available complete handled)
  | blamed _ first dependency cause _ unhandled =>
      exact .unhandled dependency cause (by rw [unhandled]; rfl)

end Verdict

end MemoGraph
