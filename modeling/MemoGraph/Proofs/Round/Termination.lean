import MemoGraph.Proofs.Round.Descent
import MemoGraph.Proofs.Round.Matching
import MemoGraph.Proofs.Round.Sights

namespace MemoGraph

variable {κ ν φ : Type}

/-- The computation never cancels the round that it runs in. -/
inductive Computation.Patient : Computation κ ν φ → Prop
  | request {keys : List κ} {handler : Option (Handler φ)}
      {resume : List (Answer ν φ) → Computation κ ν φ}
      (patient : ∀ answers, Patient (resume answers)) : Patient (.request keys handler resume)
  | inspect {resume : Bool → Computation κ ν φ} (patient : ∀ short, Patient (resume short)) :
      Patient (.inspect resume)
  | report {severity : Severity} {message : String} {rest : Computation κ ν φ}
      (patient : Patient rest) : Patient (.report severity message rest)
  | finish (outcome : Outcome ν φ) : Patient (.finish outcome)

/-- No function ever cancels the round that it runs in. -/
def Registry.Patient (registry : Registry κ ν φ) : Prop :=
  ∀ key function, registry.function? key = some function → ∀ run, (function run).Patient

namespace Attempt

variable [DecidableEq κ] {attempt : Attempt κ φ} {results : κ → Option (Result κ ν φ)}

theorem answer_interrupts (handler : Option (Handler φ)) (key : κ)
    (result : Option (Result κ ν φ)) :
    (attempt.answer handler key result).1.interrupts = attempt.interrupts := by
  unfold answer addMissing addUnhandled
  split
  · rfl
  · split <;> rfl
  · split
    · split <;> rfl
    · rfl

theorem answerAll_interrupts (handler : Option (Handler φ)) (keys : List κ) :
    (answerAll results handler attempt keys).1.interrupts = attempt.interrupts := by
  induction keys generalizing attempt with
  | nil => rfl
  | cons key keys ih => exact ih.trans (answer_interrupts handler key _)

theorem run_interrupts {computation : Computation κ ν φ} (patient : computation.Patient)
    (key : κ) : (run results key computation attempt).1.interrupts = attempt.interrupts := by
  induction patient generalizing attempt with
  | request _ ih => exact (ih _).trans (answerAll_interrupts ..)
  | inspect _ ih => exact ih _
  | report _ ih => exact ih
  | finish outcome => rfl

end Attempt

namespace Round

variable [Key κ] [BEq ν] {round base left right last : Round κ ν φ} {inputs given : κ → Prop}
  {roots ready : List κ} {registry : Registry κ ν φ}

/-- From here on, a round can make finitely many moves at most. -/
abbrev Halts (registry : Registry κ ν φ) (roots : List κ) (now : Round κ ν φ × List κ) : Prop :=
  Acc (fun next now => Advance registry roots now next) now

section Phases

variable [LawfulBEq ν] (strict : registry.Strict)
include strict

/-- A phase ends before it goes beyond what another round has come to. -/
theorem Tracks.halts (tracks : Tracks registry inputs given base right)
    (resting : Sound registry right []) (sound : Sound registry base ready)
    (rest : ∀ last, Works registry roots (base, ready) (last, []) →
      Halts registry roots (last, [])) : Halts registry roots (base, ready) := by
  have descent : WellFounded (InvImage (Prod.Lex (· < ·) (· < ·)) fun now : Round κ ν φ =>
      now.measure right.graph.keys) :=
    InvImage.wf _ (WellFounded.prod_lex Nat.lt_wfRel.wf Nat.lt_wfRel.wf)
  induction base using descent.induction generalizing ready with
  | _ base ih =>
      constructor
      rintro ⟨next, later⟩ move
      cases move with
      | unblock going blocked order => exact (rest base .refl).inv (.unblock going blocked order)
      | step going chosen order =>
          have member := chosen.mem_iff.mpr List.mem_cons_self
          obtain ⟨work, effect, found, _, progress, moved⟩ := sound.moved member registry
          have busy := tracks.within _
            ((sound.waiting.mem_ready _).mp member).1
          have closer := progress.descends found (sound.underway _) moved sound.waiting member
            (Graph.mem_keys_of_not_idle busy)
          have move : Advance registry roots (base, ready) _ := .step going chosen order
          refine ih _ closer (tracks.step strict resting sound member found progress moved)
            (sound.advance move) fun last works => rest last (.head ⟨?_, move⟩ works)
          exact List.ne_nil_of_mem member

/-- A round that is matched with one at rest halts if it does once its deadlocks
are broken. -/
theorem Matched.halts {now other : Round κ ν φ × List κ}
    (works : Works registry roots now (last, [])) (sound : Sound registry now.1 now.2)
    (soundOther : Sound registry other.1 other.2)
    (matched : Matched registry inputs given now.1 other.1)
    (onward : ∀ {lastOther : Round κ ν φ} {later : List κ}, Sound registry lastOther [] →
      Matched registry inputs given last lastOther → (lastOther.breakDeadlock roots).2 ≠ [] →
        later.Perm (lastOther.breakDeadlock roots).2 →
          Halts registry roots ((lastOther.breakDeadlock roots).1, later)) :
    Halts registry roots other := by
  have resting := (sound.since strict works).1
  refine (matched.back.ahead strict sound works).halts strict resting soundOther
    fun lastOther worksOther => ?_
  have restingOther := (soundOther.since strict worksOther).1
  have atRest := matched.works strict sound soundOther works worksOther
  constructor
  rintro ⟨next, later⟩ move
  cases move with
  | step going chosen order => exact absurd (chosen.mem_iff.mpr List.mem_cons_self) List.not_mem_nil
  | unblock going blocked order => exact onward restingOther atRest blocked order

/-- A round that is matched with one that ended comes to an end. -/
theorem Phased.halts {now other : Round κ ν φ × List κ} (phased : Phased registry roots now last)
    (finished : (last.breakDeadlock roots).2 = []) (sound : Sound registry now.1 now.2)
    (soundOther : Sound registry other.1 other.2)
    (matched : Matched registry inputs given now.1 other.1) : Halts registry roots other := by
  induction phased generalizing given other with
  | last works =>
      refine matched.halts strict works sound soundOther fun restingOther atRest blocked _ => ?_
      have resting := (sound.since strict works).1
      have nothing := finished_of_evaluating resting restingOther
        (atRest.evaluating_breakDeadlock roots strict resting restingOther) finished
      exact absurd nothing blocked
  | next works blocked order rest ih =>
      refine matched.halts strict works sound soundOther fun restingOther atRest _ orderOther => ?_
      have resting := (sound.since strict works).1
      exact ih finished (resting.unblock order) (restingOther.unblock orderOther)
        (atRest.breakDeadlock roots strict resting restingOther)

end Phases

section Drive

/-- With room for all its moves, a round that is not cancelled runs to its end. -/
theorem drive_of_halts {now : Round κ ν φ × List κ} (halts : Halts registry roots now)
    (going : ∀ next, Advances registry roots now next → next.1.interrupted = false) :
    ∃ bound, (drive registry roots bound now.2 now.1).2 = .complete := by
  induction halts with
  | intro now _ ih =>
      obtain ⟨round, stack⟩ := now
      have here : round.interrupted = false := going _ .refl
      cases stack with
      | cons key stack =>
          have move : Advance registry roots (round, key :: stack) _ :=
            .step here (.refl _) (perm_push stack (round.step registry key).2)
          obtain ⟨bound, complete⟩ := ih _ move fun next moves => going next (.head move moves)
          exact ⟨bound + 1, by simpa [drive, here] using complete⟩
      | nil =>
          cases unblocked : round.breakDeadlock roots with
          | mk after ready =>
              cases ready with
              | nil => exact ⟨1, by simp [drive, here, unblocked]⟩
              | cons first others =>
                  have move : Advance registry roots (round, []) (after, (first :: others).reverse) := by
                    have move : Advance registry roots (round, [])
                        ((round.breakDeadlock roots).1, (first :: others).reverse) :=
                      .unblock here (by simp [unblocked])
                        (by rw [unblocked]; exact List.reverse_perm _)
                    rwa [unblocked] at move
                  obtain ⟨bound, complete⟩ :=
                    ih _ move fun next moves => going next (.head move moves)
                  exact ⟨bound + 1, by simpa [drive, here, unblocked] using complete⟩

/-- Functions that never cancel leave a round uncancelled. -/
theorem InOrder.going {now : Round κ ν φ × List κ} (inOrder : InOrder round ready)
    (patient : registry.Patient) (moves : Advances registry roots (round, ready) now)
    (going : round.interrupted = false) : now.1.interrupted = false := by
  refine inOrder.invariant moves (fun {_ _ _ _ _ effect} order member found progress moved going => ?_)
    (fun order going => (failed_breakDeadlock order.waiting roots).interrupted.trans going) going
  have quiet : ∀ {attempt}, effect.attempt = some attempt → attempt.interrupts = false := by
    intro attempt ran
    obtain ⟨function, registered, rfl⟩ := progress.attempt ran
    exact Attempt.run_interrupts (patient _ function registered _) _
  rw [moved.interrupted, going]
  cases ran : effect.attempt with
  | none => rfl
  | some attempt => exact quiet ran

theorem run_of_halts (halts : ∀ ready, ready.Perm (round.begin roots).2 →
      Halts registry roots ((round.begin roots).1, ready)) (unique : roots.Nodup)
    (rested : Rested round.graph) (patient : registry.Patient) (going : round.interrupted = false) :
    ∃ bound, (round.run registry bound roots).2 = .complete := by
  have begun := round.begin_spec unique
  have opened : (round.begin roots).1.interrupted = false :=
    begun.context.interrupted.trans going
  have order : (round.begin roots).2.reverse.Perm (round.begin roots).2 := List.reverse_perm _
  have inOrder := InOrder.begin unique rested order
  obtain ⟨bound, complete⟩ := drive_of_halts (halts _ order)
    fun next moves => inOrder.going patient moves opened
  refine ⟨bound, ?_⟩
  unfold run
  cases isBegun : round.begin roots with
  | mk after ready =>
      rw [isBegun] at complete
      cases ready with
      | nil => rfl
      | cons first others =>
          simp only at complete ⊢
          generalize drive registry roots bound (first :: others).reverse after = ended at complete ⊢
          obtain ⟨final, halt⟩ := ended
          simp only at complete
          subst complete
          rfl

end Drive

/-- A round ends with the results of one with the same roots and the same given
results that has ended. -/
theorem Ends.exists_run [LawfulBEq ν] {other final : Round κ ν φ} (strict : registry.Strict)
    (patient : registry.Patient) (unique : roots.Nodup) (rested : Rested round.graph)
    (restedOther : Rested other.graph) (going : other.interrupted = false)
    (alongside : Alongside registry inputs given round other)
    (ends : Ends registry roots round final .complete) :
    ∃ bound, (other.run registry bound roots).2 = .complete := by
  obtain ⟨ready, last, order, phased, finished, rfl⟩ := ends.phased unique rested
  refine run_of_halts (fun readyOther orderOther => ?_) unique restedOther patient going
  exact phased.halts strict finished (.begin unique rested order)
    (.begin unique restedOther orderOther)
    ⟨alongside.begin unique rested, alongside.symm.begin unique restedOther⟩

end Round

end MemoGraph
