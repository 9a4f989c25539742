import Mathlib.Logic.Relation
import MemoGraph.Proofs.Round.Beginning
import MemoGraph.Proofs.Round.Deadlocks
import MemoGraph.Round.Schedule

namespace MemoGraph

/-- The work on a node suits what the node remembers: only a result that may
still hold is checked, and one that holds is left alone. -/
def Node.Underway {κ ν φ : Type} (node : Node κ ν φ) : Prop :=
  ∀ work, node.work = some work → (∀ result, node.memo ≠ .valid result) ∧
    ∀ group awaiting, work.phase = .checking group awaiting → ∃ result, node.memo = .dirty result

namespace Node

variable {κ ν φ : Type} {node other : Node κ ν φ}

theorem Underway.of_free (free : node.work = none) : node.Underway := by
  intro work found
  rw [free] at found
  cases found

theorem Underway.alike (underway : node.Underway) (alike : Alike other node) : other.Underway := by
  intro work found
  obtain ⟨same, isWork, phase, _⟩ := alike.work_some found
  rw [alike.memo, ← phase]
  exact underway same isWork

theorem Underway.taken (underway : node.Underway) : node.taken.Underway := by
  cases idle : node.isIdle with
  | false =>
      rw [taken_of_not_idle idle]
      exact underway
  | true =>
      obtain ⟨phase, first, taken⟩ := taken_of_idle idle
      rw [taken]
      intro work found
      cases found
      cases memo : node.memo <;> rw [memo] at first <;> cases first <;> simp

end Node

namespace Round

/-! Rounds that step their ready keys in any order.

What holds of such rounds does not rest on the order in which ready keys stand
on the stack, nor on how many of them are stepped at once.
-/

variable {κ ν φ : Type} [Key κ] [BEq ν]

/-- One move of a round of which some keys are ready: any of them is stepped,
or, when none is left, deadlocks are broken. The keys that are ready afterwards
may stand in any order. -/
inductive Advance (registry : Registry κ ν φ) (roots : List κ) :
    Round κ ν φ × List κ → Round κ ν φ × List κ → Prop
  | step {round : Round κ ν φ} {key : κ} {ready rest later : List κ}
      (going : round.interrupted = false) (chosen : ready.Perm (key :: rest))
      (order : later.Perm (rest ++ (round.step registry key).2)) :
      Advance registry roots (round, ready) ((round.step registry key).1, later)
  | unblock {round : Round κ ν φ} {later : List κ} (going : round.interrupted = false)
      (blocked : (round.breakDeadlock roots).2 ≠ [])
      (order : later.Perm (round.breakDeadlock roots).2) :
      Advance registry roots (round, []) ((round.breakDeadlock roots).1, later)

/-- Any number of moves. -/
abbrev Advances (registry : Registry κ ν φ) (roots : List κ) :
    Round κ ν φ × List κ → Round κ ν φ × List κ → Prop :=
  Relation.ReflTransGen (Advance registry roots)

/-- How a round for the given roots can end. It is complete when nothing was to
be done, or when nothing is ready and no deadlock is left to break; it can be
cut short anywhere else. -/
inductive Ends (registry : Registry κ ν φ) (roots : List κ) (round : Round κ ν φ) :
    Round κ ν φ → Halt → Prop
  | cached (nothing : (round.begin roots).2 = []) :
      Ends registry roots round (round.begin roots).1 .complete
  | complete {ready : List κ} {last : Round κ ν φ} (order : ready.Perm (round.begin roots).2)
      (moves : Advances registry roots ((round.begin roots).1, ready) (last, []))
      (going : last.interrupted = false) (finished : (last.breakDeadlock roots).2 = []) :
      Ends registry roots round (last.breakDeadlock roots).1 .complete
  | cut {ready left : List κ} {last : Round κ ν φ} {halt : Halt}
      (order : ready.Perm (round.begin roots).2)
      (moves : Advances registry roots ((round.begin roots).1, ready) (last, left))
      (short : halt ≠ .complete) :
      Ends registry roots round last.rollBack halt

section Drive

omit [Key κ] [BEq ν] in
theorem perm_push (stack ready : List κ) : (push stack ready).Perm (stack ++ ready) := by
  cases ready with
  | nil => simp [push]
  | cons first others =>
      refine List.Perm.trans ?_ List.perm_append_comm
      exact ((List.reverse_perm others).append_right stack).cons first

variable (registry : Registry κ ν φ) (roots : List κ)

/-- How the moves of a round may stop. -/
inductive Stops (now : Round κ ν φ × List κ) : Round κ ν φ × Halt → Prop
  | finished {after : Round κ ν φ} (nothing : now.2 = []) (going : now.1.interrupted = false)
      (unblocked : now.1.breakDeadlock roots = (after, [])) : Stops now (after, .complete)
  | short {halt : Halt} (incomplete : halt ≠ .complete) : Stops now (now.1, halt)

theorem drive_interrupted {round : Round κ ν φ} (cancelled : round.interrupted = true)
    (bound : Nat) (stack : List κ) :
    ∃ halt, drive registry roots bound stack round = (round, halt) ∧ halt ≠ .complete := by
  induction bound generalizing stack with
  | zero => exact ⟨.exhausted, rfl, by simp⟩
  | succ bound ih =>
      cases stack with
      | nil => exact ⟨.interrupted, by simp [drive, cancelled], by simp⟩
      | cons key stack =>
          obtain ⟨halt, driven, incomplete⟩ := ih stack
          exact ⟨halt, by simp [drive, cancelled, driven], incomplete⟩

/-- The stack of ready keys is one of the orders in which they may stand. -/
theorem drive_advances (bound : Nat) (stack : List κ) (round : Round κ ν φ) :
    ∃ now : Round κ ν φ × List κ, Advances registry roots (round, stack) now ∧
      Stops roots now (drive registry roots bound stack round) := by
  induction bound generalizing stack round with
  | zero => exact ⟨(round, stack), .refl, .short (by simp)⟩
  | succ bound ih =>
      cases cancelled : round.interrupted with
      | true =>
          obtain ⟨halt, driven, incomplete⟩ :=
            drive_interrupted registry roots cancelled (bound + 1) stack
          exact ⟨(round, stack), .refl, by rw [driven]; exact .short incomplete⟩
      | false =>
          cases stack with
          | cons key stack =>
              obtain ⟨now, moves, stops⟩ :=
                ih (push stack (round.step registry key).2) (round.step registry key).1
              refine ⟨now, .head (.step cancelled (.refl _) (perm_push ..)) moves, ?_⟩
              simpa [drive, cancelled] using stops
          | nil =>
              cases unblocked : round.breakDeadlock roots with
              | mk after ready =>
                  cases ready with
                  | nil =>
                      refine ⟨(round, []), .refl, ?_⟩
                      rw [drive]
                      simp only [cancelled, unblocked]
                      exact .finished rfl cancelled unblocked
                  | cons first others =>
                      obtain ⟨now, moves, stops⟩ := ih (first :: others).reverse after
                      have move : Advance registry roots (round, [])
                          ((round.breakDeadlock roots).1, (first :: others).reverse) :=
                        .unblock cancelled (by simp [unblocked])
                          (by rw [unblocked]; exact List.reverse_perm _)
                      rw [unblocked] at move
                      refine ⟨now, .head move moves, ?_⟩
                      rw [drive]
                      simp only [cancelled, unblocked]
                      exact stops

/-- A round as it is run ends in one of the possible ways. -/
theorem run_ends (registry : Registry κ ν φ) (bound : Nat) (roots : List κ)
    (round : Round κ ν φ) :
    Ends registry roots round (round.run registry bound roots).1
      (round.run registry bound roots).2 := by
  unfold run
  cases begun : round.begin roots with
  | mk opened ready =>
      cases ready with
      | nil =>
          have ends : Ends registry roots round (round.begin roots).1 .complete :=
            .cached (by rw [begun])
          rwa [begun] at ends
      | cons first others =>
          have order : (first :: others).reverse.Perm (round.begin roots).2 := by
            rw [begun]
            exact List.reverse_perm _
          obtain ⟨⟨last, left⟩, moves, stops⟩ :=
            drive_advances registry roots bound
              (first :: others).reverse opened
          have fromBegin : Advances registry roots
              ((round.begin roots).1, (first :: others).reverse) (last, left) := by
            rw [begun]
            exact moves
          simp only
          generalize drive registry roots bound (first :: others).reverse opened = ended at stops ⊢
          cases stops with
          | finished nothing going unblocked =>
              simp only at nothing unblocked going
              subst nothing
              have ends := Ends.complete order fromBegin going (by rw [unblocked])
              rwa [unblocked] at ends
          | short incomplete =>
              rename_i halt
              cases halt with
              | complete => exact absurd rfl incomplete
              | interrupted => exact .cut order fromBegin incomplete
              | exhausted => exact .cut order fromBegin incomplete

end Drive

section Order

variable {registry : Registry κ ν φ} {roots ready : List κ} {round : Round κ ν φ}

/-- What holds before and after every move. -/
structure InOrder (round : Round κ ν φ) (ready : List κ) : Prop where
  waiting : Waiting round ready
  underway : ∀ key, (round.graph.nodeAt key).Underway

omit [BEq ν] in
theorem Moved.underway {before after : Round κ ν φ} {key : κ} {effect : Effect κ ν φ}
    (moved : Moved before after key effect) (own : effect.own.Underway)
    (others : ∀ other, (before.graph.nodeAt other).Underway) (other : κ) :
    (after.graph.nodeAt other).Underway := by
  by_cases same : other = key
  · subst same
    exact own.alike moved.self
  · have alike := moved.others other same
    split at alike
    · exact (others other).taken.alike alike
    · exact (others other).alike alike

theorem Progress.underway {key : κ} {work : Work κ φ} {effect : Effect κ ν φ}
    (progress : Progress registry round key work effect)
    (found : (round.graph.nodeAt key).work = some work)
    (before : (round.graph.nodeAt key).Underway) : effect.own.Underway := by
  obtain ⟨open', checked⟩ := before work found
  cases progress with
  | await group dependencies phase recorded =>
      intro later isLater
      rw [Node.updateWork_work_of_work _ found, Option.some.injEq] at isLater
      subst isLater
      exact ⟨open', fun _ _ _ => checked group false phase⟩
  | compare group dependencies phase recorded =>
      intro later isLater
      rw [Node.updateWork_work_of_work _ found, Option.some.injEq] at isLater
      subst isLater
      exact ⟨open', fun _ _ _ => checked group true phase⟩
  | restart function attempt outcome phase handled registered run verdict =>
      intro later isLater
      rw [Node.updateWork_work_of_work _ found, Option.some.injEq] at isLater
      subst isLater
      refine ⟨open', fun group awaiting checking => ?_⟩
      simp [phase] at checking
  | _ => exact .of_free rfl

omit [BEq ν] in
theorem InOrder.begin (unique : roots.Nodup) (rested : Rested round.graph)
    (order : ready.Perm (round.begin roots).2) : InOrder (round.begin roots).1 ready := by
  have begun := round.begin_spec unique
  refine ⟨(begun.waiting rested unique).perm order.symm, fun key => ?_⟩
  have free := Node.Underway.of_free (rested key)
  rw [begun.nodes]
  split
  · exact free.taken
  · exact free

theorem InOrder.step (registry : Registry κ ν φ) (inOrder : InOrder round ready) {key : κ}
    (member : key ∈ ready) :
    InOrder (round.step registry key).1 (ready.erase key ++ (round.step registry key).2) := by
  obtain ⟨work, found, free⟩ := inOrder.waiting.exists_work member
  have underway := inOrder.underway key
  obtain ⟨effect, progress, moved⟩ := step_moved registry found free
  constructor
  case waiting =>
    refine inOrder.waiting.step registry member fun same group awaiting isWork checking => ?_
    obtain ⟨result, memo⟩ := (underway same isWork).2 group awaiting checking
    simp [memo, Memo.result?]
  case underway => exact moved.underway (progress.underway found underway) inOrder.underway

theorem InOrder.breakDeadlock (inOrder : InOrder round []) (roots : List κ) :
    InOrder (round.breakDeadlock roots).1 (round.breakDeadlock roots).2 := by
  refine ⟨inOrder.waiting.breakDeadlock roots, fun key => ?_⟩
  cases unblocked_breakDeadlock inOrder.waiting roots key with
  | failed _ _ _ alike => exact (Node.Underway.of_free rfl).alike alike
  | spared _ alike => exact (inOrder.underway key).alike alike

theorem InOrder.advance {after : Round κ ν φ} {later : List κ} (inOrder : InOrder round ready)
    (move : Advance registry roots (round, ready) (after, later)) : InOrder after later := by
  cases move with
  | step going chosen order =>
      rename_i key rest
      have member : key ∈ ready := chosen.mem_iff.mpr List.mem_cons_self
      have stepped := inOrder.step registry member
      refine ⟨stepped.waiting.perm ?_, stepped.underway⟩
      refine List.Perm.trans (List.Perm.append_right _ ?_) order.symm
      exact (chosen.erase key).trans (by rw [List.erase_cons_head])
  | unblock going blocked order =>
      have unblocked := inOrder.breakDeadlock roots
      exact ⟨unblocked.waiting.perm order.symm, unblocked.underway⟩

theorem InOrder.advances {now : Round κ ν φ × List κ} (inOrder : InOrder round ready)
    (moves : Advances registry roots (round, ready) now) : InOrder now.1 now.2 := by
  induction moves with
  | refl => exact inOrder
  | tail _ move ih => exact ih.advance move

end Order

end Round

end MemoGraph
