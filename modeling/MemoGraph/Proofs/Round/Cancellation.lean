import MemoGraph.Proofs.Round.Commits
import MemoGraph.Proofs.Round.Stories

namespace MemoGraph

theorem Node.rollBack_of_free {κ ν φ : Type} {node : Node κ ν φ} (free : node.work = none) :
    node.rollBack = node := by
  obtain ⟨_, _, _, _, _, _, _⟩ := node
  cases free
  rfl

theorem Node.rollBack_taken {κ ν φ : Type} {node : Node κ ν φ} (free : node.work = none) :
    node.taken.rollBack = node := by
  cases idle : node.isIdle with
  | false => rw [taken_of_not_idle idle, rollBack_of_free free]
  | true =>
      obtain ⟨phase, _, taken⟩ := taken_of_idle idle
      rw [taken]
      exact rollBack_of_free free

namespace Round

variable {κ ν φ : Type} [Key κ] {round before after final : Round κ ν φ} {roots ready : List κ}
  {halt : Halt}

/-- The roots have nodes now, and nothing else is different. The observer was
told of each root whether it was taken up. -/
structure Opened (before : Round κ ν φ) (roots : List κ) (after : Round κ ν φ) : Prop where
  nodes : ∀ key, after.graph.nodeAt key = before.graph.nodeAt key
  keys : ∀ key, key ∈ after.graph.keys ↔ key ∈ roots ∨ key ∈ before.graph.keys
  context : SameContext before after
  log : after.log.toList = before.log.toList ++
    roots.map fun root => if before.isIdle root then .start root else .finish root .cacheHit

section Opened

variable (unique : roots.Nodup)
include unique

theorem opened_of_cached (cached : (round.begin roots).2 = []) :
    Opened round roots (round.begin roots).1 := by
  have begun := round.begin_spec unique
  refine ⟨fun key => ?_, begun.keys, begun.context, round.log_begin unique⟩
  rw [begun.nodes]
  split
  · rename_i isRoot
    rw [begun.ready, List.filter_eq_nil_iff] at cached
    exact Node.taken_of_not_idle (eq_false_of_ne_true (cached key isRoot))
  · rfl

theorem opened_of_rollBack (rested : Rested round.graph) :
    Opened round roots (round.begin roots).1.rollBack := by
  have begun := round.begin_spec unique
  refine ⟨fun key => ?_, fun key => mem_keys_rollBack.trans (begun.keys key),
    begun.context.trans ⟨rfl, rfl, rfl, rfl⟩, round.log_begin unique⟩
  rw [nodeAt_rollBack_of_waiting (begun.waiting rested unique), begun.nodes]
  split
  · exact Node.rollBack_taken (rested key)
  · exact Node.rollBack_of_free (rested key)

end Opened

variable [BEq ν] {registry : Registry κ ν φ}

theorem Advances.eq_of_interrupted {now : Round κ ν φ × List κ}
    (moves : Advances registry roots (round, ready) now) (cancelled : round.interrupted = true) :
    now = (round, ready) := by
  cases moves.cases_head with
  | inl same => exact same.symm
  | inr more =>
      obtain ⟨_, move, _⟩ := more
      cases move with
      | step going | unblock going =>
          rw [cancelled] at going
          cases going

/-- A round that is cancelled before it begins is complete only if nothing was to
be done, and leaves no trace either way. -/
theorem Ends.of_interrupted (ends : Ends registry roots round final halt) (unique : roots.Nodup)
    (rested : Rested round.graph) (cancelled : round.interrupted = true) :
    Opened round roots final ∧ (halt = .complete → (round.begin roots).2 = []) := by
  have begun : (round.begin roots).1.interrupted = true :=
    (round.begin_spec unique).context.interrupted.trans cancelled
  cases ends with
  | cached nothing => exact ⟨opened_of_cached unique nothing, fun _ => nothing⟩
  | complete order moves going finished =>
      cases moves.eq_of_interrupted begun
      rw [begun] at going
      cases going
  | cut order moves short =>
      cases moves.eq_of_interrupted begun
      exact ⟨opened_of_rollBack unique rested, fun complete => absurd complete short⟩

theorem Ends.going (ends : Ends registry roots round final .complete) (unique : roots.Nodup)
    (rested : Rested round.graph) (going : round.interrupted = false) :
    final.interrupted = false := by
  cases ends with
  | cached nothing => exact (round.begin_spec unique).context.interrupted.trans going
  | complete order moves stillGoing finished =>
      have inOrder := (InOrder.begin unique rested order).advances moves
      exact (failed_breakDeadlock inOrder.waiting roots).interrupted.trans stillGoing
  | cut _ _ short => exact absurd rfl short

/-- With a step for each ready key and one more, a cancelled round gets to the
end of its stack. -/
theorem drive_of_interrupted (cancelled : round.interrupted = true) {bound : Nat}
    (enough : ready.length < bound) :
    drive registry roots bound ready round = (round, .interrupted) := by
  induction ready generalizing bound with
  | nil =>
      obtain ⟨bound, rfl⟩ := Nat.exists_eq_succ_of_ne_zero (Nat.ne_of_gt enough)
      simp [drive, cancelled]
  | cons key rest ih =>
      rw [List.length_cons] at enough
      obtain ⟨bound, rfl⟩ := Nat.exists_eq_succ_of_ne_zero (Nat.ne_of_gt (by omega : 0 < bound))
      simp only [drive, cancelled, if_true]
      exact ih (by omega)

theorem interrupted_of_drive {bound : Nat} {stack : List κ}
    (stopped : (drive registry roots bound stack round).2 = .interrupted) :
    (drive registry roots bound stack round).1.interrupted = true := by
  fun_induction drive registry roots bound stack round with
  | case1 => cases stopped
  | case2 _ _ _ _ _ ih => exact ih stopped
  | case3 _ _ _ _ _ _ _ _ ih => exact ih stopped
  | case4 _ _ cancelled => exact cancelled
  | case5 => cases stopped
  | case6 _ _ _ _ _ _ _ ih => exact ih stopped

/-- A round that is cancelled on the way was cancelled by a function that one of
its steps ran. -/
theorem InOrder.exists_interrupting {now : Round κ ν φ × List κ} (inOrder : InOrder round ready)
    (moves : Advances registry roots (round, ready) now) (going : round.interrupted = false)
    (cancelled : now.1.interrupted = true) :
    ∃ moment left key attempt, Advances registry roots (round, ready) (moment, left) ∧
      key ∈ left ∧ moment.ran? registry key = some attempt ∧ attempt.interrupts = true := by
  induction moves with
  | refl =>
      rw [going] at cancelled
      cases cancelled
  | tail earlier move ih =>
      have order := inOrder.advances earlier
      cases move with
      | step stillGoing chosen _ =>
          have member := chosen.mem_iff.mpr List.mem_cons_self
          obtain ⟨work, effect, found, _, progress, moved⟩ := order.moved member registry
          rw [moved.interrupted, stillGoing, Bool.false_or, Option.any_eq_true] at cancelled
          obtain ⟨attempt, ran, interrupts⟩ := cancelled
          exact ⟨_, _, _, attempt, earlier, member, (ran?_eq progress moved).trans ran, interrupts⟩
      | unblock stillGoing =>
          have kept := (failed_breakDeadlock order.waiting roots).interrupted
          rw [kept, stillGoing] at cancelled
          cases cancelled

theorem drive_of_run {bound : Nat} (stopped : (round.run registry bound roots).2 = .interrupted) :
    (drive registry roots bound (round.begin roots).2.reverse (round.begin roots).1).2 =
      .interrupted := by
  unfold run at stopped
  generalize round.begin roots = opening at stopped ⊢
  obtain ⟨begun, ready⟩ := opening
  cases ready with
  | nil => cases stopped
  | cons first others =>
      simp only at stopped ⊢
      generalize drive registry roots bound (first :: others).reverse begun = ended at stopped ⊢
      obtain ⟨last, halt⟩ := ended
      cases halt with
      | interrupted => rfl
      | complete | exhausted => cases stopped

theorem exists_interrupting_of_run {bound : Nat} (unique : roots.Nodup)
    (rested : Rested round.graph) (going : round.interrupted = false)
    (stopped : (round.run registry bound roots).2 = .interrupted) :
    ∃ start moment left key attempt, start.Perm (round.begin roots).2 ∧
      Advances registry roots ((round.begin roots).1, start) (moment, left) ∧
      key ∈ left ∧ moment.ran? registry key = some attempt ∧ attempt.interrupts = true := by
  have opened : (round.begin roots).1.interrupted = false :=
    (round.begin_spec unique).context.interrupted.trans going
  have order : (round.begin roots).2.reverse.Perm (round.begin roots).2 := List.reverse_perm _
  have inOrder := InOrder.begin unique rested order
  obtain ⟨now, moves, stops⟩ :=
    drive_advances registry roots bound (round.begin roots).2.reverse (round.begin roots).1
  have driven := drive_of_run stopped
  have cancelled := interrupted_of_drive driven
  generalize drive registry roots bound (round.begin roots).2.reverse (round.begin roots).1 =
    ended at stops driven cancelled
  cases stops with
  | finished => cases driven
  | short =>
      obtain ⟨moment, left, key, attempt, there⟩ :=
        inOrder.exists_interrupting moves opened cancelled
      exact ⟨_, moment, left, key, attempt, order, there⟩

/-- A round that is cancelled before it begins ends cancelled if there is anything
to be done, and has the steps for that. -/
theorem run_of_interrupted {bound : Nat} (unique : roots.Nodup)
    (cancelled : round.interrupted = true) (enough : roots.length < bound)
    (busy : (round.begin roots).2 ≠ []) : (round.run registry bound roots).2 = .interrupted := by
  have begun := round.begin_spec unique
  have few : (round.begin roots).2.reverse.length < bound := by
    rw [List.length_reverse, begun.ready]
    exact Nat.lt_of_le_of_lt (List.length_filter_le _ _) enough
  have driven : drive registry roots bound (round.begin roots).2.reverse (round.begin roots).1 =
      ((round.begin roots).1, .interrupted) :=
    drive_of_interrupted (begun.context.interrupted.trans cancelled) few
  unfold run
  generalize round.begin roots = opening at busy driven
  obtain ⟨opened, ready⟩ := opening
  cases ready with
  | nil => exact absurd rfl busy
  | cons first others =>
      simp only at driven ⊢
      rw [driven]

theorem run_of_cached {bound : Nat} (cached : (round.begin roots).2 = []) :
    round.run registry bound roots = ((round.begin roots).1, .complete) := by
  unfold run
  generalize round.begin roots = opening at cached
  obtain ⟨opened, ready⟩ := opening
  cases cached
  rfl

end Round

end MemoGraph
