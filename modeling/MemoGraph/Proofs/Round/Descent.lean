import Mathlib.Algebra.Order.BigOperators.Group.List
import Mathlib.Algebra.Order.Ring.Nat
import MemoGraph.Proofs.Counting
import MemoGraph.Proofs.Round.Phases

namespace MemoGraph.Round

/-! A round comes to an end if it only ever takes up some of finitely many keys.

Every step of a key gives some key a result, or leaves the key with less to do
before that.
-/

variable {κ ν φ : Type} [Key κ] {round before after : Round κ ν φ} {key : κ}

/-- How many steps a key can take at most in the phase and later ones, before
something gets a result. -/
def effortIn (round : Round κ ν φ) (key : κ) : Phase → Nat
  | .checking group awaiting =>
      2 * ((round.graph.nodeAt key).dependencies.groupCount - group) + if awaiting then 2 else 3
  | .computing => if (round.awaited key).isEmpty then 1 else 0

/-- How many steps a key can take at most before something gets a result. -/
def effort (round : Round κ ν φ) (key : κ) : Nat :=
  match (round.graph.nodeAt key).work with
  | some work => round.effortIn key work.phase
  | none =>
      if round.isSettled key then 0
      else 2 * (round.graph.nodeAt key).dependencies.groupCount + 4

/-- How many of the keys have no result, and how many steps they can take at most
before one more of them has. -/
def measure (round : Round κ ν φ) (keys : List κ) : Nat × Nat :=
  (keys.countP fun key => !round.isSettled key, (keys.map round.effort).sum)

theorem effort_of_work {work : Work κ φ} (found : (round.graph.nodeAt key).work = some work) :
    round.effort key = round.effortIn key work.phase := by
  unfold effort
  rw [found]

theorem effort_of_free (free : (round.graph.nodeAt key).work = none) :
    round.effort key = if round.isSettled key then 0
      else 2 * (round.graph.nodeAt key).dependencies.groupCount + 4 := by
  unfold effort
  rw [free]

variable [BEq ν] {registry : Registry κ ν φ} {roots ready : List κ} {work : Work κ φ}
  {effect : Effect κ ν φ}

section Quiet

variable (progress : Progress registry before key work effect)
  (found : (before.graph.nodeAt key).work = some work)
  (underway : (before.graph.nodeAt key).Underway) (moved : Moved before after key effect)
  (unsettled : effect.own.isSettled = false)
include progress found underway moved unsettled

/-- A step without a result leaves the others without results as well. -/
theorem Progress.isSettled_of_unsettled (other : κ) :
    after.isSettled other = before.isSettled other := by
  by_cases same : other = key
  · subst same
    have wasUnsettled : before.isSettled other = false :=
      Node.not_settled_of_work (by simp [found])
    rw [wasUnsettled]
    exact moved.self.isSettled.trans unsettled
  · exact (moved.other_bare same).2.1

theorem Progress.evaluating_of_unsettled {other : κ}
    (taken : before.isEvaluating other = true ∨
      (other ∈ effect.asked ∧ before.isSettled other = false)) :
    after.isEvaluating other = true := by
  have busy := progress.busy found underway
  have stays := progress.isSettled_of_unsettled found underway moved unsettled other
  rw [isEvaluating_eq_busy, stays]
  rcases taken with evaluating | ⟨asked, lacks⟩
  · rw [moved.busy busy (not_isIdle_of_evaluating evaluating),
      not_isSettled_of_evaluating evaluating]
    rfl
  · rw [moved.busy_of_asked busy asked, lacks]
    rfl

/-- Then the other keys have no more to do than before. -/
theorem Progress.effort_le {other : κ} (different : other ≠ key) :
    after.effort other ≤ before.effort other := by
  have stays := progress.isSettled_of_unsettled found underway moved unsettled other
  rcases moved.other different with alike | ⟨_, idle, phase, first, alike⟩
  · cases isWork : (before.graph.nodeAt other).work with
    | none =>
        rw [effort_of_free isWork, effort_of_free (alike.work_none.mpr isWork), stays,
          alike.dependencies]
    | some work =>
        obtain ⟨same, isSame, samePhase, _⟩ := alike.symm.work_some isWork
        rw [effort_of_work isWork, effort_of_work isSame, samePhase]
        cases work.phase with
        | checking group awaiting =>
            unfold effortIn
            rw [alike.dependencies]
        | computing =>
            show (if (after.awaited other).isEmpty then 1 else 0) ≤
              if (before.awaited other).isEmpty then 1 else 0
            split
            · rename_i nothing
              have waitsForNothing : before.awaited other = [] := by
                refine List.eq_nil_iff_forall_not_mem.mpr fun missing edge => ?_
                obtain ⟨inBatch, evaluating⟩ := mem_awaited.mp edge
                have still : missing ∈ after.awaited other := mem_awaited.mpr
                  ⟨(batch_of_alike alike).symm ▸ inBatch, progress.evaluating_of_unsettled found
                    underway moved unsettled (.inl evaluating)⟩
                rw [List.isEmpty_iff.mp nothing] at still
                cases still
              simp [waitsForNothing]
            · exact Nat.zero_le _
  · -- A key that is taken up starts with no more to do than it was counted for while idle.
    obtain ⟨free, nothing⟩ := Node.isIdle_iff.mp idle
    obtain ⟨same, isSame, samePhase, _⟩ := alike.symm.work_some rfl
    have lacks : before.isSettled other = false := by
      unfold isSettled Node.isSettled
      rw [nothing]
      rfl
    rw [effort_of_work isSame, effort_of_free free, lacks, if_neg Bool.false_ne_true, samePhase]
    unfold effortIn
    rw [alike.dependencies]
    have start : phase = .checking 0 false ∨ phase = .computing := by
      cases memo : (before.graph.nodeAt other).memo <;> rw [memo] at first <;> cases first <;> simp
    rcases start with rfl | rfl
    · simp
    · simp only
      split <;> omega

/-- And the key itself has less to do. -/
theorem Progress.effort_lt (waiting : Waiting before ready) (member : key ∈ ready) :
    after.effort key < before.effort key := by
  have dependencies : (after.graph.nodeAt key).dependencies =
      (before.graph.nodeAt key).dependencies := by
    have same := congrArg Node.dependencies (progress.unsettled found underway unsettled).1
    exact moved.self.dependencies.trans same
  have later : ∀ {work : Work κ φ}, effect.own.work = some work →
      after.effort key = after.effortIn key work.phase := by
    intro work isWork
    obtain ⟨same, isSame, phase, _⟩ := moved.self.symm.work_some isWork
    rw [effort_of_work isSame, phase]
  have computing : before.effortIn key .computing = 1 := by
    have waitsForNothing : before.awaited key = [] := by
      refine List.eq_nil_iff_forall_not_mem.mpr fun missing edge => ?_
      obtain ⟨inBatch, evaluating⟩ := mem_awaited.mp edge
      have settled := waiting.batch_settled member missing inBatch
      rw [not_isSettled_of_evaluating evaluating] at settled
      cases settled
    unfold effortIn
    rw [waitsForNothing]
    rfl
  rw [effort_of_work found]
  cases progress with
  | await group members phase isGroup =>
      rw [later (Node.updateWork_work_of_work _ found), phase]
      unfold effortIn
      rw [dependencies]
      simp
  | compare group members phase isGroup =>
      have room : group < (before.graph.nodeAt key).dependencies.groupCount := by
        obtain ⟨stop, isStop, _⟩ := Option.map_eq_some_iff.mp isGroup
        exact (List.getElem?_eq_some_iff.mp isStop).1
      rw [later (Node.updateWork_work_of_work _ found), phase]
      by_cases changed : members.any (before.changedSince
        (before.graph.nodeAt key).lastEvaluated) = true
      · simp only [changed, if_true]
        unfold effortIn
        simp only [if_true]
        split <;> omega
      · simp only [changed, Bool.false_eq_true, if_false]
        unfold effortIn
        rw [dependencies]
        simp only [Bool.false_eq_true, if_false, if_true]
        omega
  | restart function attempt outcome phase handled registered run verdict =>
      rw [later (Node.updateWork_work_of_work _ found), phase, computing]
      obtain ⟨missing, isMissing⟩ := List.exists_mem_of_ne_nil _ (verdict_restart verdict)
      have faithful := Attempt.faithful_of_run run
      have lacks := ((faithful.mem_missing missing).mp isMissing).2
      have evaluating : after.isEvaluating missing = true := by
        refine evaluating_of_unsettled (.restart function attempt outcome phase handled registered
          run verdict) found underway moved unsettled (.inr ⟨isMissing, ?_⟩)
        rw [Graph.result?_eq] at lacks
        unfold isSettled Node.isSettled
        rw [lacks]
        rfl
      have edge : missing ∈ after.awaited key := by
        refine mem_awaited.mpr ⟨?_, evaluating⟩
        rw [batch_of_alike moved.self, Node.updateWork_work, found]
        exact isMissing
      show (if (after.awaited key).isEmpty then 1 else 0) < 1
      rw [if_neg]
      · exact Nat.one_pos
      · rw [List.isEmpty_iff]
        exact List.ne_nil_of_mem edge
  | revalidate group awaiting phase finished =>
      obtain ⟨result, memo⟩ := (underway work found).2 group awaiting phase
      simp [Node.isSettled, Node.result?, Node.revalidate, memo, Memo.result?] at unsettled
  | _ => cases unsettled

end Quiet

/-- Every step of one of the keys leads closer to the end. -/
theorem Progress.descends (progress : Progress registry before key work effect)
    (found : (before.graph.nodeAt key).work = some work)
    (underway : (before.graph.nodeAt key).Underway) (moved : Moved before after key effect)
    (waiting : Waiting before ready) (member : key ∈ ready) {keys : List κ} (inside : key ∈ keys) :
    Prod.Lex (· < ·) (· < ·) (after.measure keys) (before.measure keys) := by
  have wasUnsettled : before.isSettled key = false := Node.not_settled_of_work (by simp [found])
  cases settled : effect.own.isSettled with
  | true =>
      have isSettled : after.isSettled key = true := moved.self.isSettled.trans settled
      refine .left _ _ (countP_lt_countP (fun other _ unsettled => ?_) inside ?_ ?_)
      · by_cases same : other = key
        · rw [same, wasUnsettled]
          rfl
        · rw [← (moved.other_bare same).2.1]
          exact unsettled
      · rw [wasUnsettled]
        rfl
      · rw [isSettled]
        rfl
  | false =>
      have same : (fun other => !after.isSettled other) = fun other => !before.isSettled other := by
        funext other
        rw [progress.isSettled_of_unsettled found underway moved settled]
      unfold measure
      rw [same]
      refine .right _ (List.sum_lt_sum _ _ (fun other _ => ?_) ⟨key, inside, ?_⟩)
      · by_cases same : other = key
        · rw [same]
          exact Nat.le_of_lt (progress.effort_lt found underway moved settled waiting member)
        · exact progress.effort_le found underway moved settled same
      · exact progress.effort_lt found underway moved settled waiting member

end MemoGraph.Round
