import MemoGraph.Proofs.Digraph.ShortestCycles
import MemoGraph.Proofs.Round.Explanations
import MemoGraph.Proofs.Round.Wakeups

namespace MemoGraph

variable {κ ν φ : Type} [Key κ]

/-- Every key on the path has recorded the next one, and the last one the first,
and each has failed in a cycle of its own. -/
structure Graph.Circular (graph : Graph κ ν φ) (path : List κ) : Prop where
  circle : Circle (fun key dependency => dependency ∈ (graph.nodeAt key).dependencies) path
  failed : ∀ key ∈ path, ∃ others, (graph.nodeAt key).result? = some (.error (.cycle key others))

theorem Graph.Circular.extend {before after : Graph κ ν φ} {path : List κ}
    (circular : before.Circular path) (extended : before.Extends after) : after.Circular path := by
  have alike : ∀ key ∈ path, (after.nodeAt key).Alike (before.nodeAt key) := by
    intro key isPassed
    obtain ⟨others, found⟩ := circular.failed key isPassed
    exact extended key (Node.isSettled_of_result? found)
  constructor
  case circle =>
    refine circular.circle.imp_of_mem fun key isPassed dependency _ needed => ?_
    rw [(alike key isPassed).dependencies]
    exact needed
  case failed =>
    intro key isPassed
    rw [(alike key isPassed).result?]
    exact circular.failed key isPassed

namespace Round

/-! The cycles that a round reports.

Only a break of deadlocks makes a key fail in a cycle, and what it reports is a
shortest circle of keys that wait for each other at the time. All of them fail
with the key, and what each waited for is recorded, so nothing that is said of
the circle changes until the round ends.
-/

variable {round before after : Round κ ν φ} {key : κ} {roots ready : List κ}

def WaitsFor (round : Round κ ν φ) (key dependency : κ) : Prop :=
  dependency ∈ round.awaited key

/-- The key waits for itself, over other keys or none. -/
def InCircle (round : Round κ ν φ) (key : κ) : Prop :=
  Relation.TransGen round.WaitsFor key key

section Break

theorem mem_broken_iff (waiting : Waiting round ready) :
    key ∈ round.broken roots ↔ round.isEvaluating key = true ∧ round.InCircle key :=
  mem_broken roots waiting

/-- A key fails with a shortest circle that it waits in, all of which fails. -/
theorem exists_shortestCircle (waiting : Waiting round ready) {failure : Failure κ φ}
    (isFailure : failure ∈ round.cycleFailuresAt roots) :
    ∃ path, failure = .cycle failure.key path ∧
      ShortestCircle round.WaitsFor failure.key path ∧ ∀ member ∈ path, member ∈ round.broken roots := by
  obtain ⟨component, listed, inComponent⟩ := List.mem_flatMap.mp isFailure
  obtain ⟨key, member, rfl⟩ := List.mem_map.mp inComponent
  obtain ⟨shortest, stays⟩ :=
    Digraph.shortestCycle_spec (closed_waits roots waiting) listed member
  exact ⟨_, rfl, shortest,
    fun other isPassed => List.mem_flatten.mpr ⟨component, listed, stays other isPassed⟩⟩

variable [BEq ν] {registry : Registry κ ν φ}

/-- Keys that fail in a circle have recorded it. -/
theorem Failed.circular (failed : Failed before (before.cycleFailuresAt roots) after)
    (sound : Sound registry before ready) {path : List κ} (circle : Circle before.WaitsFor path)
    (broken : ∀ member ∈ path, member ∈ before.broken roots) : after.graph.Circular path := by
  constructor
  case circle =>
    refine circle.imp_of_mem fun key isPassed dependency isNext waits => ?_
    exact (failed.tied sound.establishes (broken key isPassed) (broken dependency isNext) waits).2.1
  case failed =>
    intro key isPassed
    obtain ⟨others, isFailure⟩ := exists_cycleFailureAt (broken key isPassed)
    exact ⟨others, (failed.self _ isFailure).result?⟩

end Break

variable [BEq ν] {registry : Registry κ ν φ} {moves : List (Move κ ν φ)} {base : Graph κ ν φ}

/-- A key without a result in the base graph that has failed in a cycle by now did
so in a break of deadlocks, which reported a shortest circle. -/
def Reported (roots : List κ) (base : Graph κ ν φ) (moves : List (Move κ ν φ))
    (now : Round κ ν φ) : Prop :=
  ∀ key owner path, base.result? key = none →
    (now.graph.nodeAt key).result? = some (.error (.cycle owner path)) →
      owner = key ∧ now.graph.Circular path ∧ ∃ moment, Move.unblock moment ∈ moves ∧
        (moment.isEvaluating key = true ∧ moment.InCircle key) ∧
        ShortestCircle moment.WaitsFor key path ∧
        ((moment.breakDeadlock roots).1.graph.nodeAt key).result? =
          some (.error (.cycle key path))

section Reported

variable {work : Work κ φ} {effect : Effect κ ν φ}

theorem Reported.step (reported : Reported roots base moves before)
    (explained : before.graph.Explained) (sound : Sound registry before ready)
    (found : (before.graph.nodeAt key).work = some work)
    (progress : Progress registry before key work effect)
    (moved : Moved before (before.step registry key).1 key effect) :
    Reported roots base (moves ++ [.step before key]) (before.step registry key).1 := by
  intro other owner path new failed
  have extended := moved.extends found
  cases settled : (before.graph.nodeAt other).isSettled with
  | false =>
      obtain rfl := moved.eq_of_settled (Node.isSettled_of_result? failed) settled
      rw [moved.self.result?] at failed
      have accounts := progress.accounts explained found (sound.underway other)
        (sound.establishes other work found) failed
      exact absurd rfl (accounts.acyclic owner path)
  | true =>
      rw [(extended other settled).result?] at failed
      obtain ⟨isOwner, circular, moment, isMove, report⟩ := reported other owner path new failed
      exact ⟨isOwner, circular.extend extended, moment, List.mem_append_left _ isMove, report⟩

theorem Reported.unblock (reported : Reported roots base moves before)
    (sound : Sound registry before []) :
    Reported roots base (moves ++ [.unblock before]) (before.breakDeadlock roots).1 := by
  have failed := failed_breakDeadlock sound.waiting roots
  have extended := extends_breakDeadlock sound.waiting roots
  intro key owner path new found
  cases unblocked_breakDeadlock sound.waiting roots key with
  | failed circle isBroken isFailure alike =>
      obtain ⟨_, isCycle, shortest, broken⟩ := exists_shortestCircle sound.waiting isFailure
      cases isCycle
      have isResult := found
      rw [alike.result?, Node.commit_result?, Node.committed_error] at found
      cases found
      exact ⟨rfl, failed.circular sound shortest.circle broken, before,
        List.mem_append_right _ (List.mem_singleton.mpr rfl),
        (mem_broken_iff sound.waiting).mp isBroken, shortest, isResult⟩
  | spared _ alike =>
      rw [alike.result?] at found
      obtain ⟨isOwner, circular, moment, isMove, report⟩ := reported key owner path new found
      exact ⟨isOwner, circular.extend extended, moment, List.mem_append_left _ isMove, report⟩

end Reported

/-- Whatever was worked on when deadlocks were broken is not laid aside. -/
def Pursued (moves : List (Move κ ν φ)) (now : Round κ ν φ) : Prop :=
  ∀ moment, Move.unblock moment ∈ moves → ∀ key, moment.isEvaluating key = true →
    now.isIdle key = false

/-- What is known of the cycles of a round that was not cut short. -/
theorem Completes.reported {final : Round κ ν φ}
    (completes : Completes registry roots round moves final) (unique : roots.Nodup)
    (rested : Rested round.graph) (firm : round.Firm) (explained : round.graph.Explained) :
    Reported roots round.graph moves final ∧ Pursued moves final := by
  have kept := completes.invariant
    (fun moves now => (now.Firm ∧ now.graph.Explained) ∧
      Reported roots round.graph moves now ∧ Pursued moves now) ?step ?unblock unique rested ?begin
  case begin =>
    intro after ready begun
    refine ⟨⟨firm.begin begun, Explained.begin explained firm.dated begun⟩,
      fun key owner path new failed => ?_, fun _ isMove => (nomatch isMove)⟩
    rw [← Graph.result?_eq, begun.result?, new] at failed
    cases failed
  case step =>
    rintro moves before ready key work effect sound member found progress moved
      ⟨⟨firm, explained⟩, reported, pursued⟩
    refine ⟨⟨firm.step sound member found progress moved,
      Explained.step explained firm.dated sound found progress moved⟩,
      reported.step explained sound found progress moved, fun moment isMove other evaluating => ?_⟩
    have old : Move.unblock moment ∈ moves := by simpa using isMove
    exact moved.busy (progress.busy found (sound.underway key)) (pursued moment old other evaluating)
  case unblock =>
    rintro moves before sound ⟨⟨firm, explained⟩, reported, pursued⟩
    refine ⟨⟨firm.breakDeadlock sound.waiting roots,
      Explained.breakDeadlock explained firm.dated sound⟩, reported.unblock sound,
      fun moment isMove other evaluating => ?_⟩
    have busy : before.isIdle other = false := by
      rcases List.mem_append.mp isMove with old | new
      · exact pursued moment old other evaluating
      · obtain rfl := Move.unblock.inj (List.mem_singleton.mp new)
        exact not_isIdle_of_evaluating evaluating
    exact (failed_breakDeadlock sound.waiting roots).busy busy
  exact kept.2

end Round

end MemoGraph
