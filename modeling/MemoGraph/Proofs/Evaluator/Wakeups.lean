import MemoGraph.Proofs.Evaluator.Histories
import MemoGraph.Proofs.Round.Wakeups

namespace MemoGraph

namespace Round

variable {κ ν φ : Type} [Key κ] [BEq ν]

/-- How a round stands after the given moves when the keys `ready` are to be
stepped next. -/
structure Orderly (registry : Registry κ ν φ) (roots : List κ) (moves : List (Move κ ν φ))
    (round : Round κ ν φ) (ready : List κ) : Prop where
  /-- A key that is worked on is scheduled, or it waits, and not both. -/
  situation : ∀ key, round.isEvaluating key = true →
    Xor (Scheduled round ready key) (Suspended round ready key)
  /-- Nothing is scheduled twice, and nothing that is not worked on. -/
  unique : ready.Nodup
  busy : ∀ key ∈ ready, round.isEvaluating key = true
  /-- Whatever an earlier run of a scheduled key's function lacked has a result. -/
  supplied : ∀ key ∈ ready, ∀ before attempt, Move.step before key ∈ moves →
    before.ran? registry key = some attempt → ∀ dependency ∈ attempt.missing,
      round.graph.state? dependency = some .done ∨ round.graph.state? dependency = some .error
  /-- What a break of deadlocks gave a result is not scheduled any more. -/
  final : ∀ before, Move.unblock before ∈ moves → ∀ key, before.isEvaluating key = true →
    (before.breakDeadlock roots).1.isEvaluating key = false → key ∉ ready

theorem Orderly.of_sound {registry : Registry κ ν φ} {roots ready : List κ}
    {moves : List (Move κ ν φ)} {round : Round κ ν φ} (sound : Sound registry round ready)
    (retains : Retains registry moves round) (broken : Broken roots moves round) :
    Orderly registry roots moves round ready := by
  have waiting := sound.waiting
  refine ⟨fun key => waiting.scheduled_or_suspended, waiting.ready_nodup,
    fun key member => ((waiting.mem_ready key).mp member).1, ?supplied, ?final⟩
  case supplied =>
    intro key member before attempt isMove ran dependency lacked
    have settled := retains.settled waiting member isMove ran dependency lacked
    exact Graph.isSettled_iff.mp settled
  case final =>
    exact fun before isMove key taken free =>
      waiting.not_ready_of_settled (broken before isMove key taken free)

end Round

namespace Evaluator

variable {κ ν φ : Type} [Key κ] [BEq ν] {evaluator : Evaluator κ ν φ}

/-- After any history, whatever the functions do and in whatever order keys are
stepped: between two moves of an evaluation a key that is worked on either is
scheduled once and waits for nothing, or it is not scheduled and waits for some
keys of its batch, as many as it counts, and each of them lists it once. So no
key is scheduled twice, a function is only run again once everything that it
lacked has a result, and a key that failed in a cycle is not scheduled again.
The same holds after the break of deadlocks that ends the round. -/
theorem wakes_once (reachable : Reachable evaluator) (registry : Registry κ ν φ) (roots : List κ)
    {ready : List κ} {moves : List (Move κ ν φ)} {now : Round κ ν φ × List κ}
    (order : ready.Perm ((evaluator.opening roots).begin (distinct roots)).2)
    (course : Round.Course registry (distinct roots)
      (((evaluator.opening roots).begin (distinct roots)).1, ready) moves now) :
    Round.Orderly registry (distinct roots) moves now.1 now.2 ∧
      (now.2 = [] →
        Round.Orderly registry (distinct roots) (moves ++ [.unblock now.1])
          (now.1.breakDeadlock (distinct roots)).1 (now.1.breakDeadlock (distinct roots)).2) := by
  have rested := reachable.tidy.rested_opening roots
  have begun : Round.Sound registry _ ready := .begin (nodup_distinct roots) rested order
  obtain ⟨sound, retains, broken⟩ := course.retains begun
  refine ⟨.of_sound sound retains broken, fun nothing => ?_⟩
  rw [nothing] at sound
  exact .of_sound (sound.unblock (.refl _)) (retains.unblock sound) (broken.unblock sound)

/-- The first two keys ask for each other, the last one asks for itself, and the
one before it asks for it. The first key asks for that one, too. -/
def knot : Registry Nat Nat Empty where
  kindName _ := "knot"
  function? key := some fun _ =>
    match key with
    | 0 => .request [1, 2] none fun _ => .check (.finish (.value 0))
    | 1 => .request [0] none fun _ => .check (.finish (.value 1))
    | _ => .request [3] none fun _ => .check (.finish (.value key))

/-- The first key has failed in its cycle when the key that lists it fails. -/
theorem wakes_once_knot : ∃ ready moves round,
    Round.Course knot (distinct [0])
        (((({ settings := {} } : Evaluator Nat Nat Empty).opening [0]).begin (distinct [0])).1, ready)
        moves (round, []) ∧
      Round.Orderly knot (distinct [0]) moves round [] ∧
      (∃ before, Move.unblock before ∈ moves ∧ before.isEvaluating 0 = true ∧
        (before.breakDeadlock [0]).1.graph.state? 0 = some .error ∧
        (before.breakDeadlock [0]).1.isEvaluating 2 = true ∧
        (before.breakDeadlock [0]).1.waiters 2 = [0]) ∧
      round.graph.state? 2 = some .error := by
  let fresh : Evaluator Nat Nat Empty := { settings := {} }
  let opened := ((fresh.opening [0]).begin (distinct [0])).1
  have begun : Round.Course knot (distinct [0]) (opened, [0]) [] (opened, [0]) := .start
  have asked := begun.step (by decide +kernel) (.refl [0])
    (show List.Perm [1, 2] _ by decide +kernel)
  have circular := asked.step (by decide +kernel) (.refl [1, 2])
    (show List.Perm [2] _ by decide +kernel)
  have onward := circular.step (by decide +kernel) (.refl [2])
    (show List.Perm [3] _ by decide +kernel)
  have blocked := onward.step (by decide +kernel) (.refl [3])
    (show List.Perm [] _ by decide +kernel)
  have unblocked := blocked.unblock (by decide +kernel) (by decide +kernel)
    (show List.Perm [2] _ by decide +kernel)
  have failed := unblocked.step (by decide +kernel) (.refl [2])
    (show List.Perm [] _ by decide +kernel)
  have order : List.Perm [0] ((fresh.opening [0]).begin (distinct [0])).2 := by decide +kernel
  have orderly := (wakes_once ⟨{}, .refl⟩ knot [0] order failed).1
  dsimp only at orderly
  refine ⟨_, _, _, failed, orderly, ⟨_,
    List.mem_append_left _ (List.mem_append_right _ List.mem_cons_self), ?_, ?_, ?_, ?_⟩, ?_⟩
  all_goals decide +kernel

end Evaluator

end MemoGraph
