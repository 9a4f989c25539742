import MemoGraph.Proofs.Round.Courses
import MemoGraph.Proofs.Round.Invariants

namespace MemoGraph.Round

variable {κ ν φ : Type} [Key κ]

/-- The key is to be stepped: it stands once among the ready keys, and nothing
that it waits for is left. -/
def Scheduled (round : Round κ ν φ) (ready : List κ) (key : κ) : Prop :=
  ready.count key = 1 ∧ round.pending key = 0

/-- The key waits for the unfinished keys of its batch: there are some, they are
as many as it counts, and each lists it once. -/
structure Suspended (round : Round κ ν φ) (ready : List κ) (key : κ) : Prop where
  absent : key ∉ ready
  unique : (round.batch key).Nodup
  waits : 0 < round.pending key
  counted : round.pending key = (round.batch key).countP round.isEvaluating
  listed : ∀ dependency ∈ round.batch key, round.isEvaluating dependency = true →
    (round.waiters dependency).count key = 1

section Waiting

variable {round : Round κ ν φ} {ready : List κ} {key : κ}

theorem Suspended.not_scheduled (suspended : Suspended round ready key) :
    ¬ Scheduled round ready key := fun scheduled =>
  suspended.waits.ne' scheduled.2

/-- A key that is worked on is in exactly one of the two situations. -/
theorem Waiting.scheduled_or_suspended (waiting : Waiting round ready)
    (evaluating : round.isEvaluating key = true) :
    Xor (Scheduled round ready key) (Suspended round ready key) := by
  by_cases member : key ∈ ready
  · have scheduled : Scheduled round ready key :=
      ⟨List.count_eq_one_of_mem waiting.ready_nodup member, ((waiting.mem_ready key).mp member).2⟩
    exact .inl ⟨scheduled, fun suspended => suspended.not_scheduled scheduled⟩
  · have waits : round.pending key ≠ 0 := fun nothing =>
      member ((waiting.mem_ready key).mpr ⟨evaluating, nothing⟩)
    have suspended : Suspended round ready key := by
      refine ⟨member, waiting.batch_nodup key, Nat.pos_of_ne_zero waits,
        waiting.pending_eq key evaluating, fun dependency inBatch unfinished => ?_⟩
      rw [waiting.listed key dependency evaluating unfinished, if_pos inBatch]
    exact .inr ⟨suspended, suspended.not_scheduled⟩

theorem Waiting.not_ready_of_settled (waiting : Waiting round ready)
    (settled : round.isSettled key = true) : key ∉ ready := by
  intro member
  have unsettled := not_isSettled_of_evaluating ((waiting.mem_ready key).mp member).1
  rw [settled] at unsettled
  cases unsettled

end Waiting

variable [BEq ν] {registry : Registry κ ν φ} {roots ready : List κ} {round before : Round κ ν φ}
  {now : Round κ ν φ × List κ} {moves : List (Move κ ν φ)}

/-- A key that lacked something in an earlier run of its function has a result
now, or it still waits for that, or what it lacked has a result. -/
def Retains (registry : Registry κ ν φ) (moves : List (Move κ ν φ)) (now : Round κ ν φ) : Prop :=
  ∀ before key attempt, Move.step before key ∈ moves → before.ran? registry key = some attempt →
    ∀ dependency ∈ attempt.missing, now.isSettled dependency = true ∨
      now.isSettled key = true ∨ dependency ∈ now.batch key

omit [BEq ν] in
theorem isEvaluating_of_mem_batch {key dependency : κ} (inBatch : dependency ∈ round.batch key) :
    round.isEvaluating key = true := by
  by_contra free
  rw [batch_of_not_evaluating (eq_false_of_ne_true free)] at inBatch
  cases inBatch

/-- A run of a function that gives no result leaves its key waiting for whatever
it lacked. -/
theorem Progress.lacks {key : κ} {work : Work κ φ} {effect : Effect κ ν φ}
    {attempt : Attempt κ φ} (progress : Progress registry before key work effect)
    (found : (before.graph.nodeAt key).work = some work)
    (ran : effect.attempt = some attempt) :
    effect.own.isSettled = true ∨
      effect.own.work.map Work.batch = some attempt.missing := by
  cases progress with
  | finish =>
      exact .inl rfl
  | restart =>
      cases ran
      exact .inr (by rw [Node.updateWork_work, found]; rfl)
  | _ => cases ran

theorem Retains.step {key : κ} {work : Work κ φ} {effect : Effect κ ν φ}
    (retains : Retains registry moves before) (sound : Sound registry before ready)
    (member : key ∈ ready) (found : (before.graph.nodeAt key).work = some work)
    (progress : Progress registry before key work effect)
    (moved : Moved before (before.step registry key).1 key effect) :
    Retains registry (moves ++ [.step before key]) (before.step registry key).1 := by
  have extended := moved.extends found
  have stays : ∀ {other}, before.isSettled other = true →
      (before.step registry key).1.isSettled other = true :=
    fun settled => (extended _ settled).isSettled.trans settled
  intro earlier other attempt isMove ran dependency lacked
  rcases List.mem_append.mp isMove with old | new
  · rcases retains earlier other attempt old ran dependency lacked with settled | settled | inBatch
    · exact .inl (stays settled)
    · exact .inr (.inl (stays settled))
    · by_cases same : other = key
      · subst same
        exact .inl (stays (sound.waiting.batch_settled member dependency inBatch))
      · have busy := not_isIdle_of_evaluating (isEvaluating_of_mem_batch inBatch)
        have alike := moved.kept same fun _ => busy
        exact .inr (.inr ((batch_of_alike alike).symm ▸ inBatch))
  · obtain ⟨rfl, rfl⟩ := Move.step.inj (List.mem_singleton.mp new)
    rw [ran?_eq progress moved] at ran
    rcases progress.lacks found ran with settled | batch
    · exact .inr (.inl (moved.self.isSettled.trans settled))
    · refine .inr (.inr ?_)
      obtain ⟨own, isOwn, batch⟩ := Option.map_eq_some_iff.mp batch
      rw [batch_of_alike moved.self, isOwn, Option.map_some, Option.getD_some, batch]
      exact lacked

theorem Retains.unblock (retains : Retains registry moves before)
    (sound : Sound registry before []) :
    Retains registry (moves ++ [.unblock before]) (before.breakDeadlock roots).1 := by
  have extended := extends_breakDeadlock sound.waiting roots
  have stays : ∀ {other}, before.isSettled other = true →
      (before.breakDeadlock roots).1.isSettled other = true :=
    fun settled => (extended _ settled).isSettled.trans settled
  intro earlier other attempt isMove ran dependency lacked
  have old : Move.step earlier other ∈ moves := by simpa using isMove
  rcases retains earlier other attempt old ran dependency lacked with settled | settled | inBatch
  · exact .inl (stays settled)
  · exact .inr (.inl (stays settled))
  · cases unblocked_breakDeadlock sound.waiting roots other with
    | failed _ _ _ alike => exact .inr (.inl alike.isSettled)
    | spared _ alike => exact .inr (.inr ((batch_of_alike alike).symm ▸ inBatch))

/-- A key that is ready has results of all that it ever lacked. -/
theorem Retains.settled (retains : Retains registry moves round) (waiting : Waiting round ready)
    {key : κ} (member : key ∈ ready) {attempt : Attempt κ φ}
    (isMove : Move.step before key ∈ moves) (ran : before.ran? registry key = some attempt) :
    ∀ dependency ∈ attempt.missing, round.isSettled dependency = true := by
  intro dependency lacked
  rcases retains before key attempt isMove ran dependency lacked with settled | settled | inBatch
  · exact settled
  · exact absurd member (waiting.not_ready_of_settled settled)
  · exact waiting.batch_settled member dependency inBatch

/-- Whatever a break of deadlocks ended the work on has a result. -/
def Broken (roots : List κ) (moves : List (Move κ ν φ)) (now : Round κ ν φ) : Prop :=
  ∀ before, Move.unblock before ∈ moves → ∀ key, before.isEvaluating key = true →
    (before.breakDeadlock roots).1.isEvaluating key = false → now.isSettled key = true

theorem Broken.step {key : κ} {work : Work κ φ} {effect : Effect κ ν φ}
    (broken : Broken roots moves before) (found : (before.graph.nodeAt key).work = some work)
    (moved : Moved before (before.step registry key).1 key effect) :
    Broken roots (moves ++ [.step before key]) (before.step registry key).1 := by
  intro earlier isMove other taken free
  have settled := broken earlier (by simpa using isMove) other taken free
  exact (moved.extends found other settled).isSettled.trans settled

theorem Broken.unblock (broken : Broken roots moves before) (sound : Sound registry before []) :
    Broken roots (moves ++ [.unblock before]) (before.breakDeadlock roots).1 := by
  intro earlier isMove key taken free
  rcases List.mem_append.mp isMove with old | new
  · have settled := broken earlier old key taken free
    exact (extends_breakDeadlock sound.waiting roots key settled).isSettled.trans settled
  · obtain rfl := Move.unblock.inj (List.mem_singleton.mp new)
    have busy := (failed_breakDeadlock sound.waiting roots).busy (not_isIdle_of_evaluating taken)
    rw [isIdle_eq, free] at busy
    simpa using busy

theorem Course.retains (course : Course registry roots (round, ready) moves now)
    (sound : Sound registry round ready) :
    Sound registry now.1 now.2 ∧ Retains registry moves now.1 ∧ Broken roots moves now.1 :=
  course.invariant (fun moves now => Retains registry moves now ∧ Broken roots moves now)
    (fun sound member found progress moved kept =>
      ⟨kept.1.step sound member found progress moved, kept.2.step found moved⟩)
    (fun sound kept => ⟨kept.1.unblock sound, kept.2.unblock sound⟩)
    sound ⟨fun _ _ _ isMove => (nomatch isMove), fun _ isMove => (nomatch isMove)⟩

end MemoGraph.Round
