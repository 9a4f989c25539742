import MemoGraph.Proofs.Computation.Precedence
import MemoGraph.Proofs.Round.Accounts
import MemoGraph.Proofs.Round.Prospects
import MemoGraph.Proofs.Round.Restarts

namespace MemoGraph.Round

/-! What a key that waits takes over from the last run of its function.

Once everything that the run missed has a result, the key fails without another
run if a failure among what it asked for is not accepted by any handler that the
run named. Another run would have come to the same.
-/

variable {κ ν φ : Type} [Key κ] {graph : Graph κ ν φ} {key stepped dependency : κ}
  {cause : Failure κ φ} {registry : Registry κ ν φ} {work : Work κ φ} {roots ready : List κ}
  {before after round : Round κ ν φ} {effect : Effect κ ν φ} {attempt : Attempt κ φ}
  {runs : List (Attempt κ φ)}

/-- What the work on a key takes over from the runs of the key's function in the
round so far. -/
structure Resumed (round : Round κ ν φ) (key : κ) (runs : List (Attempt κ φ)) : Prop where
  untaken : round.isIdle key = true → runs = []
  untried : ∀ work, (round.graph.nodeAt key).work = some work → runs = [] →
    work.requested = .empty ∧ work.handlers = []
  tried : ∀ work, (round.graph.nodeAt key).work = some work → ∀ attempt,
    runs.getLast? = some attempt → work.phase = .computing ∧ work.requested = attempt.requested ∧
      work.handlers = attempt.handlers ∧ work.batch = attempt.missing

theorem Resumed.of_settled (settled : round.isSettled key = true) (runs : List (Attempt κ φ)) :
    Resumed round key runs := by
  have free := (Node.isSettled_iff.mp settled).1
  constructor
  case untaken =>
    intro idle
    rw [isIdle, Node.not_idle_of_settled settled] at idle
    cases idle
  all_goals
    intro work found
    rw [free] at found
    cases found

theorem Resumed.of_alike (resumed : Resumed before key runs)
    (alike : (after.graph.nodeAt key).Alike (before.graph.nodeAt key)) :
    Resumed after key runs := by
  constructor
  case untaken => exact fun idle => resumed.untaken (alike.isIdle.symm.trans idle)
  case untried =>
    intro work found none
    obtain ⟨same, isSame, _, _, requested, handlers⟩ := alike.work_some found
    rw [← requested, ← handlers]
    exact resumed.untried same isSame none
  case tried =>
    intro work found attempt isLast
    obtain ⟨same, isSame, phase, batch, requested, handlers⟩ := alike.work_some found
    rw [← phase, ← batch, ← requested, ← handlers]
    exact resumed.tried same isSame attempt isLast

theorem Resumed.of_fresh {phase : Phase}
    (alike : (after.graph.nodeAt key).Alike { before.graph.nodeAt key with work := some { phase } }) :
    Resumed after key [] := by
  constructor
  case untaken => exact fun _ => rfl
  case untried =>
    intro work found _
    obtain ⟨same, isFresh, _, _, requested, handlers⟩ := alike.work_some found
    cases isFresh
    exact ⟨requested.symm, handlers.symm⟩
  case tried => exact fun _ _ _ isLast => nomatch isLast

theorem Begun.resumed (begun : Begun before roots after ready) (rested : Rested before.graph)
    (key : κ) : Resumed after key [] := by
  refine ⟨fun _ => rfl, fun work found _ => ?_, fun _ _ _ isLast => nomatch isLast⟩
  rcases begun.work rested key with free | ⟨_, phase, fresh⟩
  · rw [free] at found
    cases found
  · rw [fresh] at found
    cases found
    exact ⟨rfl, rfl⟩

variable [BEq ν] {moves : List (Move κ ν φ)}

/-- The key that is stepped hands over what a run of its function asked for. -/
theorem Resumed.own (resumed : Resumed before key runs)
    (found : (before.graph.nodeAt key).work = some work)
    (progress : Progress registry before key work effect)
    (moved : Moved before after key effect) :
    Resumed after key (runs ++ effect.attempt.toList) := by
  have checked : ∀ {group awaiting}, work.phase = .checking group awaiting → runs = [] := by
    intro group awaiting checking
    cases isLast : runs.getLast? with
    | none => exact List.getLast?_eq_none_iff.mp isLast
    | some attempt =>
        have phase := (resumed.tried work found attempt isLast).1
        rw [checking] at phase
        cases phase
  have kept : ∀ change : Work κ φ → Work κ φ,
      effect.own = (before.graph.nodeAt key).updateWork change → runs = [] →
      (change work).requested = work.requested → (change work).handlers = work.handlers →
        Resumed after key [] := by
    intro change isOwn nothing requested handlers
    refine ⟨fun _ => rfl, fun later isWork _ => ?_, fun _ _ _ isLast => nomatch isLast⟩
    obtain ⟨own, isSame, _, _, sameRequested, sameHandlers⟩ := moved.self.work_some isWork
    rw [isOwn, Node.updateWork_work_of_work _ found, Option.some.injEq] at isSame
    rw [← sameRequested, ← sameHandlers, ← isSame, requested, handlers]
    exact resumed.untried work found nothing
  cases progress with
  | await group dependencies phase recorded =>
      rw [checked phase]
      exact kept _ rfl (checked phase) rfl rfl
  | compare group dependencies phase recorded =>
      rw [checked phase]
      exact kept _ rfl (checked phase) rfl rfl
  | revalidate group awaiting phase finished =>
      rw [checked phase]
      refine ⟨fun _ => rfl, fun later isWork _ => ?_, fun _ _ _ isLast => nomatch isLast⟩
      obtain ⟨own, isSame, _⟩ := moved.self.work_some isWork
      cases isSame
  | restart function attempt outcome phase handled registered run verdict =>
      constructor
      case untaken =>
        intro idle
        have taken : (after.graph.nodeAt key).work.isSome = true :=
          moved.self.work_isSome.trans (by simp [found])
        rw [isIdle, Node.not_idle_of_work taken] at idle
        cases idle
      case untried => exact fun _ _ none => by simp at none
      case tried =>
        intro later isWork last isLast
        obtain ⟨own, isSame, samePhase, batch, requested, handlers⟩ := moved.self.work_some isWork
        rw [Node.updateWork_work_of_work _ found, Option.some.injEq] at isSame
        subst isSame
        have same : attempt = last := by simpa using isLast
        subst same
        exact ⟨samePhase.symm.trans phase, requested.symm, handlers.symm, batch.symm⟩
  | fail | refuse | finish => exact .of_settled (moved.self.isSettled.trans rfl) _

theorem Resumed.step (resumed : Resumed before key (runsOf registry key moves))
    (found : (before.graph.nodeAt stepped).work = some work)
    (progress : Progress registry before stepped work effect)
    (moved : Moved before (before.step registry stepped).1 stepped effect) :
    Resumed (before.step registry stepped).1 key
      (runsOf registry key (moves ++ [.step before stepped])) := by
  rw [runsOf_step]
  by_cases same : stepped = key
  · subst same
    rw [if_pos rfl, ran?_eq progress moved]
    exact resumed.own found progress moved
  · rw [if_neg same, List.append_nil]
    rcases moved.other (Ne.symm same) with alike | ⟨_, idle, phase, _, alike⟩
    · exact resumed.of_alike alike
    · rw [resumed.untaken idle]
      exact .of_fresh alike

theorem Resumed.unblock (resumed : Resumed before key (runsOf registry key moves))
    (waiting : Waiting before []) :
    Resumed (before.breakDeadlock roots).1 key
      (runsOf registry key (moves ++ [.unblock before])) := by
  rw [runsOf_unblock]
  cases unblocked_breakDeadlock waiting roots key with
  | failed _ _ _ alike => exact .of_settled alike.isSettled _
  | spared _ alike => exact resumed.of_alike alike

theorem Course.resumed {now : Round κ ν φ × List κ} (unique : roots.Nodup)
    (rested : Rested round.graph) (order : ready.Perm (round.begin roots).2)
    (course : Course registry roots ((round.begin roots).1, ready) moves now) (key : κ) :
    Sound registry now.1 now.2 ∧ Resumed now.1 key (runsOf registry key moves) :=
  course.invariant (fun moves now => Resumed now key (runsOf registry key moves))
    (fun _ _ found progress moved resumed => resumed.step found progress moved)
    (fun sound resumed => resumed.unblock sound.waiting)
    (.begin unique rested order) ((round.begin_spec unique).resumed rested key)

section Last

variable {function : Nat → Computation κ ν φ} (sound : Sound registry round ready)
  (resumed : Resumed round key runs) (evaluating : round.isEvaluating key = true)
  (last : runs.getLast? = some attempt)
  (supplied : ∀ missing ∈ attempt.missing, round.isSettled missing = true)
include sound resumed evaluating last supplied

omit [BEq ν] in
/-- A key whose last run misses nothing any more is ready, and its work is what
that run left. -/
theorem Resumed.mem_ready : key ∈ ready ∧ ∃ work, (round.graph.nodeAt key).work = some work ∧
    work.phase = .computing ∧ work.requested = attempt.requested ∧
    work.handlers = attempt.handlers ∧ work.batch = attempt.missing := by
  obtain ⟨work, found⟩ := exists_work evaluating
  have carried := resumed.tried work found attempt last
  refine ⟨(sound.waiting.mem_ready key).mpr ⟨evaluating, ?_⟩, work, found, carried⟩
  rw [sound.waiting.pending_eq key evaluating, List.countP_eq_zero]
  intro missing inBatch unfinished
  have lacked : missing ∈ attempt.missing := by
    rw [← carried.2.2.2]
    simpa [batch, found] using inBatch
  have unsettled := not_isSettled_of_evaluating unfinished
  rw [supplied missing lacked] at unsettled
  cases unsettled

variable (unhandled : firstUnhandled? round.graph attempt.requested attempt.handlers =
  some (dependency, cause))
include unhandled

/-- If a failure that it asked for is not accepted, its step is to fail for it. -/
theorem Resumed.fails : round.step registry key =
    round.commit key (.error (.dependency key dependency cause)) attempt.requested [] := by
  obtain ⟨member, work, found, phase, requested, handlers, _⟩ :=
    resumed.mem_ready sound evaluating last supplied
  have free : work.pending = 0 := by
    have nothing := ((sound.waiting.mem_ready key).mp member).2
    simpa [pending, found] using nothing
  rw [step_of_computing found free phase, compute, requested, handlers, unhandled]

omit [BEq ν] in
/-- And that is what another run of a strict function would come to. -/
theorem Resumed.agrees (registered : registry.function? key = some function)
    (steady : Computation.Steady function) (run : Nat) :
    (Attempt.run round.graph.result? key (function run) {}).1.verdict round.graph key
        (Attempt.run round.graph.result? key (function run) {}).2 =
      .commit (.error (.dependency key dependency cause)) attempt.requested [] := by
  obtain ⟨_, work, found, phase, requested, handlers, batch⟩ :=
    resumed.mem_ready sound evaluating last supplied
  rw [← requested, ← handlers] at unhandled
  rcases (sound.establishes key work found).tried phase with ⟨nothing, _⟩ | tried
  · rw [nothing] at unhandled
    cases unhandled
  · have present : ∀ missing ∈ work.batch, round.graph.lacks missing = false := by
      intro missing inBatch
      have settled : (round.graph.nodeAt missing).isSettled = true :=
        supplied missing (batch ▸ inBatch)
      rw [Graph.lacks_eq, settled]
      rfl
    rw [Graph.verdict_of_tried tried registered steady present unhandled run, requested]

end Last

/-- Whenever a key that is computed fails for a dependency, the last run of its
function says which one. -/
theorem Resumed.blames (resumed : Resumed before key (runsOf registry key moves))
    (found : (before.graph.nodeAt key).work = some work) (phase : work.phase = .computing)
    (progress : Progress registry before key work effect)
    (moved : Moved before (before.step registry key).1 key effect)
    (failed : (before.step registry key).1.graph.result? key =
      some (.error (.dependency key dependency cause))) :
    ∃ attempt, (runsOf registry key (moves ++ [.step before key])).getLast? = some attempt ∧
      ((before.step registry key).1.graph.nodeAt key).dependencies = attempt.requested ∧
      attempt.Precedes before.graph.result? dependency cause ∧
      (before.ran? registry key = none →
        attempt.Foremost before.graph.result? dependency cause) := by
  have taken : (before.graph.nodeAt key).work.isSome = true := by simp [found]
  rw [runsOf_step, if_pos rfl, ran?_eq progress moved, moved.self.dependencies]
  rw [Graph.result?_eq, moved.self.result?] at failed
  cases progress with
  | await _ _ checking | compare _ _ checking | revalidate _ _ checking =>
      rw [phase] at checking
      cases checking
  | restart =>
      rw [Node.updateWork_result?, Node.result?_of_work taken] at failed
      cases failed
  | refuse => cases failed
  | fail blamed failure _ unhandled =>
      cases failed
      cases isLast : (runsOf registry key moves).getLast? with
      | none =>
          have untried := resumed.untried work found (List.getLast?_eq_none_iff.mp isLast)
          exact absurd untried.1 (requested_ne_empty unhandled)
      | some attempt =>
          obtain ⟨_, requested, handlers, _⟩ := resumed.tried work found attempt isLast
          rw [requested, handlers] at unhandled
          have foremost := firstUnhandled?_eq_some_iff.mp unhandled
          refine ⟨attempt, ?_, requested, .foremost foremost, fun _ => foremost⟩
          simpa using isLast
  | finish function attempt outcome result dependencies events _ handled registered run verdict =>
      rw [Node.commit_result?, Option.some.injEq] at failed
      rw [Node.eq_error_of_committed failed] at verdict
      obtain ⟨_, requested, _, precedes⟩ := precedes_of_verdict verdict
      exact ⟨attempt, List.getLast?_concat, requested, precedes, fun quiet => nomatch quiet⟩

end MemoGraph.Round
