import Mathlib.Logic.Function.Basic
import MemoGraph.Proofs.Round.Grounds

namespace MemoGraph

/-- For every key what the last run of its function was told: the keys that it
asked for and that had results, each with its result. No state of the engine
holds this. -/
abbrev Sights (κ ν φ : Type) := κ → List (κ × Result κ ν φ)

/-- What a run against the given results was told. -/
def Attempt.told {κ ν φ : Type} (results : κ → Option (Result κ ν φ)) (attempt : Attempt κ φ) :
    List (κ × Result κ ν φ) :=
  attempt.requested.keys.filterMap fun key => (results key).map (key, ·)

theorem Attempt.mem_told {κ ν φ : Type} {results : κ → Option (Result κ ν φ)}
    {attempt : Attempt κ φ} {key : κ} {result : Result κ ν φ} :
    (key, result) ∈ attempt.told results ↔
      key ∈ attempt.requested ∧ results key = some result := by
  unfold told
  rw [List.mem_filterMap]
  constructor
  · rintro ⟨other, requested, seen⟩
    obtain ⟨same, isSeen, pair⟩ := Option.map_eq_some_iff.mp seen
    cases pair
    exact ⟨requested, isSeen⟩
  · rintro ⟨requested, isSeen⟩
    exact ⟨key, requested, by rw [isSeen]; rfl⟩

namespace Round

variable {κ ν φ : Type} [Key κ] [BEq ν]

/-- What is noted of a step: a run of the function replaces what is known of the
one before. -/
def sees (registry : Registry κ ν φ) (round : Round κ ν φ) (key : κ) (sights : Sights κ ν φ) :
    Sights κ ν φ :=
  if (round.step registry key).1.runs = round.runs then sights
  else Function.update sights key
    (((registry.function? key).map fun function =>
      (Attempt.run round.graph.result? key (function round.runs) {}).1.told
        round.graph.result?).getD [])

/-- The moves of a round with what is noted of them. -/
inductive Watched (registry : Registry κ ν φ) (roots : List κ) (start : Round κ ν φ × List κ)
    (sights : Sights κ ν φ) : Round κ ν φ × List κ → Sights κ ν φ → Prop
  | refl : Watched registry roots start sights start sights
  | step {round : Round κ ν φ} {key : κ} {ready rest later : List κ} {seen : Sights κ ν φ}
      (watched : Watched registry roots start sights (round, ready) seen)
      (going : round.interrupted = false) (chosen : ready.Perm (key :: rest))
      (order : later.Perm (rest ++ (round.step registry key).2)) :
      Watched registry roots start sights ((round.step registry key).1, later)
        (round.sees registry key seen)
  | unblock {round : Round κ ν φ} {later : List κ} {seen : Sights κ ν φ}
      (watched : Watched registry roots start sights (round, []) seen)
      (going : round.interrupted = false) (blocked : (round.breakDeadlock roots).2 ≠ [])
      (order : later.Perm (round.breakDeadlock roots).2) :
      Watched registry roots start sights ((round.breakDeadlock roots).1, later) seen

/-- How a round can end, with what was noted of it. -/
inductive Shows (registry : Registry κ ν φ) (roots : List κ) (round : Round κ ν φ)
    (sights : Sights κ ν φ) : Round κ ν φ → Halt → Sights κ ν φ → Prop
  | cached (nothing : (round.begin roots).2 = []) :
      Shows registry roots round sights (round.begin roots).1 .complete sights
  | complete {ready : List κ} {last : Round κ ν φ} {seen : Sights κ ν φ}
      (order : ready.Perm (round.begin roots).2)
      (watched : Watched registry roots ((round.begin roots).1, ready) sights (last, []) seen)
      (going : last.interrupted = false) (finished : (last.breakDeadlock roots).2 = []) :
      Shows registry roots round sights (last.breakDeadlock roots).1 .complete seen
  | cut {ready left : List κ} {last : Round κ ν φ} {seen : Sights κ ν φ} {halt : Halt}
      (order : ready.Perm (round.begin roots).2)
      (watched : Watched registry roots ((round.begin roots).1, ready) sights (last, left) seen)
      (short : halt ≠ .complete) :
      Shows registry roots round sights last.rollBack halt seen

section Erase

variable {registry : Registry κ ν φ} {roots : List κ} {round final : Round κ ν φ}
  {start now : Round κ ν φ × List κ} {sights seen : Sights κ ν φ} {halt : Halt}

theorem Watched.advances (watched : Watched registry roots start sights now seen) :
    Advances registry roots start now := by
  induction watched with
  | refl => exact .refl
  | step _ going chosen order ih => exact ih.tail (.step going chosen order)
  | unblock _ going blocked order ih => exact ih.tail (.unblock going blocked order)

theorem Advances.watched (moves : Advances registry roots start now) (sights : Sights κ ν φ) :
    ∃ seen, Watched registry roots start sights now seen := by
  induction moves with
  | refl => exact ⟨sights, .refl⟩
  | tail _ move ih =>
      obtain ⟨seen, watched⟩ := ih
      cases move with
      | step going chosen order => exact ⟨_, watched.step going chosen order⟩
      | unblock going blocked order => exact ⟨_, watched.unblock going blocked order⟩

theorem Ends.shows (ends : Ends registry roots round final halt) (sights : Sights κ ν φ) :
    ∃ seen, Shows registry roots round sights final halt seen := by
  cases ends with
  | cached nothing => exact ⟨sights, .cached nothing⟩
  | complete order moves going finished =>
      obtain ⟨seen, watched⟩ := Advances.watched moves sights
      exact ⟨seen, .complete order watched going finished⟩
  | cut order moves short =>
      obtain ⟨seen, watched⟩ := Advances.watched moves sights
      exact ⟨seen, .cut order watched short⟩

theorem Shows.ends (shows : Shows registry roots round sights final halt seen) :
    Ends registry roots round final halt := by
  cases shows with
  | cached nothing => exact .cached nothing
  | complete order watched going finished =>
      exact .complete order watched.advances going finished
  | cut order watched short => exact .cut order watched.advances short

end Erase

section Told

variable {registry : Registry κ ν φ} {before after : Round κ ν φ} {key : κ} {work : Work κ φ}
  {effect : Effect κ ν φ} {sights : Sights κ ν φ}

theorem sees_of_quiet (moved : Moved before (before.step registry key).1 key effect)
    (quiet : effect.attempt = none) : before.sees registry key sights = sights := by
  unfold sees
  rw [moved.runs, quiet]
  simp

theorem sees_of_ran (progress : Progress registry before key work effect)
    (moved : Moved before (before.step registry key).1 key effect) {attempt : Attempt κ φ}
    (ran : effect.attempt = some attempt) :
    before.sees registry key sights =
      Function.update sights key (attempt.told before.graph.result?) := by
  obtain ⟨function, registered, rfl⟩ := progress.attempt ran
  unfold sees
  rw [moved.runs, ran]
  simp [registered]

theorem sees_of_ne (progress : Progress registry before key work effect)
    (moved : Moved before (before.step registry key).1 key effect) {other : κ}
    (different : other ≠ key) : before.sees registry key sights other = sights other := by
  cases ran : effect.attempt with
  | none => rw [sees_of_quiet moved ran]
  | some attempt => rw [sees_of_ran progress moved ran, Function.update_of_ne different]

/-- The recorded dependencies cover what was told, and still say the same. -/
def seenBacking (sights : Sights κ ν φ) : Backing κ ν φ where
  holds key _ dependencies results :=
    ∀ seen ∈ sights key, seen.1 ∈ dependencies ∧ results seen.1 = some seen.2
  fleeting := True
  congr := by
    intro key result dependencies results others same holds seen member
    obtain ⟨recorded, isSeen⟩ := holds seen member
    exact ⟨recorded, same seen.1 recorded ▸ isSeen⟩

/-- What was told is what holds: for lasting results by what they rest on, for
keys that are computed by what they asked for in this round. -/
structure Seen (registry : Registry κ ν φ) (round : Round κ ν φ) (sights : Sights κ ν φ) :
    Prop where
  grounded : Grounded (seenBacking sights) round
  establishes : Establishes registry round
  asked : ∀ key work, (round.graph.nodeAt key).work = some work →
    ∀ dependency ∈ work.requested, ∀ seen ∈ sights key,
      seen.1 ∈ work.requested ∧ (round.graph.nodeAt seen.1).result? = some seen.2
  unregistered : ∀ key, registry.function? key = none → sights key = []

omit [BEq ν] in
/-- A run of the function of a key that has no result yet takes no ground away. -/
theorem Seen.rebase (seen : Seen registry before sights)
    (found : (before.graph.nodeAt key).work = some work) (phase : work.phase = .computing)
    (told : List (κ × Result κ ν φ)) :
    Grounded (seenBacking (Function.update sights key told)) before := by
  have taken : (before.graph.nodeAt key).work.isSome = true := by simp [found]
  refine seen.grounded.rebase id (fun other result results isResult holds => ?_)
    fun other result results memo holds => ?_
  · have different : other ≠ key := by
      rintro rfl
      rw [Node.result?_of_work taken] at isResult
      cases isResult
    intro pair member
    rw [Function.update_of_ne different] at member
    exact holds pair member
  · by_cases same : other = key
    · subst same
      exact .inl ⟨trivial, outdated_of_refuted
        ((seen.establishes other work found).refuted result phase memo)⟩
    · refine .inr fun pair member => ?_
      rw [Function.update_of_ne same] at member
      exact holds pair member

theorem Seen.regrounded (seen : Seen registry before sights)
    (progress : Progress registry before key work effect)
    (moved : Moved before (before.step registry key).1 key effect)
    (found : (before.graph.nodeAt key).work = some work) :
    Grounded (seenBacking (before.sees registry key sights)) before := by
  cases ran : effect.attempt with
  | none =>
      rw [sees_of_quiet moved ran]
      exact seen.grounded
  | some attempt =>
      rw [sees_of_ran progress moved ran]
      cases progress with
      | finish _ _ _ _ _ _ phase => exact seen.rebase found phase _
      | restart _ _ _ phase => exact seen.rebase found phase _
      | _ => cases ran

/-- A computed result rests on what the last run was told. -/
theorem Seen.computed (seen : Seen registry before sights)
    (progress : Progress registry before key work effect)
    (moved : Moved before (before.step registry key).1 key effect)
    (found : (before.graph.nodeAt key).work = some work) (phase : work.phase = .computing)
    {result : Result κ ν φ} (isResult : effect.own.result? = some result) :
    (seenBacking (before.sees registry key sights)).holds key result effect.own.dependencies
      fun dependency => (before.graph.nodeAt dependency).result? := by
  have taken : (before.graph.nodeAt key).work.isSome = true := by simp [found]
  intro pair member
  cases progress with
  | await | compare | restart =>
      rw [Node.updateWork_result?, Node.result?_of_work taken] at isResult
      cases isResult
  | revalidate group awaiting checking finished =>
      rw [phase] at checking
      cases checking
  | fail dependency cause phase unhandled =>
      rw [sees_of_quiet moved rfl] at member
      obtain ⟨blamed, requested, _⟩ := List.exists_of_findSome?_eq_some unhandled
      exact seen.asked key work found blamed requested pair member
  | refuse phase handled absent =>
      rw [sees_of_quiet moved rfl, seen.unregistered key absent] at member
      cases member
  | finish function attempt outcome given dependencies events phase handled registered run
      verdict =>
      rw [sees_of_ran (.finish function attempt outcome given dependencies events phase handled
        registered run verdict) moved rfl, Function.update_self] at member
      obtain ⟨requested, isSeen⟩ := Attempt.mem_told.mp member
      rw [Graph.result?_eq] at isSeen
      rw [← (verdict_commit verdict).1] at requested
      exact ⟨requested, isSeen⟩

/-- What the keys that are worked on asked for is what their last runs were told. -/
theorem Seen.asked_step (seen : Seen registry before sights)
    (progress : Progress registry before key work effect)
    (moved : Moved before (before.step registry key).1 key effect)
    (found : (before.graph.nodeAt key).work = some work) {other : κ} {later : Work κ φ}
    (isWork : ((before.step registry key).1.graph.nodeAt other).work = some later) {dependency : κ}
    (needed : dependency ∈ later.requested) {pair : κ × Result κ ν φ}
    (member : pair ∈ before.sees registry key sights other) :
    pair.1 ∈ later.requested ∧ (before.graph.nodeAt pair.1).result? = some pair.2 := by
  by_cases same : other = key
  · subst same
    obtain ⟨own, isOwn, _, _, requested, _⟩ := moved.self.work_some isWork
    rw [← requested] at needed ⊢
    cases progress with
    | restart function attempt outcome phase handled registered run verdict =>
        rw [sees_of_ran (.restart function attempt outcome phase handled registered run verdict)
          moved rfl, Function.update_self] at member
        rw [Node.updateWork_work_of_work _ found, Option.some.injEq] at isOwn
        subst isOwn
        obtain ⟨asked, isSeen⟩ := Attempt.mem_told.mp member
        rw [Graph.result?_eq] at isSeen
        exact ⟨asked, isSeen⟩
    | await | compare =>
        rw [sees_of_quiet moved rfl] at member
        rw [Node.updateWork_work_of_work _ found, Option.some.injEq] at isOwn
        subst isOwn
        exact seen.asked other work found dependency needed pair member
    | _ => cases isOwn
  · rw [sees_of_ne progress moved same] at member
    rcases moved.other same with alike | ⟨_, _, phase, _, alike⟩
    · obtain ⟨earlier, isEarlier, _, _, requested, _⟩ := alike.work_some isWork
      rw [← requested] at needed ⊢
      exact seen.asked other earlier isEarlier dependency needed pair member
    · obtain ⟨fresh, isFresh, _, _, requested, _⟩ := alike.work_some isWork
      cases isFresh
      rw [← requested] at needed
      exact absurd needed (Grouping.not_mem_empty dependency)

theorem Seen.step {ready : List κ} (seen : Seen registry before sights)
    (inOrder : InOrder before ready) (member : key ∈ ready) :
    Seen registry (before.step registry key).1 (before.sees registry key sights) := by
  obtain ⟨work, effect, found, _, progress, moved⟩ := inOrder.moved member registry
  have extended := moved.extends found
  constructor
  case grounded =>
    exact (seen.regrounded progress moved found).step progress moved found (inOrder.underway key)
      (seen.establishes key work found) (inOrder.settled_of_batch member found)
      fun result phase isResult _ => seen.computed progress moved found phase isResult
  case establishes => exact seen.establishes.step inOrder member found progress moved
  case asked =>
    intro other later isWork dependency needed pair isPair
    obtain ⟨asked, isSeen⟩ := seen.asked_step progress moved found isWork needed isPair
    exact ⟨asked, extended.result? isSeen⟩
  case unregistered =>
    intro other absent
    cases ran : effect.attempt with
    | none =>
        rw [sees_of_quiet moved ran]
        exact seen.unregistered other absent
    | some attempt =>
        have different : other ≠ key := by
          rintro rfl
          obtain ⟨function, registered, _⟩ := progress.attempt ran
          rw [absent] at registered
          cases registered
        rw [sees_of_ne progress moved different]
        exact seen.unregistered other absent

theorem Seen.breakDeadlock (seen : Seen registry before sights) (waiting : Waiting before [])
    (roots : List κ) : Seen registry (before.breakDeadlock roots).1 sights := by
  have failed := failed_breakDeadlock waiting roots
  have extended := failed.extends fun _ => evaluating_of_cycleFailuresAt waiting
  refine ⟨seen.grounded.breakDeadlock waiting, seen.establishes.breakDeadlock waiting,
    fun key later isWork dependency needed pair member => ?_, seen.unregistered⟩
  cases unblocked_breakDeadlock waiting roots key with
  | failed _ _ _ alike =>
      rw [alike.work_none.mpr rfl] at isWork
      cases isWork
  | spared _ alike =>
      obtain ⟨same, isSame, _, _, requested, _⟩ := alike.work_some isWork
      rw [← requested] at needed ⊢
      obtain ⟨asked, isSeen⟩ := seen.asked key same isSame dependency needed pair member
      exact ⟨asked, extended.result? isSeen⟩

theorem Seen.watched {roots ready : List κ} {now : Round κ ν φ × List κ} {later : Sights κ ν φ}
    (seen : Seen registry before sights) (inOrder : InOrder before ready)
    (watched : Watched registry roots (before, ready) sights now later) :
    Seen registry now.1 later := by
  induction watched with
  | refl => exact seen
  | step watched going chosen order ih =>
      exact ih.step (inOrder.advances watched.advances)
        (chosen.mem_iff.mpr List.mem_cons_self)
  | unblock watched going blocked order ih =>
      exact ih.breakDeadlock (inOrder.advances watched.advances).waiting _

/-- The results that a round leaves rest on what the last runs were told. -/
theorem Shows.grounded {roots : List κ} {halt : Halt} {later : Sights κ ν φ}
    (shows : Shows registry roots before sights after halt later) (unique : roots.Nodup)
    (rested : Rested before.graph) (grounded : Grounded (seenBacking sights) before)
    (unregistered : ∀ key, registry.function? key = none → sights key = []) :
    Grounded (seenBacking later) after ∧
      ∀ key, registry.function? key = none → later key = [] := by
  have begun := before.begin_spec unique
  have opened : Seen registry (before.begin roots).1 sights := by
    refine ⟨grounded.begin begun, begun.establishes rested,
      fun key work found dependency needed => ?_, unregistered⟩
    rcases begun.work rested key with free | ⟨_, phase, fresh⟩
    · rw [found] at free
      cases free
    · rw [found] at fresh
      cases fresh
      exact absurd needed (Grouping.not_mem_empty dependency)
  cases shows with
  | cached nothing => exact ⟨opened.grounded, unregistered⟩
  | complete order watched going finished =>
      have start := InOrder.begin unique rested order
      have seen := opened.watched start watched
      have inOrder := start.advances watched.advances
      exact ⟨seen.grounded.breakDeadlock inOrder.waiting, seen.unregistered⟩
  | cut order watched short =>
      have start := InOrder.begin unique rested order
      have seen := opened.watched start watched
      exact ⟨seen.grounded.rollBack (start.advances watched.advances), seen.unregistered⟩

end Told

end Round

end MemoGraph
