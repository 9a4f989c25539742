import MemoGraph.Proofs.Round.Courses
import MemoGraph.Proofs.Round.Stories
import MemoGraph.Proofs.Round.Tries

namespace MemoGraph.Round

variable {κ ν φ : Type} [Key κ] [BEq ν] {registry : Registry κ ν φ} {round before : Round κ ν φ}
  {key : κ} {work : Work κ φ} {ready : List κ}

/-- The keys that are taken up when a key asks for the given ones. -/
def starts (round : Round κ ν φ) (asked : List κ) : List (Signal κ φ) :=
  (asked.filter round.isIdle).map .start

/-- What a step of a key comes to, and the signals that it adds to the log. -/
inductive Report (registry : Registry κ ν φ) (round : Round κ ν φ) (key : κ) (work : Work κ φ) :
    Effect κ ν φ → List (Signal κ φ) → Prop
  | await (group : Nat) (dependencies : List κ)
      (phase : work.phase = .checking group false)
      (found : (round.graph.nodeAt key).dependencies.group? group = some dependencies) :
      Report registry round key work
        { asked := dependencies
          own := (round.graph.nodeAt key).updateWork fun work =>
            { work with phase := .checking group true, batch := dependencies } }
        (round.starts dependencies)
  /-- The group did not change. -/
  | confirm (group : Nat) (phase : work.phase = .checking group true) :
      Report registry round key work
        { own := (round.graph.nodeAt key).updateWork fun work =>
            { work with batch := [], phase := .checking (group + 1) false } }
        []
  /-- The group changed. -/
  | differ (group : Nat) (phase : work.phase = .checking group true) :
      Report registry round key work
        { own := (round.graph.nodeAt key).updateWork fun work =>
            { work with batch := [], phase := .computing } }
        [.dirtyCheck key true]
  | revalidate (group : Nat) (awaiting : Bool)
      (phase : work.phase = .checking group awaiting)
      (finished : (round.graph.nodeAt key).dependencies.group? group = none) :
      Report registry round key work
        { own := (round.graph.nodeAt key).revalidate round.version }
        [.dirtyCheck key false, .finish key .revalidated]
  | fail (dependency : κ) (cause : Failure κ φ)
      (phase : work.phase = .computing)
      (unhandled : firstUnhandled? round.graph work.requested work.handlers =
        some (dependency, cause)) :
      Report registry round key work
        { own := (round.graph.nodeAt key).commit round.version
            (.error (.dependency key dependency cause)) work.requested
          failed := cause.transience = .transient }
        [.finish key (.ofFailure (.dependency key dependency cause))]
  | refuse (phase : work.phase = .computing)
      (handled : firstUnhandled? round.graph work.requested work.handlers = none)
      (absent : registry.function? key = none) :
      Report registry round key work
        { own := (round.graph.nodeAt key).commit round.version
            (.error (unregistered registry key)) .empty }
        [.finish key (.ofFailure (unregistered registry key))]
  | finish (function : Nat → Computation κ ν φ) (attempt : Attempt κ φ) (outcome : Outcome ν φ)
      (result : Result κ ν φ) (dependencies : Grouping κ) (events : List (Event κ))
      (phase : work.phase = .computing)
      (registered : registry.function? key = some function)
      (run : Attempt.run round.graph.result? key (function round.runs) {} = (attempt, outcome))
      (verdict : attempt.verdict round.graph key outcome = .commit result dependencies events) :
      Report registry round key work
        { own := (round.graph.nodeAt key).commit round.version result dependencies
          failed := isTransient result
          attempt := some attempt }
        (.compute key work.attempts ::
          commitSignals key ((round.graph.nodeAt key).keeps result) events result)
  | restart (function : Nat → Computation κ ν φ) (attempt : Attempt κ φ) (outcome : Outcome ν φ)
      (phase : work.phase = .computing)
      (registered : registry.function? key = some function)
      (run : Attempt.run round.graph.result? key (function round.runs) {} = (attempt, outcome))
      (verdict : attempt.verdict round.graph key outcome = .restart) :
      Report registry round key work
        { asked := attempt.missing
          own := (round.graph.nodeAt key).updateWork fun work =>
            { work with
              requested := attempt.requested
              handlers := attempt.handlers
              attempts := work.attempts + 1
              batch := attempt.missing }
          attempt := some attempt }
        (.compute key work.attempts :: .restart key attempt.missing ::
          round.starts attempt.missing)

/-- What a step asks for is named once. -/
theorem Report.unique {effect : Effect κ ν φ} {signals : List (Signal κ φ)}
    (report : Report registry round key work effect signals) : effect.asked.Nodup := by
  cases report with
  | await group dependencies phase found => exact Grouping.nodup_of_group? found
  | restart function attempt outcome phase registered run verdict =>
      exact (Attempt.faithful_of_run run).unique
  | _ => exact List.nodup_nil

omit [BEq ν] in
theorem log_ran (attempts : Nat) (attempt : Attempt κ φ) :
    (round.ran key attempts attempt).log.toList =
      round.log.toList ++ [.compute key attempts] :=
  Array.toList_push

/-- A step of the key has the effect and tells the signals. -/
structure Logged (before after : Round κ ν φ) (key : κ) (effect : Effect κ ν φ)
    (signals : List (Signal κ φ)) : Prop extends Moved before after key effect where
  log : after.log.toList = before.log.toList ++ signals
  tries : ∀ other, (after.graph.nodeAt other).tries =
    if other = key then effect.own.tries else (before.graph.nodeAt other).tries

theorem step_reported (registry : Registry κ ν φ)
    (found : (round.graph.nodeAt key).work = some work) (free : work.pending = 0) :
    ∃ effect signals, Report registry round key work effect signals ∧
      Logged round (round.step registry key).1 key effect signals := by
  have taken : (round.graph.nodeAt key).work.isSome = true := by simp [found]
  have known := Graph.mem_keys_of_work taken
  have stepped := stepping registry found free
  generalize round.step registry key = after at stepped ⊢
  cases stepped with
  | await group dependencies phase recorded =>
      have unique := Grouping.nodup_of_group? recorded
      refine ⟨_, _, .await group dependencies phase recorded,
        ⟨moved_await _ unique taken, log_updateWork_await _ unique taken, fun other => ?_⟩⟩
      rw [tries_await _ unique taken]
      split
      · rw [Node.tries_updateWork (by intro _; rfl), Node.tries_updateWork (by intro _; rfl)]
      · rfl
  | compare group dependencies phase recorded =>
      obtain ⟨graph, _, context, _⟩ := round.compare_spec key group dependencies
        (round.graph.nodeAt key).lastEvaluated
      have moved := moved_updateWork _ graph context
      have told := @log_compare κ ν φ _ round key group dependencies
        (round.graph.nodeAt key).lastEvaluated
      have kept : ∀ other,
          ((round.compare key group dependencies
            (round.graph.nodeAt key).lastEvaluated).1.graph.nodeAt other).tries =
          if other = key then (round.graph.nodeAt key).tries
          else (round.graph.nodeAt other).tries := by
        intro other
        rw [graph, Graph.nodeAt_updateWork]
        split
        · exact Node.tries_updateWork (by intro _; rfl)
        · rfl
      generalize round.compare key group dependencies _ = after at moved told kept ⊢
      split at told
      · rename_i changed
        simp only [changed, if_true] at moved
        refine ⟨_, _, .differ group phase, ⟨moved, told, fun other => ?_⟩⟩
        rw [kept, Node.tries_updateWork (by intro _; rfl)]
      · rename_i unchanged
        simp only [unchanged, Bool.false_eq_true, if_false] at moved
        refine ⟨_, _, .confirm group phase, ⟨moved, told, fun other => ?_⟩⟩
        rw [kept, Node.tries_updateWork (by intro _; rfl)]
  | revalidate group awaiting phase finished =>
      exact ⟨_, _, .revalidate group awaiting phase finished,
        ⟨moved_revalidate known, log_revalidate, tries_revalidate known⟩⟩
  | fail dependency cause phase unhandled =>
      exact ⟨_, _, .fail dependency cause phase unhandled,
        ⟨moved_commit known .., log_commit, tries_commit known _ _ _⟩⟩
  | refuse phase handled absent =>
      exact ⟨_, _, .refuse phase handled absent,
        ⟨moved_commit known .., log_commit, tries_commit known _ _ _⟩⟩
  | finish function attempt outcome result dependencies events phase handled registered run
      verdict =>
      have known : key ∈ (round.ran key work.attempts attempt).graph.keys := known
      refine ⟨_, _, .finish function attempt outcome result dependencies events phase registered
        run verdict, ⟨(moved_commit known result dependencies events).of_ran rfl, ?_,
          tries_commit known _ _ _⟩⟩
      rw [log_commit, log_ran, List.append_assoc]
      rfl
  | restart function attempt outcome phase handled registered run verdict =>
      have unique : attempt.missing.Nodup := (Attempt.faithful_of_run run).unique
      have taken : ((round.ran key work.attempts attempt).graph.nodeAt key).work.isSome = true :=
        taken
      have opened : (((round.ran key work.attempts attempt).tell
        (.restart key attempt.missing)).graph.nodeAt key).work.isSome = true := taken
      refine ⟨_, _, .restart function attempt outcome phase registered run verdict,
        ⟨(moved_await _ unique opened).of_tell.of_ran rfl, ?_, fun other => ?_⟩⟩
      · rw [log_restart unique taken, log_ran, List.append_assoc]
        rfl
      · refine (tries_await _ unique opened other).trans ?_
        split
        · simp only [Node.tries, Node.updateWork_work, Option.map_map]
          rfl
        · rfl

theorem Report.ran?_eq {effect : Effect κ ν φ} {signals : List (Signal κ φ)}
    (report : Report registry before key work effect signals)
    (moved : Moved before (before.step registry key).1 key effect) :
    before.ran? registry key = effect.attempt := by
  have runs := moved.runs
  unfold ran?
  cases report with
  | finish function attempt outcome _ _ _ _ registered run
  | restart function attempt outcome _ registered run =>
      rw [if_neg (by simp [runs]), registered, Option.map_some, run]
  | _ => exact if_pos runs

theorem Sound.reported (sound : Sound registry before ready) (member : key ∈ ready) :
    ∃ work effect signals, (before.graph.nodeAt key).work = some work ∧
      Report registry before key work effect signals ∧
      Logged before (before.step registry key).1 key effect signals := by
  obtain ⟨work, _, found, free, _⟩ := sound.moved member registry
  obtain ⟨effect, signals, report, logged⟩ := step_reported registry found free
  exact ⟨work, effect, signals, found, report, logged⟩

end MemoGraph.Round
