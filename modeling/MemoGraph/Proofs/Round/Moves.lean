import MemoGraph.Proofs.Graph.Outlines
import MemoGraph.Proofs.Round.WaitingSteps

namespace MemoGraph

variable {κ ν φ : Type}

namespace Node

variable {node : Node κ ν φ}

theorem dependencies_taken : node.taken.dependencies = node.dependencies := by
  cases idle : node.isIdle with
  | true =>
      obtain ⟨phase, _, taken⟩ := taken_of_idle idle
      rw [taken]
  | false => rw [taken_of_not_idle idle]

theorem dependents_taken : node.taken.dependents = node.dependents := by
  cases idle : node.isIdle with
  | true =>
      obtain ⟨phase, _, taken⟩ := taken_of_idle idle
      rw [taken]
  | false => rw [taken_of_not_idle idle]

theorem dependents_joined (waiter : κ) : (node.joined waiter).dependents = node.dependents := by
  unfold joined
  split
  · rfl
  · rw [updateWork_dependents, dependents_taken]

theorem alike_joined (waiter : κ) : Alike (node.joined waiter) node.taken := by
  cases settled : node.isSettled with
  | true =>
      rw [joined_of_settled settled, taken_of_not_idle (not_idle_of_settled settled)]
      exact .refl node
  | false =>
      rw [joined, settled, if_neg Bool.false_ne_true]
      exact alike_of_updateWork fun _ => rfl

end Node

namespace Round

/-! What a step does apart from who waits for whom.

A step of a key changes the outline of that key, takes up what the key asks for
and leaves the outlines of all others as they are.
-/

variable [Key κ] {round before middle after : Round κ ν φ} {key : κ}

/-- What a step does, who waits for whom apart. -/
structure Effect (κ ν φ : Type) where
  /-- What the key asked for. -/
  asked : List κ := []
  /-- What becomes of the key. -/
  own : Node κ ν φ
  /-- Whether the key is to be attempted again in the next round. -/
  failed : Bool := false
  /-- The run of the key's function, if there was one. -/
  attempt : Option (Attempt κ φ) := none

/-- A step of a key has the effect: the key becomes as said, what it asked for
is taken up, and edges only change at the key. -/
structure Moved (before after : Round κ ν φ) (key : κ) (effect : Effect κ ν φ) : Prop where
  self : (after.graph.nodeAt key).Alike effect.own
  others : ∀ other, other ≠ key → (after.graph.nodeAt other).Alike
    (if other ∈ effect.asked then (before.graph.nodeAt other).taken
      else before.graph.nodeAt other)
  dependents : ∀ other dependent, dependent ∈ (after.graph.nodeAt other).dependents ↔
    if dependent = key ∧
        ¬ (other ∈ (before.graph.nodeAt key).dependencies ↔ other ∈ effect.own.dependencies)
      then other ∈ effect.own.dependencies
      else dependent ∈ (before.graph.nodeAt other).dependents
  keys : ∀ other, other ∈ after.graph.keys ↔ other ∈ effect.asked ∨
    (other ∈ effect.own.dependencies ∧ other ∉ (before.graph.nodeAt key).dependencies) ∨
      other ∈ before.graph.keys
  version : after.version = before.version
  transient : ∀ other, other ∈ after.transient.toList ↔
    other ∈ before.transient.toList ∨ (other = key ∧ effect.failed = true)
  interrupted : after.interrupted =
    (before.interrupted || effect.attempt.any Attempt.interrupts)
  runs : after.runs = before.runs + if effect.attempt.isSome then 1 else 0

variable {effect : Effect κ ν φ}

theorem Moved.of_tell {signal : Signal κ φ} (moved : Moved (before.tell signal) after key effect) :
    Moved before after key effect :=
  ⟨moved.self, moved.others, moved.dependents, moved.keys, moved.version, moved.transient,
    moved.interrupted, moved.runs⟩

theorem Moved.of_ran {attempts : Nat} {attempt : Attempt κ φ}
    (moved : Moved (before.ran key attempts attempt) after key effect)
    (only : effect.attempt = none) :
    Moved before after key { effect with attempt := some attempt } := by
  refine ⟨moved.self, moved.others, moved.dependents, moved.keys, moved.version,
    moved.transient, ?_, ?_⟩
  · rw [moved.interrupted, only]
    simp [ran]
  · rw [moved.runs, only]
    rfl

theorem alike_wake (waiters : List κ) (other : κ) :
    ((round.wake waiters).1.graph.nodeAt other).Alike (round.graph.nodeAt other) := by
  rw [nodeAt_wake]
  exact Node.alike_of_updateWork fun _ => rfl

theorem dependents_wake (waiters : List κ) (other : κ) :
    ((round.wake waiters).1.graph.nodeAt other).dependents =
      (round.graph.nodeAt other).dependents := by
  rw [nodeAt_wake, Node.updateWork_dependents]

theorem Moved.wake (moved : Moved before middle key effect) (waiters : List κ) :
    Moved before (middle.wake waiters).1 key effect := by
  have alike := middle.alike_wake waiters
  obtain ⟨keys, _, context⟩ := middle.wake_fst waiters
  refine ⟨(alike key).trans moved.self, fun other different =>
    (alike other).trans (moved.others other different), fun other dependent => ?_,
    fun other => (keys other).trans (moved.keys other), context.version.trans moved.version, ?_,
    context.interrupted.trans moved.interrupted, context.runs.trans moved.runs⟩
  · rw [dependents_wake]
    exact moved.dependents other dependent
  · rw [context.transient]
    exact moved.transient

/-- Another key is left as it was unless it is idle and was asked for. -/
theorem Moved.kept (moved : Moved before after key effect) {other : κ} (different : other ≠ key)
    (away : other ∈ effect.asked → before.isIdle other = false) :
    (after.graph.nodeAt other).Alike (before.graph.nodeAt other) := by
  have alike := moved.others other different
  split at alike
  · rename_i asked
    rwa [Node.taken_of_not_idle (away asked)] at alike
  · exact alike

theorem Moved.joins (moved : Moved before after key effect) {other : κ} (different : other ≠ key)
    (asked : other ∈ effect.asked) (idle : before.isIdle other = true) :
    ∃ phase, Node.firstPhase? (before.graph.nodeAt other).memo = some phase ∧
      (after.graph.nodeAt other).Alike
        { before.graph.nodeAt other with work := some { phase } } := by
  obtain ⟨phase, first, taken⟩ := Node.taken_of_idle idle
  have alike := moved.others other different
  rw [if_pos asked, taken] at alike
  exact ⟨phase, first, alike⟩

/-- Another key is as it was, or it is taken up because it was asked for. -/
theorem Moved.other (moved : Moved before after key effect) {other : κ} (different : other ≠ key) :
    (after.graph.nodeAt other).Alike (before.graph.nodeAt other) ∨
      (other ∈ effect.asked ∧ (before.graph.nodeAt other).isIdle = true ∧
        ∃ phase, Node.firstPhase? (before.graph.nodeAt other).memo = some phase ∧
          (after.graph.nodeAt other).Alike
            { before.graph.nodeAt other with work := some { phase } }) := by
  by_cases joining : other ∈ effect.asked ∧ before.isIdle other = true
  · exact .inr ⟨joining.1, joining.2, moved.joins different joining.1 joining.2⟩
  · exact .inl (moved.kept different fun asked =>
      eq_false_of_ne_true fun idle => joining ⟨asked, idle⟩)

theorem Moved.linked (moved : Moved before after key effect) (linked : before.graph.Linked) :
    after.graph.Linked := by
  intro dependent dependency
  rw [moved.dependents]
  by_cases same : dependent = key
  · subst same
    rw [moved.self.dependencies, linked]
    by_cases kept : dependency ∈ (before.graph.nodeAt dependent).dependencies ↔
        dependency ∈ effect.own.dependencies <;> simp [kept]
  · have dependencies : (after.graph.nodeAt dependent).dependencies =
        (before.graph.nodeAt dependent).dependencies := by
      rw [(moved.others dependent same).dependencies]
      split
      · rw [Node.dependencies_taken]
      · rfl
    simp [same, dependencies, linked dependent dependency]

theorem batch_of_alike {node : Node κ ν φ} (alike : (round.graph.nodeAt key).Alike node) :
    round.batch key = (node.work.map Work.batch).getD [] := by
  unfold batch
  cases found : (round.graph.nodeAt key).work with
  | none => rw [alike.work_none.mp found]
  | some work =>
      obtain ⟨same, isWork, _, batch, _⟩ := alike.work_some found
      rw [isWork]
      exact batch.symm

section Moves

/-- A change of the key's own node that keeps its dependencies and dependents. -/
theorem moved_own {own : Node κ ν φ} (node : ∀ other, after.graph.nodeAt other =
      if other = key then own else round.graph.nodeAt other)
    (dependencies : own.dependencies = (round.graph.nodeAt key).dependencies)
    (dependents : own.dependents = (round.graph.nodeAt key).dependents)
    (keys : ∀ other, other ∈ after.graph.keys ↔ other ∈ round.graph.keys)
    (context : SameContext round after) : Moved round after key { own } := by
  refine ⟨?_, fun other different => ?_, fun other dependent => ?_, fun other => ?_,
    context.version, ?_, by simp [context.interrupted], context.runs⟩
  · rw [node, if_pos rfl]
    exact .refl _
  · rw [node, if_neg different, if_neg List.not_mem_nil]
    exact .refl _
  · rw [node, dependencies]
    simp only [not_true_eq_false, and_false, if_false]
    split
    · rename_i same
      rw [same, dependents]
    · exact .rfl
  · rw [keys]
    simp [dependencies]
  · simp [context.transient]

theorem moved_updateWork (change : Work κ φ → Work κ φ) (graph : after.graph =
    round.graph.updateWork key change) (context : SameContext round after) :
    Moved round after key { own := (round.graph.nodeAt key).updateWork change } :=
  moved_own (fun other => by rw [graph, Graph.nodeAt_updateWork])
    (Node.updateWork_dependencies ..) (Node.updateWork_dependents ..)
    (fun other => by rw [graph, Graph.mem_keys_updateWork]) context

theorem moved_await {dependencies : List κ} (change : Work κ φ → Work κ φ)
    (unique : dependencies.Nodup) (taken : (round.graph.nodeAt key).work.isSome = true) :
    Moved round ((round.updateWork key change).await key dependencies).1 key
      { asked := dependencies
        own := (round.graph.nodeAt key).updateWork fun work =>
          { change work with batch := dependencies } } := by
  have node : ∀ other, (round.updateWork key change).graph.nodeAt other =
      if other = key then (round.graph.nodeAt key).updateWork change
      else round.graph.nodeAt other := fun other => Graph.nodeAt_updateWork ..
  have opened : ((round.updateWork key change).graph.nodeAt key).work.isSome = true := by
    rw [node, if_pos rfl, Node.updateWork_work, Option.isSome_map]
    exact taken
  have awaited := (round.updateWork key change).await_spec unique opened
  refine ⟨?_, fun other different => ?_, fun other dependent => ?_, fun other => ?_,
    awaited.context.version, ?_, awaited.context.interrupted.trans (by simp [updateWork]),
    awaited.context.runs⟩
  · rw [awaited.own, node, if_pos rfl, Node.updateWork_updateWork]
    exact Node.alike_updateWork fun _ => rfl
  · rw [awaited.others other different, node, if_neg different]
    split
    · exact Node.alike_joined key
    · exact .refl _
  · simp only [Node.updateWork_dependencies, not_true_eq_false, and_false, if_false]
    by_cases same : other = key
    · subst same
      rw [awaited.own, node, if_pos rfl, Node.updateWork_dependents, Node.updateWork_dependents]
    · rw [awaited.others other same, node, if_neg same]
      split
      · rw [Node.dependents_joined]
      · exact .rfl
  · rw [awaited.keys]
    show _ ∨ other ∈ (round.graph.updateWork key change).keys ↔ _
    rw [Graph.mem_keys_updateWork]
    simp
  · rw [awaited.context.transient]
    show ∀ other, other ∈ round.transient.toList ↔ _
    simp

theorem moved_revalidate (known : key ∈ round.graph.keys) :
    Moved round (round.revalidate key).1 key
      { own := (round.graph.nodeAt key).revalidate round.version } := by
  obtain ⟨middle, woken, graph, _, context⟩ := round.revalidate_spec key
  have moved : Moved round middle key
      { own := (round.graph.nodeAt key).revalidate round.version } :=
    moved_own (fun other => by rw [graph, Graph.nodeAt_update known]) rfl rfl
      (fun other => by rw [graph, Graph.mem_keys_update]) context
  rw [woken]
  exact moved.wake _

section Record

variable [BEq ν] {result : Result κ ν φ} {dependencies : Grouping κ}

theorem Recorded.moved {waiters : List κ}
    (recorded : Recorded round key result dependencies after waiters) :
    Moved round after key
      { own := (round.graph.nodeAt key).commit round.version result dependencies
        failed := isTransient result } := by
  refine ⟨?_, fun other different => ?_, fun other dependent => ?_, fun other => ?_,
    recorded.version, fun other => ?_, by simp [recorded.interrupted], recorded.runs⟩
  · rw [recorded.nodes, if_pos rfl]
    exact Node.alike_relinked ..
  · rw [recorded.nodes, if_neg different, if_neg List.not_mem_nil]
    exact Node.alike_relinked ..
  · rw [recorded.nodes, Node.mem_dependents_relinked]
    have same : dependent ∈ (if other = key then (round.graph.nodeAt key).commit round.version result
        dependencies else round.graph.nodeAt other).dependents ↔
        dependent ∈ (round.graph.nodeAt other).dependents := by
      split
      · rename_i isKey
        rw [isKey]
        exact .rfl
      · exact .rfl
    simp only [same, ne_eq, decide_eq_decide, decide_eq_true_eq, Node.commit_dependencies]
    exact .rfl
  · rw [recorded.keys]
    show _ ↔ _ ∨ (other ∈ dependencies ∧ _) ∨ _
    simp
  · rw [recorded.transient]
    split
    · rename_i failed
      simp [failed]
    · rename_i kept
      simp [kept]

theorem moved_commit (known : key ∈ round.graph.keys) (result : Result κ ν φ)
    (dependencies : Grouping κ) (events : List (Event κ)) :
    Moved round (round.commit key result dependencies events).1 key
      { own := (round.graph.nodeAt key).commit round.version result dependencies
        failed := isTransient result } :=
  (round.record_spec known result dependencies events).moved.wake _

end Record

end Moves

section Progress

/-- What a step of a key that waits for nothing comes to. -/
inductive Progress [BEq ν] (registry : Registry κ ν φ) (round : Round κ ν φ) (key : κ)
    (work : Work κ φ) : Effect κ ν φ → Prop
  | await (group : Nat) (dependencies : List κ)
      (phase : work.phase = .checking group false)
      (found : (round.graph.nodeAt key).dependencies.group? group = some dependencies) :
      Progress registry round key work
        { asked := dependencies
          own := (round.graph.nodeAt key).updateWork fun work =>
            { work with phase := .checking group true, batch := dependencies } }
  | compare (group : Nat) (dependencies : List κ)
      (phase : work.phase = .checking group true)
      (found : (round.graph.nodeAt key).dependencies.group? group = some dependencies) :
      Progress registry round key work
        { own := (round.graph.nodeAt key).updateWork fun work =>
            { work with
              batch := []
              phase :=
                if dependencies.any (round.changedSince (round.graph.nodeAt key).lastEvaluated) then
                  .computing
                else .checking (group + 1) false } }
  | revalidate (group : Nat) (awaiting : Bool)
      (phase : work.phase = .checking group awaiting)
      (finished : (round.graph.nodeAt key).dependencies.group? group = none) :
      Progress registry round key work
        { own := (round.graph.nodeAt key).revalidate round.version }
  | fail (dependency : κ) (cause : Failure κ φ)
      (phase : work.phase = .computing)
      (unhandled : firstUnhandled? round.graph work.requested work.handlers =
        some (dependency, cause)) :
      Progress registry round key work
        { own := (round.graph.nodeAt key).commit round.version
            (.error (.dependency key dependency cause)) work.requested
          failed := cause.transience = .transient }
  | refuse (phase : work.phase = .computing)
      (handled : firstUnhandled? round.graph work.requested work.handlers = none)
      (absent : registry.function? key = none) :
      Progress registry round key work
        { own := (round.graph.nodeAt key).commit round.version
            (.error (unregistered registry key)) .empty }
  | finish (function : Nat → Computation κ ν φ) (attempt : Attempt κ φ) (outcome : Outcome ν φ)
      (result : Result κ ν φ) (dependencies : Grouping κ) (events : List (Event κ))
      (phase : work.phase = .computing)
      (handled : firstUnhandled? round.graph work.requested work.handlers = none)
      (registered : registry.function? key = some function)
      (run : Attempt.run round.graph.result? key (function round.runs) {} = (attempt, outcome))
      (verdict : attempt.verdict round.graph key outcome = .commit result dependencies events) :
      Progress registry round key work
        { own := (round.graph.nodeAt key).commit round.version result dependencies
          failed := isTransient result
          attempt := some attempt }
  | restart (function : Nat → Computation κ ν φ) (attempt : Attempt κ φ) (outcome : Outcome ν φ)
      (phase : work.phase = .computing)
      (handled : firstUnhandled? round.graph work.requested work.handlers = none)
      (registered : registry.function? key = some function)
      (run : Attempt.run round.graph.result? key (function round.runs) {} = (attempt, outcome))
      (verdict : attempt.verdict round.graph key outcome = .restart) :
      Progress registry round key work
        { asked := attempt.missing
          own := (round.graph.nodeAt key).updateWork fun work =>
            { work with
              requested := attempt.requested
              handlers := attempt.handlers
              attempts := work.attempts + 1
              batch := attempt.missing }
          attempt := some attempt }

theorem step_moved [BEq ν] (registry : Registry κ ν φ) {work : Work κ φ}
    (found : (round.graph.nodeAt key).work = some work) (free : work.pending = 0) :
    ∃ effect, Progress registry round key work effect ∧
      Moved round (round.step registry key).1 key effect := by
  have taken : (round.graph.nodeAt key).work.isSome = true := by simp [found]
  have known := Graph.mem_keys_of_work taken
  have stepped := stepping registry found free
  generalize round.step registry key = after at stepped ⊢
  cases stepped with
  | await group dependencies phase recorded =>
      exact ⟨_, .await group dependencies phase recorded,
        moved_await _ (Grouping.nodup_of_group? recorded) taken⟩
  | compare group dependencies phase recorded =>
      obtain ⟨graph, _, context, _⟩ := round.compare_spec key group dependencies
        (round.graph.nodeAt key).lastEvaluated
      exact ⟨_, .compare group dependencies phase recorded, moved_updateWork _ graph context⟩
  | revalidate group awaiting phase finished =>
      exact ⟨_, .revalidate group awaiting phase finished, moved_revalidate known⟩
  | fail dependency cause phase unhandled =>
      exact ⟨_, .fail dependency cause phase unhandled, moved_commit known ..⟩
  | refuse phase handled absent =>
      exact ⟨_, .refuse phase handled absent, moved_commit known ..⟩
  | finish function attempt outcome result dependencies events phase handled registered run
      verdict =>
      refine ⟨_, .finish function attempt outcome result dependencies events phase handled
        registered run verdict, ?_⟩
      have known : key ∈ (round.ran key work.attempts attempt).graph.keys := known
      exact (moved_commit known result dependencies events).of_ran rfl
  | restart function attempt outcome phase handled registered run verdict =>
      refine ⟨_, .restart function attempt outcome phase handled registered run verdict, ?_⟩
      have unique : attempt.missing.Nodup := (Attempt.faithful_of_run run).unique
      have taken : (((round.ran key work.attempts attempt).tell
        (.restart key attempt.missing)).graph.nodeAt key).work.isSome = true := taken
      exact (moved_await _ unique taken).of_tell.of_ran rfl

/-- A step runs the function of its key against the results so far. -/
theorem Progress.attempt [BEq ν] {registry : Registry κ ν φ} {work : Work κ φ}
    (progress : Progress registry before key work effect) {attempt : Attempt κ φ}
    (ran : effect.attempt = some attempt) :
    ∃ function, registry.function? key = some function ∧
      (Attempt.run before.graph.result? key (function before.runs) {}).1 = attempt := by
  cases progress with
  | finish function _ outcome _ _ _ _ _ registered run =>
      cases ran
      exact ⟨function, registered, by rw [run]⟩
  | restart function _ outcome _ _ registered run =>
      cases ran
      exact ⟨function, registered, by rw [run]⟩
  | _ => cases ran

end Progress

end Round

end MemoGraph
