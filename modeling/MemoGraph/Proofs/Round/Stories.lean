import MemoGraph.Proofs.Round.Deadlocks
import MemoGraph.Proofs.Round.Beginning
import MemoGraph.Proofs.Round.Stepping

namespace MemoGraph

/-! What an observer of a round is told of each key.

The story of a key leaves out all signals that do not say whether the key is
taken up, run, found on a cycle or finished. What an operation tells is given by
what it adds to the story of each key.
-/

variable {κ ν φ : Type}

/-- Whether the signal tells of the key that it is taken up, run, found on a
cycle or finished. -/
def Signal.concerns [DecidableEq κ] (key : κ) : Signal κ φ → Bool
  | .start other | .compute other _ | .finish other _ => decide (other = key)
  | .cycle keys => decide (key ∈ keys)
  | _ => false

/-- How a key ends that was given a result, which may equal the one before. -/
def Ending.ofResult (kept : Bool) : Result κ ν φ → Ending κ φ
  | .ok _ => if kept then .unchanged else .changed
  | .error failure => .ofFailure failure

theorem Ending.ofFailure_cases (failure : Failure κ φ) :
    Ending.ofFailure failure = .cycleDetected ∨ Ending.ofFailure failure = .failed failure := by
  unfold ofFailure
  split
  · exact .inl rfl
  · exact .inr rfl

@[simp] theorem Ending.ofResult_ne_revalidated (kept : Bool) (result : Result κ ν φ) :
    Ending.ofResult kept result ≠ .revalidated := by
  cases result with
  | ok value => cases kept <;> simp [ofResult]
  | error failure => rcases ofFailure_cases failure with ending | ending <;> simp [ofResult, ending]

@[simp] theorem Ending.ofResult_ne_cacheHit (kept : Bool) (result : Result κ ν φ) :
    Ending.ofResult kept result ≠ .cacheHit := by
  cases result with
  | ok value => cases kept <;> simp [ofResult]
  | error failure => rcases ofFailure_cases failure with ending | ending <;> simp [ofResult, ending]

theorem Ending.ofResult_eq_unchanged {kept : Bool} {result : Result κ ν φ}
    (unchanged : Ending.ofResult kept result = .unchanged) : kept = true := by
  cases result with
  | ok value => cases kept <;> simp [ofResult] at unchanged ⊢
  | error failure =>
      rcases ofFailure_cases failure with ending | ending <;> simp [ofResult, ending] at unchanged

section Story

variable [DecidableEq κ] {key other : κ} {signals : List (Signal κ φ)}

def story (key : κ) (signals : List (Signal κ φ)) : List (Signal κ φ) :=
  signals.filter (Signal.concerns key)

theorem story_cons (signal : Signal κ φ) : story key (signal :: signals) =
    if signal.concerns key then signal :: story key signals else story key signals :=
  List.filter_cons ..

@[simp] theorem story_append (more : List (Signal κ φ)) :
    story key (signals ++ more) = story key signals ++ story key more :=
  List.filter_append ..

theorem mem_story {signal : Signal κ φ} :
    signal ∈ story key signals ↔ signal ∈ signals ∧ signal.concerns key = true :=
  List.mem_filter

theorem start_mem_story : .start key ∈ story key signals ↔ .start key ∈ signals := by
  simp [mem_story, Signal.concerns]

theorem compute_mem_story {attempt : Nat} :
    .compute key attempt ∈ story key signals ↔ .compute key attempt ∈ signals := by
  simp [mem_story, Signal.concerns]

theorem finish_mem_story {ending : Ending κ φ} :
    .finish key ending ∈ story key signals ↔ .finish key ending ∈ signals := by
  simp [mem_story, Signal.concerns]

theorem cycle_mem_story {keys : List κ} (member : key ∈ keys) :
    .cycle keys ∈ story key signals ↔ .cycle keys ∈ signals := by
  simp [mem_story, Signal.concerns, member]

theorem filter_map_of_nodup {α : Type} {item : κ → α} {test : α → Bool}
    (own : ∀ other, test (item other) = decide (other = key)) {keys : List κ}
    (unique : keys.Nodup) :
    (keys.map item).filter test = if key ∈ keys then [item key] else [] := by
  induction keys with
  | nil => rfl
  | cons first rest ih =>
      obtain ⟨fresh, restUnique⟩ := List.nodup_cons.mp unique
      rw [List.map_cons, List.filter_cons, own, ih restUnique]
      by_cases same : first = key
      · subst same
        simp [fresh]
      · have different : ¬ key = first := fun equal => same equal.symm
        simp [same, different]

/-- Among signals that concern one key each, and no key twice, stands that of the key. -/
theorem story_map {signal : κ → Signal κ φ}
    (own : ∀ key other, (signal other).concerns key = decide (other = key)) {keys : List κ}
    (unique : keys.Nodup) :
    story key (keys.map signal) = if key ∈ keys then [signal key] else [] :=
  filter_map_of_nodup (own key) unique

theorem story_commitSignals (kept : Bool) (events : List (Event κ)) (result : Result κ ν φ) :
    story key (Round.commitSignals other kept events result) =
      if key = other then [.finish key (.ofResult kept result)] else [] := by
  have noEvents : story key (events.map Signal.event : List (Signal κ φ)) = [] := by
    simp [story, Signal.concerns]
  have last : ∀ ending : Ending κ φ, story key [.finish other ending] =
      if key = other then [.finish key ending] else [] := by
    intro ending
    have single : story key ([other].map fun other => Signal.finish other ending) = _ :=
      story_map (fun _ _ => rfl) (List.nodup_singleton other)
    simpa using single
  cases result with
  | ok value =>
      change story key (events.map .event ++ _) = _
      rw [story_append, noEvents, last]
      rfl
  | error failure =>
      change story key (events.map .event ++ _) = _
      rw [story_append, noEvents, last]
      rfl

end Story

namespace Round

variable [Key κ] {round before middle after : Round κ ν φ} {key : κ}

/-- The observer was told something that adds to the story of each key as said. -/
def Tells (before after : Round κ ν φ) (stories : κ → List (Signal κ φ)) : Prop :=
  ∃ signals, after.log.toList = before.log.toList ++ signals ∧
    ∀ key, story key signals = stories key

theorem Tells.of_log (same : after.log = before.log) : Tells before after fun _ => [] :=
  ⟨[], by simp [same], fun _ => rfl⟩

theorem Tells.of_signals {signals : List (Signal κ φ)} (told : after.log.toList =
    before.log.toList ++ signals) : Tells before after fun key => story key signals :=
  ⟨signals, told, fun _ => rfl⟩

theorem Tells.trans {first second : κ → List (Signal κ φ)} (left : Tells before middle first)
    (right : Tells middle after second) :
    Tells before after fun key => first key ++ second key := by
  obtain ⟨signals, told, stories⟩ := left
  obtain ⟨more, toldMore, moreStories⟩ := right
  refine ⟨signals ++ more, by rw [toldMore, told, List.append_assoc], fun key => ?_⟩
  rw [story_append, stories, moreStories]

theorem Tells.congr {stories others : κ → List (Signal κ φ)} (tells : Tells before after stories)
    (same : ∀ key, stories key = others key) : Tells before after others :=
  (funext same : stories = others) ▸ tells

theorem Tells.trans_log {stories : κ → List (Signal κ φ)} (left : Tells before middle stories)
    (same : after.log = middle.log) : Tells before after stories :=
  (left.trans (.of_log same)).congr fun _ => List.append_nil _

section Waiting

theorem log_release (key : κ) : (round.release key).1.log = round.log := by
  rcases Nat.eq_zero_or_pos (round.pending key) with nothing | waiting
  · rw [release_idle nothing]
  · rw [release_waiting waiting]
    rfl

theorem log_wake (waiters : List κ) : (round.wake waiters).1.log = round.log := by
  induction waiters generalizing round with
  | nil => rfl
  | cons waiter waiters ih => exact (@ih (round.release waiter).1).trans (round.log_release waiter)

/-- The keys were taken up and the observer was told so, and of nothing else. -/
def TakesUp (before after : Round κ ν φ) (keys : List κ) : Prop :=
  after.started.toList = before.started.toList ++ keys ∧
    after.log.toList = before.log.toList ++ keys.map .start

theorem TakesUp.trans {keys more : List κ} (left : TakesUp before middle keys)
    (right : TakesUp middle after more) : TakesUp before after (keys ++ more) := by
  constructor
  · rw [right.1, left.1, List.append_assoc]
  · rw [right.2, left.2, List.map_append, List.append_assoc]

theorem TakesUp.of_same (started : after.started = before.started) (log : after.log = before.log) :
    TakesUp before after [] := by
  constructor <;> simp [started, log]

theorem takesUp_start (key : κ) :
    TakesUp round (round.start key).1
      ([key].filter fun key => (round.graph.nodeAt key).isIdle) := by
  refine ⟨started_start key, ?_⟩
  cases idle : (round.graph.nodeAt key).isIdle with
  | true =>
      rw [start_idle idle]
      simp [idle, tell, update]
  | false =>
      rw [start_busy idle]
      simp [idle]

theorem exists_takesUp_join (waiter dependency : κ) :
    ∃ keys, TakesUp round (round.join waiter dependency).1 keys := by
  have took := round.takesUp_start dependency
  unfold join
  simp only
  split
  · exact ⟨_, took⟩
  · exact ⟨_, took.trans (.of_same rfl rfl)⟩

theorem exists_takesUp_joinAll (waiter : κ) (dependencies : List κ) :
    ∃ keys, TakesUp round (round.joinAll waiter dependencies).1 keys := by
  induction dependencies generalizing round with
  | nil => exact ⟨[], .of_same rfl rfl⟩
  | cons dependency rest ih =>
      obtain ⟨keys, took⟩ := round.exists_takesUp_join waiter dependency
      rw [joinAll]
      generalize round.join waiter dependency = joined at took ⊢
      obtain ⟨middle, joining⟩ := joined
      cases joining with
      | settled =>
          have released : TakesUp middle (middle.release waiter).1 [] :=
            .of_same (middle.release_fst waiter).2.1 (middle.log_release waiter)
          obtain ⟨more, tookMore⟩ := @ih (middle.release waiter).1
          exact ⟨_, (took.trans released).trans tookMore⟩
      | underway | started =>
          obtain ⟨more, tookMore⟩ := @ih middle
          exact ⟨_, took.trans tookMore⟩

/-- Asking for dependencies tells of those that are taken up, in the order in
which they are asked for. -/
theorem log_await {dependencies : List κ} (unique : dependencies.Nodup)
    (taken : (round.graph.nodeAt key).work.isSome = true) :
    (round.await key dependencies).1.log.toList =
      round.log.toList ++ (dependencies.filter round.isIdle).map .start := by
  obtain ⟨keys, took⟩ : ∃ keys, TakesUp round (round.await key dependencies).1 keys := by
    unfold await
    simp only
    have opened : TakesUp round (round.updateWork key fun work =>
      { work with pending := dependencies.length + 1, batch := dependencies }) [] :=
      .of_same rfl rfl
    generalize (round.updateWork key _) = asking at opened ⊢
    obtain ⟨keys, took⟩ := asking.exists_takesUp_joinAll key dependencies
    generalize asking.joinAll key dependencies = joined at took ⊢
    exact ⟨_, (opened.trans took).trans
      (.of_same (joined.1.release_fst key).2.1 (joined.1.log_release key))⟩
  have started := (round.await_spec unique taken).started
  rw [took.1, List.append_cancel_left_eq] at started
  rw [took.2, started]
  rfl

end Waiting

section Begin

theorem log_begin {roots : List κ} (unique : roots.Nodup) :
    (round.begin roots).1.log.toList = round.log.toList ++
      roots.map fun root => if round.isIdle root then .start root else .finish root .cacheHit := by
  induction roots generalizing round with
  | nil => simp [begin]
  | cons root rest ih =>
      obtain ⟨fresh, restUnique⟩ := List.nodup_cons.mp unique
      have found := round.start_snd root
      have nodes := round.nodeAt_start root
      have told := (round.takesUp_start root).2
      rw [begin]
      generalize round.start root = begun at found nodes told ⊢
      obtain ⟨middle, idle⟩ := begun
      simp only at found nodes told
      have others : (rest.map fun root =>
          if middle.isIdle root then Signal.start root else .finish root .cacheHit) =
          rest.map fun root =>
            if round.isIdle root then (.start root : Signal κ φ) else .finish root .cacheHit := by
        refine List.map_congr_left fun other member => ?_
        have same : middle.isIdle other = round.isIdle other := by
          unfold isIdle
          rw [nodes, if_neg]
          rintro rfl
          exact fresh member
        rw [same]
      cases idle with
      | true =>
          simp only
          rw [ih restUnique, others, told]
          simp [isIdle, ← found]
      | false =>
          have after := @ih (middle.tell (.finish root .cacheHit)) restUnique
          simp only
          rw [after]
          change (middle.log.push _).toList ++
            rest.map (fun root => if middle.isIdle root then _ else _) = _
          rw [others]
          simp [isIdle, ← found, told]

/-- The beginning of a round tells of each root that it is taken up, or that its
result is valid. -/
theorem tells_begin {roots : List κ} (unique : roots.Nodup) :
    Tells round (round.begin roots).1 fun key =>
      if key ∈ roots then
        [if round.isIdle key then .start key else .finish key .cacheHit]
      else [] :=
  (Tells.of_signals (round.log_begin unique)).congr fun key =>
    story_map (fun key other => by split <;> rfl) unique

end Begin

section Step

theorem isIdle_updateWork (change : Work κ φ → Work κ φ) :
    (round.updateWork key change).isIdle = round.isIdle := by
  funext other
  change ((round.graph.updateWork key change).nodeAt other).isIdle = _
  rw [Graph.nodeAt_updateWork]
  split
  · rename_i same
    rw [Node.updateWork_isIdle, same]
    rfl
  · rfl

theorem work_updateWork (change : Work κ φ → Work κ φ) :
    ((round.updateWork key change).graph.nodeAt key).work =
      (round.graph.nodeAt key).work.map change := by
  change ((round.graph.updateWork key change).nodeAt key).work = _
  rw [Graph.nodeAt_updateWork, if_pos rfl, Node.updateWork_work]

theorem log_updateWork_await {dependencies : List κ} (change : Work κ φ → Work κ φ)
    (unique : dependencies.Nodup) (taken : (round.graph.nodeAt key).work.isSome = true) :
    ((round.updateWork key change).await key dependencies).1.log.toList =
      round.log.toList ++ (dependencies.filter round.isIdle).map .start := by
  have stillTaken : ((round.updateWork key change).graph.nodeAt key).work.isSome = true := by
    rw [work_updateWork, Option.isSome_map]
    exact taken
  rw [log_await unique stillTaken, isIdle_updateWork]
  rfl

theorem log_restart {attempt : Attempt κ φ} (unique : attempt.missing.Nodup)
    (taken : (round.graph.nodeAt key).work.isSome = true) :
    (round.restart key attempt).1.log.toList = round.log.toList ++
      .restart key attempt.missing :: (attempt.missing.filter round.isIdle).map .start := by
  have told : (round.tell (.restart key attempt.missing)).log.toList =
      round.log.toList ++ [.restart key attempt.missing] := Array.toList_push
  have stillTaken : ((round.tell (.restart key attempt.missing)).graph.nodeAt key).work.isSome =
      true := taken
  have awaited := log_updateWork_await (fun work =>
    { work with
      requested := attempt.requested
      handlers := attempt.handlers
      attempts := work.attempts + 1 }) unique stillTaken
  rw [told, List.append_assoc] at awaited
  exact awaited

theorem log_compare (group : Nat) (dependencies : List κ) (since : Version) :
    (round.compare key group dependencies since).1.log.toList = round.log.toList ++
      if dependencies.any (round.changedSince since) then [.dirtyCheck key true] else [] := by
  unfold compare
  cases dependencies.any (round.changedSince since) with
  | true => exact Array.toList_push
  | false => exact (List.append_nil _).symm

theorem log_revalidate : (round.revalidate key).1.log.toList =
    round.log.toList ++ [.dirtyCheck key false, .finish key .revalidated] := by
  unfold revalidate
  simp only [log_wake]
  exact Array.toList_appendList ..

variable [BEq ν] {result : Result κ ν φ} {dependencies : Grouping κ} {events : List (Event κ)}

theorem log_record :
    (round.record key result dependencies events).1.log.toList = round.log.toList ++
      commitSignals key ((round.graph.nodeAt key).keeps result) events result :=
  Array.toList_appendList ..

theorem log_commit :
    (round.commit key result dependencies events).1.log.toList = round.log.toList ++
      commitSignals key ((round.graph.nodeAt key).keeps result) events result := by
  unfold commit
  simp only [log_wake]
  exact log_record

end Step

section Break

variable [BEq ν]

theorem log_foldl_abandon (failures : List (Failure κ φ)) (waiters : List κ) :
    (failures.foldl abandon (round, waiters)).1.log.toList = round.log.toList ++
      failures.map fun failure => .finish failure.key (.ofFailure failure) := by
  induction failures generalizing round waiters with
  | nil => simp
  | cons failure rest ih =>
      rw [List.foldl_cons]
      have recorded : (abandon (round, waiters) failure).1.log.toList =
          round.log.toList ++ [.finish failure.key (.ofFailure failure)] := log_record
      generalize abandon (round, waiters) failure = middle at recorded ⊢
      obtain ⟨middle, more⟩ := middle
      rw [ih, recorded, List.append_assoc]
      rfl

/-- What is told of a key when components of keys that wait in circles fail. -/
def cycleStory (components : List (List κ)) (key : κ) : List (Signal κ φ) :=
  components.flatMap fun component =>
    if key ∈ component then [.cycle component, .finish key .cycleDetected] else []

omit [BEq ν] in
theorem cycleStory_of_not_mem {components : List (List κ)} (outside : key ∉ components.flatten) :
    (cycleStory components key : List (Signal κ φ)) = [] := by
  rw [List.mem_flatten] at outside
  refine List.flatMap_eq_nil_iff.mpr fun component listed => if_neg fun member => ?_
  exact outside ⟨component, listed, member⟩

omit [BEq ν] in
theorem exists_cycleStory_of_mem {components : List (List κ)}
    (unique : components.flatten.Nodup) (member : key ∈ components.flatten) :
    ∃ component, key ∈ component ∧ (cycleStory components key : List (Signal κ φ)) =
      [.cycle component, .finish key .cycleDetected] := by
  induction components with
  | nil => cases member
  | cons component rest ih =>
      rw [List.flatten_cons, List.nodup_append] at unique
      obtain ⟨_, restUnique, apart⟩ := unique
      have unfolded : (cycleStory (component :: rest) key : List (Signal κ φ)) =
          (if key ∈ component then [.cycle component, .finish key .cycleDetected] else []) ++
            cycleStory rest key := rfl
      rw [unfolded]
      by_cases inFirst : key ∈ component
      · have outside : key ∉ rest.flatten := fun inRest => apart key inFirst key inRest rfl
        exact ⟨component, inFirst, by rw [cycleStory_of_not_mem outside, if_pos inFirst]; rfl⟩
      · rw [List.flatten_cons, List.mem_append] at member
        obtain ⟨other, inOther, told⟩ := ih restUnique (member.resolve_left inFirst)
        exact ⟨other, inOther, by rw [if_neg inFirst, told]; rfl⟩

/-- The signals that tell of a component of keys that wait in circles and fail. -/
def breakSignals (component : List κ) : List (Signal κ φ) :=
  .cycle component :: component.map (.finish · .cycleDetected)

theorem log_breakComponent (waits : Digraph κ) (component waiters : List κ) :
    (breakComponent waits (round, waiters) component).1.log.toList =
      round.log.toList ++ breakSignals component := by
  have failed := (round.tell (.cycle component)).log_foldl_abandon
    (cycleFailures waits component) waiters
  rw [cycleFailures, List.map_map] at failed
  refine failed.trans ?_
  change (round.log.push _).toList ++ _ = _
  rw [Array.toList_push, List.append_assoc]
  rfl

theorem tells_breakComponent (waits : Digraph κ) {component : List κ} (unique : component.Nodup)
    (waiters : List κ) :
    Tells round (breakComponent waits (round, waiters) component).1 fun key =>
      if key ∈ component then [.cycle component, .finish key .cycleDetected] else [] := by
  refine (Tells.of_signals (log_breakComponent waits component waiters)).congr fun key => ?_
  have finishes : story key
      (component.map fun other => (Signal.finish other .cycleDetected : Signal κ φ)) = _ :=
    story_map (fun _ _ => rfl) unique
  change List.filter _ (_ :: _) = _
  rw [List.filter_cons]
  change (if decide (key ∈ component) then _ :: story key _ else story key _) = _
  rw [finishes]
  by_cases member : key ∈ component <;> simp [member]

theorem log_foldl_breakComponent (waits : Digraph κ) (components : List (List κ))
    (waiters : List κ) :
    (components.foldl (breakComponent waits) (round, waiters)).1.log.toList =
      round.log.toList ++ components.flatMap breakSignals := by
  induction components generalizing round waiters with
  | nil => simp
  | cons component rest ih =>
      have first := round.log_breakComponent waits component waiters
      rw [List.foldl_cons]
      generalize breakComponent waits (round, waiters) component = middle at first ⊢
      obtain ⟨middle, more⟩ := middle
      rw [ih, first, List.append_assoc]
      rfl

/-- Breaking deadlocks tells of each component that waits in circles, and of
nothing else. -/
theorem log_breakDeadlock (waiting : Waiting round []) (roots : List κ) :
    (round.breakDeadlock roots).1.log.toList = round.log.toList ++
      (round.waits roots).cyclicComponents.flatMap breakSignals := by
  rw [breakDeadlock_eq roots waiting rfl, log_wake]
  exact round.log_foldl_breakComponent (round.waits roots) (round.waits roots).cyclicComponents []

theorem tells_foldl_breakComponent (waits : Digraph κ) {components : List (List κ)}
    (unique : components.flatten.Nodup) (waiters : List κ) :
    Tells round (components.foldl (breakComponent waits) (round, waiters)).1
      (cycleStory components) := by
  induction components generalizing round waiters with
  | nil => exact .of_log rfl
  | cons component rest ih =>
      rw [List.flatten_cons, List.nodup_append] at unique
      have first := round.tells_breakComponent waits unique.1 waiters
      rw [List.foldl_cons]
      generalize breakComponent waits (round, waiters) component = middle at first ⊢
      obtain ⟨middle, more⟩ := middle
      exact first.trans (ih unique.2.1 more)

/-- Breaking deadlocks tells of each key that fails the component in which it
waits, and that it failed for it. -/
theorem tells_breakDeadlock (waiting : Waiting round []) (roots : List κ) :
    Tells round (round.breakDeadlock roots).1
      (cycleStory (round.waits roots).cyclicComponents) := by
  have unique := Digraph.nodup_cyclicComponents (closed_waits roots waiting)
  rw [breakDeadlock_eq roots waiting rfl]
  exact (round.tells_foldl_breakComponent (round.waits roots) unique []).trans_log (log_wake _)

end Break

end Round

end MemoGraph
