import MemoGraph.Proofs.Round.Fates
import MemoGraph.Proofs.Round.Lifecycles
import MemoGraph.Proofs.Round.Reports

namespace MemoGraph.Round

variable {κ ν φ : Type} [Key κ]

/-- What was told of a key so far. -/
inductive Passage (registry : Registry κ ν φ) (roots : List κ) (round now : Round κ ν φ) (key : κ) :
    List (Signal κ φ) → Prop
  | aside (unwanted : key ∉ roots)
      (same : (now.graph.nodeAt key).Alike (round.graph.nodeAt key)) :
      Passage registry roots round now key []
  | complete {told : List (Signal κ φ)} (settled : now.isSettled key = true)
      (lifecycle : Lifecycle registry roots round key (now.graph.result? key) told) :
      Passage registry roots round now key told
  | checking (dirty : round.graph.state? key = some .dirty) (work : Work κ φ)
      (found : (now.graph.nodeAt key).work = some work) (group : Nat) (awaiting : Bool)
      (phase : work.phase = .checking group awaiting) (unasked : work.requested = .empty)
      (untried : (now.graph.nodeAt key).tries = 0) :
      Passage registry roots round now key [.start key]
  | computing (idle : round.isIdle key = true) (work : Work κ φ)
      (found : (now.graph.nodeAt key).work = some work) (phase : work.phase = .computing)
      (restarts : List (List κ)) (lacking : ∀ missing ∈ restarts, missing ≠ [])
      (counted : (now.graph.nodeAt key).tries = restarts.length)
      (unasked : restarts = [] → work.requested = .empty)
      (registered : restarts ≠ [] → (registry.function? key).isSome = true) :
      Passage registry roots round now key
        (.start key :: (round.checks key ++ retried key 0 restarts))

section States

variable {round : Round κ ν φ} {key : κ}

theorem state?_of_idle (idle : round.isIdle key = true) :
    ¬ (round.graph.state? key = some .done ∨ round.graph.state? key = some .error) := by
  intro done
  have settled := Graph.isSettled_iff.mpr done
  rw [isIdle, Node.not_idle_of_settled settled] at idle
  cases idle

theorem isIdle_of_dirty (dirty : round.graph.state? key = some .dirty) :
    round.isIdle key = true := by
  obtain ⟨node, found, state⟩ := Option.map_eq_some_iff.mp dirty
  rw [isIdle, Graph.nodeAt_of_node? found, Node.isIdle_iff]
  obtain ⟨memo, _, _, _, _, _, work⟩ := node
  cases work with
  | some work => cases state
  | none => cases memo with
    | valid result => cases result <;> cases state
    | blank | changed => cases state
    | dirty => exact ⟨rfl, rfl⟩

theorem state?_of_memo {memo : Memo κ ν φ} (free : (round.graph.nodeAt key).work = none)
    (isMemo : (round.graph.nodeAt key).memo = memo) (known : memo ≠ .blank) :
    round.graph.state? key = some memo.state := by
  have isKey : key ∈ round.graph.keys := by
    by_contra unknown
    rw [Graph.nodeAt_of_not_mem unknown] at isMemo
    exact known isMemo.symm
  simp [Graph.state?, Graph.node?_of_mem isKey, Node.state, free, isMemo]

theorem checks_of_memo (free : (round.graph.nodeAt key).work = none)
    (computing : Node.firstPhase? (round.graph.nodeAt key).memo = some .computing) :
    round.checks key = [] := by
  refine if_neg fun dirty => ?_
  obtain ⟨node, found, state⟩ := Option.map_eq_some_iff.mp dirty
  rw [Graph.nodeAt_of_node? found] at free computing
  rw [Node.state, free] at state
  cases memo : node.memo with
  | valid result => cases result <;> simp [memo, Memo.state] at state
  | blank => simp [memo, Memo.state] at state
  | changed => simp [memo, Memo.state] at state
  | dirty => simp [memo, Node.firstPhase?] at computing

end States

section Starts

variable {round : Round κ ν φ} {key : κ} {asked : List κ}

theorem callbacks_starts (unique : asked.Nodup) :
    callbacks key (round.starts asked) =
      if key ∈ asked.filter round.isIdle then [.start key] else [] :=
  filter_map_of_nodup (fun _ => rfl) (unique.filter _)

theorem callbacks_starts_of_busy (busy : round.isIdle key = false) (unique : asked.Nodup) :
    callbacks key (round.starts asked) = [] := by
  rw [callbacks_starts unique, if_neg]
  intro member
  rw [(List.mem_filter.mp member).2] at busy
  cases busy

theorem callbacks_begun (unique : asked.Nodup) :
    callbacks key (asked.map fun root =>
      if round.isIdle root then Signal.start root else .finish root .cacheHit) =
      if key ∈ asked then
        [if round.isIdle key then (.start key : Signal κ φ) else .finish key .cacheHit]
      else [] :=
  filter_map_of_nodup (fun _ => by split <;> rfl) unique

end Starts

variable {registry : Registry κ ν φ} {roots ready : List κ}
  {round now before after : Round κ ν φ} {key other : κ} {told signals : List (Signal κ φ)}
  {work : Work κ φ} {effect : Effect κ ν φ}

omit [Key κ] in
theorem closing_commitSignals [DecidableEq κ] [BEq ν] (node : Node κ ν φ) (events : List (Event κ))
    (result : Result κ ν φ) :
    Closing key (node.committed result)
      (callbacks key (commitSignals key (node.keeps result) events result)) := by
  cases result with
  | error failure =>
      have told : callbacks key (commitSignals key (node.keeps (.error failure)) events
          (.error failure : Result κ ν φ)) = [.finish key (.ofFailure failure)] := by
        simp [commitSignals, callbacks, Signal.isAbout]
      rw [told]
      exact .failed failure
  | ok value =>
      cases kept : node.keeps (.ok value) with
      | false =>
          have told : callbacks key (commitSignals key false events
              (.ok value : Result κ ν φ)) = [.cutoff key true, .finish key .changed] := by
            simp [commitSignals, callbacks, Signal.isAbout]
          rw [told, Node.committed, kept, if_neg Bool.false_ne_true]
          exact .changed value
      | true =>
          have told : callbacks key (commitSignals key true events
              (.ok value : Result κ ν φ)) = [.cutoff key false, .finish key .unchanged] := by
            simp [commitSignals, callbacks, Signal.isAbout]
          obtain ⟨old, isOld⟩ : ∃ old, node.committed (.ok value) = .ok old := by
            cases committed : node.committed (.ok value) with
            | ok old => exact ⟨old, rfl⟩
            | error failure => cases Node.eq_error_of_committed committed
          rw [told, isOld]
          exact .unchanged old

theorem callbacks_commitSignals_other (different : other ≠ key) (kept : Bool)
    (events : List (Event κ)) (result : Result κ ν φ) :
    callbacks other (commitSignals key kept events result) = [] := by
  have apart : ¬ key = other := fun same => different same.symm
  cases result <;> simp [commitSignals, callbacks, Signal.isAbout, apart]

/-- Of other keys a step only tells that they are taken up. -/
theorem Report.callbacks_other [BEq ν]
    (report : Report registry round key work effect signals) (different : other ≠ key) :
    callbacks other signals =
      if other ∈ effect.asked.filter round.isIdle then [.start other] else [] := by
  have apart : ¬ key = other := fun same => different same.symm
  have unique := report.unique
  cases report with
  | await => exact callbacks_starts unique
  | restart =>
      rw [callbacks_cons_other (by simp [Signal.isAbout, apart]),
        callbacks_cons_other (by simp [Signal.isAbout, apart])]
      exact callbacks_starts unique
  | finish =>
      rw [callbacks_cons_other (by simp [Signal.isAbout, apart]),
        callbacks_commitSignals_other different]
      rfl
  | _ => simp [callbacks, Signal.isAbout, apart]

section Step

variable (passage : Passage registry roots round before key told) (rested : Rested round.graph)
include passage rested

theorem Passage.of_checking (found : (before.graph.nodeAt key).work = some work) {group : Nat}
    {awaiting : Bool} (phase : work.phase = .checking group awaiting) :
    told = [.start key] ∧ round.graph.state? key = some .dirty ∧ work.requested = .empty ∧
      (before.graph.nodeAt key).tries = 0 := by
  cases passage with
  | aside _ same =>
      rw [same.work_none.mpr (rested key)] at found
      cases found
  | complete settled =>
      rw [isSettled, Node.not_settled_of_work (by simp [found])] at settled
      cases settled
  | checking dirty other isOther _ _ _ unasked untried =>
      obtain rfl : work = other := Option.some.inj (found.symm.trans isOther)
      exact ⟨rfl, dirty, unasked, untried⟩
  | computing _ other isOther computing =>
      obtain rfl : work = other := Option.some.inj (found.symm.trans isOther)
      rw [phase] at computing
      cases computing

/-- A check that goes on asks for nothing and runs nothing. -/
theorem Passage.checked {group : Nat} {awaiting : Bool} {change : Work κ φ → Work κ φ}
    (found : (before.graph.nodeAt key).work = some work)
    (phase : work.phase = .checking group awaiting)
    (alike : (after.graph.nodeAt key).Alike ((before.graph.nodeAt key).updateWork change))
    (tries : (after.graph.nodeAt key).tries = ((before.graph.nodeAt key).updateWork change).tries)
    (attempts : ∀ work, (change work).attempts = work.attempts)
    (requested : (change work).requested = work.requested) :
    told = [.start key] ∧ round.graph.state? key = some .dirty ∧
      ∃ later, (after.graph.nodeAt key).work = some later ∧ later.phase = (change work).phase ∧
        later.requested = .empty ∧ (after.graph.nodeAt key).tries = 0 := by
  obtain ⟨isTold, dirty, unasked, untried⟩ := passage.of_checking rested found phase
  obtain ⟨later, isLater, laterPhase, _, same, _⟩ :=
    alike.symm.work_some (Node.updateWork_work_of_work change found)
  rw [Node.tries_updateWork attempts] at tries
  exact ⟨isTold, dirty, later, isLater, laterPhase, same.trans (requested.trans unasked),
    tries.trans untried⟩

/-- A key that is computed was told of every run that was cut short. -/
theorem Passage.of_computing (found : (before.graph.nodeAt key).work = some work)
    (phase : work.phase = .computing) :
    ∃ restarts, told = .start key :: (round.checks key ++ retried key 0 restarts) ∧
      round.isIdle key = true ∧ (∀ missing ∈ restarts, missing ≠ []) ∧
      work.attempts = restarts.length ∧ (restarts = [] → work.requested = .empty) ∧
      (restarts ≠ [] → (registry.function? key).isSome = true) := by
  cases passage with
  | aside _ same =>
      rw [same.work_none.mpr (rested key)] at found
      cases found
  | complete settled =>
      rw [isSettled, Node.not_settled_of_work (by simp [found])] at settled
      cases settled
  | checking _ other isOther _ _ checking =>
      obtain rfl : work = other := Option.some.inj (found.symm.trans isOther)
      rw [phase] at checking
      cases checking
  | computing idle other isOther _ restarts lacking counted unasked registered =>
      obtain rfl : work = other := Option.some.inj (found.symm.trans isOther)
      rw [Node.tries_of_work found] at counted
      exact ⟨restarts, rfl, idle, lacking, counted, unasked, registered⟩

theorem Passage.finish (found : (before.graph.nodeAt key).work = some work)
    (phase : work.phase = .computing) {result : Result κ ν φ}
    (isResult : (after.graph.nodeAt key).result? = some result)
    (finale : ∀ restarts : List (List κ), work.attempts = restarts.length →
      (restarts = [] → work.requested = .empty) →
      (restarts ≠ [] → (registry.function? key).isSome = true) →
        Finale registry key restarts.length result signals) :
    Passage registry roots round after key (told ++ signals) := by
  obtain ⟨restarts, rfl, idle, lacking, counted, unasked, registered⟩ :=
    passage.of_computing rested found phase
  refine .complete (Node.isSettled_of_result? isResult) ?_
  rw [Graph.result?_eq, isResult, List.cons_append]
  exact .computed (state?_of_idle idle) restarts lacking
    (finale restarts counted unasked registered)

/-- What a step tells of the key that is stepped. -/
theorem Passage.stepped [BEq ν] (underway : (before.graph.nodeAt key).Underway)
    (found : (before.graph.nodeAt key).work = some work)
    (report : Report registry before key work effect signals)
    (logged : Logged before after key effect signals) :
    Passage registry roots round after key (told ++ callbacks key signals) := by
  have busy : before.isIdle key = false := Node.not_idle_of_work (by simp [found])
  have alike := logged.self
  have tries := logged.tries key
  rw [if_pos rfl] at tries
  have isResult : ∀ {result}, effect.own.result? = some result →
      (after.graph.nodeAt key).result? = some result := fun own => alike.result?.trans own
  have unique := report.unique
  cases report with
  | await group dependencies phase recorded =>
      obtain ⟨rfl, dirty, later, isLater, laterPhase, unasked, untried⟩ :=
        passage.checked rested found phase alike tries (fun _ => rfl) rfl
      rw [callbacks_starts_of_busy busy unique, List.append_nil]
      exact .checking dirty later isLater group true laterPhase unasked untried
  | confirm group phase =>
      obtain ⟨rfl, dirty, later, isLater, laterPhase, unasked, untried⟩ :=
        passage.checked rested found phase alike tries (fun _ => rfl) rfl
      exact .checking dirty later isLater (group + 1) false laterPhase unasked untried
  | differ group phase =>
      obtain ⟨rfl, dirty, later, isLater, laterPhase, unasked, untried⟩ :=
        passage.checked rested found phase alike tries (fun _ => rfl) rfl
      have isTold : ([.start key] ++ callbacks key [.dirtyCheck key true] : List (Signal κ φ)) =
          .start key :: (round.checks key ++ retried key 0 []) := by
        simp [callbacks, Signal.isAbout, checks, dirty, retried]
      rw [isTold]
      exact .computing (isIdle_of_dirty dirty) later isLater laterPhase [] (by simp) untried
        (fun _ => unasked) (absurd rfl)
  | revalidate group awaiting phase finished =>
      obtain ⟨rfl, dirty, _⟩ := passage.of_checking rested found phase
      obtain ⟨old, memo⟩ := (underway work found).2 group awaiting phase
      have own : ((before.graph.nodeAt key).revalidate before.version).result? = some old := by
        simp [Node.revalidate, Node.result?, memo, Memo.result?]
      rw [callbacks_self (by simp [Signal.isAbout])]
      refine .complete (Node.isSettled_of_result? (isResult own)) ?_
      rw [Graph.result?_eq, isResult own]
      exact .revalidated dirty old
  | fail dependency cause phase unhandled =>
      rw [callbacks_self (by simp [Signal.isAbout])]
      refine passage.finish rested found phase (isResult rfl) fun restarts _ unasked _ => ?_
      refine .blamed dependency cause (List.length_pos_iff.mpr fun none => ?_)
      exact requested_ne_empty unhandled (unasked none)
  | refuse phase handled absent =>
      rw [callbacks_self (by simp [Signal.isAbout])]
      refine passage.finish rested found phase (isResult rfl) fun restarts _ _ registered => ?_
      refine .unregistered absent (List.length_eq_zero_iff.mpr ?_)
      by_contra some
      rw [absent] at registered
      cases registered some
  | finish function attempt outcome result dependencies events phase registered run verdict =>
      rw [callbacks_cons_self (by simp [Signal.isAbout])]
      refine passage.finish rested found phase (isResult rfl) fun restarts counted _ _ => ?_
      rw [counted]
      exact .ran (by simp [registered]) (closing_commitSignals (before.graph.nodeAt key) events
        result)
  | restart function attempt outcome phase registered run verdict =>
      obtain ⟨restarts, rfl, idle, lacking, counted, _, _⟩ :=
        passage.of_computing rested found phase
      obtain ⟨later, isLater, laterPhase, _⟩ :=
        alike.symm.work_some (Node.updateWork_work_of_work _ found)
      have counts := tries.trans (Node.tries_of_work (Node.updateWork_work_of_work _ found))
      rw [callbacks_cons_self (by simp [Signal.isAbout]),
        callbacks_cons_self (by simp [Signal.isAbout]), callbacks_starts_of_busy busy unique]
      have isTold : (.start key :: (round.checks key ++ retried key 0 restarts) ++
          [.compute key work.attempts, .restart key attempt.missing] : List (Signal κ φ)) =
          .start key :: (round.checks key ++ retried key 0 (restarts ++ [attempt.missing])) := by
        rw [retried_append, Nat.zero_add, counted]
        simp [retried]
      rw [isTold]
      refine .computing idle later isLater (laterPhase.trans phase) (restarts ++ [attempt.missing])
        ?_ ?_ (by simp) (fun _ => by simp [registered])
      · intro missing member
        rcases List.mem_append.mp member with isOld | isNew
        · exact lacking missing isOld
        · rw [List.mem_singleton.mp isNew]
          exact verdict_restart verdict
      · rw [counts, List.length_append, ← counted]
        rfl

end Step

theorem Passage.keep (passage : Passage registry roots round before key told)
    (alike : (after.graph.nodeAt key).Alike (before.graph.nodeAt key))
    (tries : (after.graph.nodeAt key).tries = (before.graph.nodeAt key).tries) :
    Passage registry roots round after key told := by
  cases passage with
  | aside unwanted same => exact .aside unwanted (alike.trans same)
  | complete settled lifecycle =>
      refine .complete (alike.isSettled.trans settled) ?_
      rw [Graph.result?_eq] at lifecycle ⊢
      rw [alike.result?]
      exact lifecycle
  | checking dirty work found group awaiting phase unasked untried =>
      obtain ⟨later, isLater, laterPhase, _, requested, _⟩ := alike.symm.work_some found
      exact .checking dirty later isLater group awaiting (laterPhase.trans phase)
        (requested.trans unasked) (tries.trans untried)
  | computing idle work found phase restarts lacking counted unasked registered =>
      obtain ⟨later, isLater, laterPhase, _, requested, _⟩ := alike.symm.work_some found
      exact .computing idle later isLater (laterPhase.trans phase) restarts lacking
        (tries.trans counted) (fun none => requested.trans (unasked none)) registered

theorem Passage.begin (rested : Rested round.graph) (idle : round.isIdle key = true)
    {phase : Phase} (first : Node.firstPhase? (round.graph.nodeAt key).memo = some phase)
    {work : Work κ φ} (found : (after.graph.nodeAt key).work = some work)
    (isPhase : work.phase = phase) (unasked : work.requested = .empty)
    (untried : (after.graph.nodeAt key).tries = 0) :
    Passage registry roots round after key [.start key] := by
  have computing : phase = .computing → Passage registry roots round after key [.start key] := by
    rintro rfl
    have isTold : ([.start key] : List (Signal κ φ)) =
        .start key :: (round.checks key ++ retried key 0 []) := by
      rw [checks_of_memo (rested key) first]
      rfl
    rw [isTold]
    exact .computing idle work found isPhase [] (by simp) untried (fun _ => unasked) (absurd rfl)
  cases memo : (round.graph.nodeAt key).memo with
  | blank | changed =>
      rw [memo] at first
      cases first
      exact computing rfl
  | valid result =>
      rw [memo] at first
      cases first
  | dirty old =>
      rw [memo] at first
      cases first
      exact .checking (state?_of_memo (rested key) memo nofun) work found 0 false isPhase unasked
        untried

/-- What a step tells of the other keys. -/
theorem Passage.alongside (passage : Passage registry roots round before other told)
    (rested : Rested round.graph) (logged : Logged before after key effect signals)
    (different : other ≠ key) :
    Passage registry roots round after other
      (told ++ if other ∈ effect.asked.filter before.isIdle then [.start other] else []) := by
  have tries := logged.tries other
  rw [if_neg different] at tries
  by_cases joins : other ∈ effect.asked.filter before.isIdle
  · obtain ⟨asked, idle⟩ := List.mem_filter.mp joins
    obtain ⟨phase, first, alike⟩ := logged.joins different asked idle
    rw [if_pos joins]
    obtain ⟨free, noResult⟩ := Node.isIdle_iff.mp idle
    have isTaken : ({ before.graph.nodeAt other with work := some { phase } } : Node κ ν φ).work =
        some { phase } := rfl
    obtain ⟨work, found, isPhase, _, requested, _⟩ := alike.symm.work_some isTaken
    cases passage with
    | aside _ same =>
        have wasIdle : round.isIdle other = true := same.isIdle.symm.trans idle
        refine .begin rested wasIdle (same.memo ▸ first) found isPhase requested ?_
        rw [tries, Node.tries, free]
        rfl
    | complete settled =>
        rw [isSettled, Node.isSettled, noResult] at settled
        cases settled
    | checking _ _ isWork | computing _ _ isWork =>
        rw [free] at isWork
        cases isWork
  · have same := logged.kept different fun asked =>
      eq_false_of_ne_true fun idle => joins (List.mem_filter.mpr ⟨asked, idle⟩)
    rw [if_neg joins, List.append_nil]
    exact passage.keep same tries

theorem callbacks_breakSignals {components : List (List κ)} (unique : components.flatten.Nodup) :
    callbacks key (components.flatMap breakSignals : List (Signal κ φ)) =
      if key ∈ components.flatten then [.finish key .cycleDetected] else [] := by
  induction components with
  | nil => rfl
  | cons component rest ih =>
      rw [List.flatten_cons, List.nodup_append] at unique
      obtain ⟨own, restUnique, apart⟩ := unique
      have first : callbacks key (breakSignals component : List (Signal κ φ)) =
          if key ∈ component then [.finish key .cycleDetected] else [] :=
        filter_map_of_nodup (fun _ => rfl) own
      rw [List.flatMap_cons, callbacks_append, first, ih restUnique]
      by_cases member : key ∈ component
      · have outside : key ∉ rest.flatten := fun inRest => apart key member key inRest rfl
        simp [member, outside]
      · simp [member]

theorem Passage.unblocked [BEq ν]
    (passage : Passage registry roots round before key told) (rested : Rested round.graph)
    (waiting : Waiting before []) :
    Passage registry roots round (before.breakDeadlock roots).1 key
      (told ++ if key ∈ before.broken roots then [.finish key .cycleDetected] else []) := by
  cases unblocked_breakDeadlock waiting roots key with
  | failed path broken _ alike =>
      obtain ⟨work, found⟩ := exists_work ((mem_broken roots waiting).mp broken).1
      rw [if_pos broken]
      have isResult : ((before.breakDeadlock roots).1.graph.nodeAt key).result? =
          some (.error (.cycle key path)) := alike.result?
      cases phase : work.phase with
      | checking group awaiting =>
          obtain ⟨rfl, dirty, _⟩ := passage.of_checking rested found phase
          refine .complete (Node.isSettled_of_result? isResult) ?_
          rw [Graph.result?_eq, isResult]
          exact .stuck dirty path
      | computing =>
          exact passage.finish rested found phase isResult fun _ _ _ _ => .stuck path
  | spared whole alike =>
      rw [if_neg whole, List.append_nil]
      exact passage.keep alike (tries_breakDeadlock waiting roots whole)

theorem Begun.passage (begun : Begun round roots after ready) (rested : Rested round.graph)
    (key : κ) : Passage registry roots round after key
      (if key ∈ roots then
        [if round.isIdle key then .start key else .finish key .cacheHit]
      else []) := by
  have node := begun.nodes key
  have tries := tries_begin begun key
  rw [Node.tries, Node.tries, rested key] at tries
  by_cases isRoot : key ∈ roots
  · rw [if_pos isRoot] at node ⊢
    cases idle : round.isIdle key with
    | true =>
        obtain ⟨phase, first, taken⟩ := Node.taken_of_idle idle
        rw [taken] at node
        have found : (after.graph.nodeAt key).work = some { phase } := by rw [node]
        exact .begin rested idle first found rfl rfl tries
    | false =>
        rw [Node.taken_of_not_idle idle] at node
        have settled := rested.isSettled idle
        refine .complete ?_ ?_
        · rw [isSettled, node]
          exact settled
        · have same : after.graph.result? key = round.graph.result? key := by
            rw [Graph.result?_eq, Graph.result?_eq, node]
          rw [same]
          exact .cached isRoot (Graph.isSettled_iff.mp settled)
  · rw [if_neg isRoot] at node ⊢
    exact .aside isRoot (node ▸ .refl _)

/-- What was told since a round opened is, for each key, what can be told of it
on its way. -/
def Narrated (registry : Registry κ ν φ) (roots : List κ) (round now : Round κ ν φ) : Prop :=
  ∃ signals, now.log.toList = round.log.toList ++ signals ∧
    ∀ key, Passage registry roots round now key (callbacks key signals)

section Narrated

theorem Narrated.begin (unique : roots.Nodup) (rested : Rested round.graph) :
    Narrated registry roots round (round.begin roots).1 := by
  refine ⟨_, round.log_begin unique, fun key => ?_⟩
  rw [callbacks_begun unique]
  exact (round.begin_spec unique).passage rested key

variable [BEq ν]

theorem Narrated.step (narrated : Narrated registry roots round before)
    (rested : Rested round.graph) (sound : Sound registry before ready) (member : key ∈ ready) :
    Narrated registry roots round (before.step registry key).1 := by
  obtain ⟨signals, told, passages⟩ := narrated
  obtain ⟨work, effect, more, found, report, logged⟩ := sound.reported member
  refine ⟨signals ++ more, by rw [logged.log, told, List.append_assoc], fun other => ?_⟩
  rw [callbacks_append]
  by_cases same : other = key
  · subst same
    exact (passages other).stepped rested (sound.underway other) found report logged
  · rw [report.callbacks_other same]
    exact (passages other).alongside rested logged same

theorem Narrated.unblock (narrated : Narrated registry roots round before)
    (rested : Rested round.graph) (waiting : Waiting before []) :
    Narrated registry roots round (before.breakDeadlock roots).1 := by
  obtain ⟨signals, told, passages⟩ := narrated
  have more := before.log_breakDeadlock waiting roots
  have unique := Digraph.nodup_cyclicComponents (closed_waits roots waiting)
  refine ⟨signals ++ _, by rw [more, told, List.append_assoc], fun key => ?_⟩
  rw [callbacks_append, callbacks_breakSignals unique]
  exact (passages key).unblocked rested waiting

theorem ComesTo.narrated {now : Round κ ν φ × List κ} (comes : ComesTo registry roots round now)
    (unique : roots.Nodup) (rested : Rested round.graph) :
    Sound registry now.1 now.2 ∧ Narrated registry roots round now.1 := by
  obtain ⟨ready, order, moves⟩ := comes
  obtain ⟨_, course⟩ := moves.course
  exact course.invariant (fun _ => Narrated registry roots round)
    (fun sound member _ _ _ narrated => narrated.step rested sound member)
    (fun sound narrated => narrated.unblock rested sound.waiting)
    (.begin unique rested order) (.begin unique rested)

theorem Ends.narrated {final : Round κ ν φ} (ends : Ends registry roots round final .complete)
    (unique : roots.Nodup) (rested : Rested round.graph) :
    Narrated registry roots round final := by
  obtain ⟨last, comes, unblocked⟩ := ends.unblocked unique rested
  obtain ⟨sound, narrated⟩ := comes.narrated unique rested
  have ended := narrated.unblock rested sound.waiting
  rwa [unblocked] at ended

end Narrated

section Ends

/-- A key that is not worked on has been told everything. -/
theorem Passage.ended (passage : Passage registry roots round now key told)
    (rested : (now.graph.nodeAt key).work = none) :
    Lifecycle registry roots round key (now.graph.result? key) told := by
  cases passage with
  | aside unwanted same =>
      have result : now.graph.result? key = round.graph.result? key := by
        rw [Graph.result?_eq, Graph.result?_eq, same.result?]
      rw [result]
      exact .aside unwanted
  | complete _ lifecycle => exact lifecycle
  | checking _ work found | computing _ work found =>
      rw [rested] at found
      cases found

theorem Passage.extends (passage : Passage registry roots round now key told) :
    ∃ rest result, Lifecycle registry roots round key result (told ++ rest) := by
  cases passage with
  | aside unwanted => exact ⟨[], _, .aside unwanted⟩
  | complete _ lifecycle => exact ⟨[], _, (List.append_nil told).symm ▸ lifecycle⟩
  | checking dirty => exact ⟨[.finish key .cycleDetected], _, .stuck dirty []⟩
  | computing idle _ _ _ restarts lacking =>
      exact ⟨[.finish key .cycleDetected], _,
        .computed (state?_of_idle idle) restarts lacking (.stuck [])⟩

end Ends

end MemoGraph.Round
