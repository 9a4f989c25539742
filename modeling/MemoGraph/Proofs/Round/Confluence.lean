import MemoGraph.Proofs.Round.Phases

namespace MemoGraph

namespace Node

variable {κ ν φ : Type} [BEq ν] {node other : Node κ ν φ}

theorem bare_commit (same : node.bare = other.bare) (version : Version) (result : Result κ ν φ)
    (dependencies : Grouping κ) :
    (node.commit version result dependencies).bare =
      (other.commit version result dependencies).bare := by
  have committed : ∀ given : Node κ ν φ, (given.commit version result dependencies).bare =
      (given.bare.commit version result dependencies).bare := fun _ => rfl
  rw [committed, same, ← committed]

end Node

namespace Round

variable {κ ν φ : Type} [Key κ] {left right base otherBase before after last : Round κ ν φ}
  {roots ready : List κ} {key : κ}

/-- The rounds differ at most in how far the work on each key has come, and in
who waits for whom. -/
structure Aligned (left right : Round κ ν φ) : Prop where
  version : left.version = right.version
  bare : ∀ key, (left.graph.nodeAt key).bare = (right.graph.nodeAt key).bare
  evaluating : ∀ key, left.isEvaluating key = right.isEvaluating key
  transient : ∀ key, key ∈ left.transient.toList ↔ key ∈ right.transient.toList

theorem Aligned.refl (round : Round κ ν φ) : Aligned round round :=
  ⟨rfl, fun _ => rfl, fun _ => rfl, fun _ => .rfl⟩

section Aligned

variable (aligned : Aligned left right)
include aligned

theorem Aligned.symm : Aligned right left :=
  ⟨aligned.version.symm, fun key => (aligned.bare key).symm,
    fun key => (aligned.evaluating key).symm, fun key => (aligned.transient key).symm⟩

theorem Aligned.isSettled (key : κ) : left.isSettled key = right.isSettled key := by
  have memo : (left.graph.nodeAt key).memo = (right.graph.nodeAt key).memo :=
    Node.memo_of_bare (aligned.bare key)
  have evaluating := aligned.evaluating key
  rw [isEvaluating_eq, isEvaluating_eq] at evaluating
  unfold Round.isSettled Node.isSettled Node.result?
  rw [memo]
  cases work : (left.graph.nodeAt key).work <;> cases other : (right.graph.nodeAt key).work <;>
    simp [work, other] at evaluating ⊢

theorem Aligned.isIdle (key : κ) : left.isIdle key = right.isIdle key := by
  rw [isIdle_eq, isIdle_eq, aligned.evaluating, aligned.isSettled]

theorem Aligned.extends : left.graph.Extends right.graph := by
  intro key settled
  have settledRight : right.isSettled key = true := (aligned.isSettled key).symm.trans settled
  refine Node.alike_of_bare (aligned.bare key).symm ?_ ?_
  · exact (Node.isSettled_iff.mp settledRight).1
  · exact (Node.isSettled_iff.mp settled).1

end Aligned

/-- Whatever is taken up in one round is taken up in the other, and has the same
result there if it has one. -/
structure Below (round other : Round κ ν φ) : Prop where
  kept : round.graph.Extends other.graph
  busy : ∀ key, round.isIdle key = false → other.isIdle key = false

section Below

variable [BEq ν] {registry : Registry κ ν φ} {work : Work κ φ} {effect : Effect κ ν φ}

/-- What a phase has come to for a key that was taken up, when nothing is ready. -/
theorem Since.outlook_at_rest (strict : registry.Strict) (since : Since registry base last)
    (resting : Sound registry last [])
    (unsettled : base.isSettled key = false) (busy : last.isIdle key = false) :
    (last.isSettled key = true ∧ ∃ retry,
      last.graph.outlook registry base.version key (base.graph.nodeAt key).bare =
          .settles ((last.graph.nodeAt key).bare, retry) ∧
        (key ∈ last.transient.toList ↔ key ∈ base.transient.toList ∨ retry = true)) ∨
    (last.isEvaluating key = true ∧
      last.graph.outlook registry base.version key (base.graph.nodeAt key).bare =
        .waits (last.graph.nodeAt key).leftover (last.awaited key)) := by
  cases settled : last.isSettled key with
  | true => exact .inl ⟨rfl, since.settled key unsettled settled⟩
  | false =>
      have evaluating : last.isEvaluating key = true := by
        rw [isIdle_eq, settled] at busy
        simpa using busy
      have waits := resting.toInOrder.waits strict resting.establishes evaluating
      rw [(since.same key (.inr settled)).1, since.version] at waits
      exact .inr ⟨evaluating, waits⟩

/-- Whatever a key that was taken up had to wait for is taken up when nothing is ready. -/
theorem Since.busy_of_waits (strict : registry.Strict) (since : Since registry base last)
    (resting : Sound registry last [])
    (unsettled : base.isSettled key = false) (busy : last.isIdle key = false)
    {earlier : Graph κ ν φ} (extended : earlier.Extends last.graph) {recorded : Grouping κ}
    {keys : List κ} (outlook : earlier.outlook registry base.version key
      (base.graph.nodeAt key).bare = .waits recorded keys) {other : κ} (listed : other ∈ keys) :
    last.isIdle other = false := by
  cases settled : last.isSettled other with
  | true => exact Node.not_idle_of_settled settled
  | false =>
      have missing : last.graph.lacks other = true := by
        rw [Graph.lacks_eq]
        exact congrArg Bool.not settled
      rcases Graph.outlook_waits strict extended outlook with present | waits
      · rw [present other listed] at missing
        cases missing
      · rcases since.outlook_at_rest strict resting unsettled busy with
          ⟨_, retry, isOutlook, _⟩ | ⟨_, isOutlook⟩
        · rw [waits] at isOutlook
          cases isOutlook
        · rw [waits] at isOutlook
          have awaited := (Outlook.waits.inj isOutlook).2
          have edge : other ∈ last.awaited key := by
            rw [← awaited]
            exact List.mem_filter.mpr ⟨listed, missing⟩
          exact not_isIdle_of_evaluating (mem_awaited.mp edge).2

/-- No step takes a round beyond what another one comes to by the end of the phase. -/
theorem Below.step (strict : registry.Strict) (below : Below before last)
    (aligned : Aligned base otherBase) (since : Since registry base before)
    (ahead : Since registry otherBase last) (resting : Sound registry last []) (sound : Sound registry before ready)
    (member : key ∈ ready)
    (found : (before.graph.nodeAt key).work = some work)
    (progress : Progress registry before key work effect)
    (moved : Moved before after key effect) : Below after last := by
  have underway := sound.underway key
  have taken : (before.graph.nodeAt key).work.isSome = true := by simp [found]
  have unsettled : before.isSettled key = false := Node.not_settled_of_work taken
  have bare : (before.graph.nodeAt key).bare = (otherBase.graph.nodeAt key).bare :=
    (since.same key (.inr unsettled)).1.trans (aligned.bare key)
  have version : before.version = otherBase.version := since.version.trans aligned.version
  have fresh : otherBase.isSettled key = false := by
    rw [← aligned.isSettled]
    exact since.unsettled unsettled
  have isBusy : last.isIdle key = false := below.busy key (Node.not_idle_of_work taken)
  constructor
  case kept =>
    intro other settled
    by_cases isKey : other = key
    · subst isKey
      have ownSettled : effect.own.isSettled = true := moved.self.isSettled.symm.trans settled
      have outlook := progress.settles strict found underway (sound.establishes other work found)
        (sound.batch_present member found) ownSettled
      rw [bare, version] at outlook
      have later := Graph.outlook_settles strict below.kept outlook
      -- At rest the key has what its outlook promised, and more results do not change that.
      rcases ahead.outlook_at_rest strict resting fresh isBusy with
        ⟨isSettled, retry, isOutlook, _⟩ | ⟨_, waits⟩
      · rw [later] at isOutlook
        have same := (Prod.mk.inj (Outlook.settles.inj isOutlook)).1
        refine (Node.alike_of_bare same.symm ?_ ?_).trans moved.self.symm
        · exact (Node.isSettled_iff.mp isSettled).1
        · exact (Node.isSettled_iff.mp ownSettled).1
      · rw [later] at waits
        cases waits
    · obtain ⟨_, same, _⟩ := moved.other_bare isKey
      have still : (before.graph.nodeAt other).isSettled = true := same.symm.trans settled
      exact (below.kept other still).trans (moved.extends found other still).symm
  case busy =>
    intro other busy
    cases idle : before.isIdle other with
    | false => exact below.busy other idle
    | true =>
        have different : other ≠ key := by
          rintro rfl
          unfold isIdle at idle
          rw [Node.not_idle_of_work taken] at idle
          cases idle
        rcases moved.other different with alike | ⟨asked, _⟩
        · have stays : after.isIdle other = true := alike.isIdle.trans idle
          rw [busy] at stays
          cases stays
        · have lacks : before.graph.lacks other = true := by
            rw [Graph.lacks_eq, Node.isSettled, (Node.isIdle_iff.mp idle).2]
            rfl
          obtain ⟨recorded, keys, outlook, listed⟩ :=
            progress.asks strict found underway (sound.establishes key work found) asked lacks
          rw [bare, version] at outlook
          exact ahead.busy_of_waits strict resting fresh isBusy below.kept outlook listed

/-- Up to the end of a phase, no order of steps leads beyond what another leads to. -/
theorem Aligned.below (strict : registry.Strict) (aligned : Aligned base otherBase)
    (sound : Sound registry base ready) {now : Round κ ν φ × List κ}
    (works : Works registry roots (base, ready) now) (ahead : Since registry otherBase last)
    (resting : Sound registry last []) : Below now.1 last := by
  refine (sound.throughout (fun now => Since registry base now ∧ Below now last)
    works ?_ ⟨.refl base, ?_, ?_⟩).2.2
  · intro before after ready key work effect order member found progress moved held
    exact ⟨held.1.step strict order member found progress moved,
      held.2.step strict aligned held.1 ahead resting order member found progress moved⟩
  · intro key settled
    have alike := aligned.extends key settled
    exact (ahead.kept key (alike.isSettled.trans settled)).trans alike
  · exact fun key busy => ahead.busy key ((aligned.isIdle key).symm.trans busy)

end Below

section Rest

variable [BEq ν] {registry : Registry κ ν φ} {readyOther : List κ}

/-- In whatever order the keys of a phase are stepped, it comes to the same. -/
theorem Aligned.rest (strict : registry.Strict) (aligned : Aligned base otherBase)
    (since : Since registry base left) (sinceOther : Since registry otherBase right)
    (below : Below left right) (above : Below right left) : Aligned left right := by
  have settled : ∀ key, left.isSettled key = right.isSettled key := fun key =>
    Bool.eq_iff_iff.mpr ⟨fun isSettled => (below.kept key isSettled).isSettled.trans isSettled,
      fun isSettled => (above.kept key isSettled).isSettled.trans isSettled⟩
  have idle : ∀ key, left.isIdle key = right.isIdle key := by
    intro key
    have busy : left.isIdle key = false ↔ right.isIdle key = false :=
      ⟨below.busy key, above.busy key⟩
    cases isLeft : left.isIdle key <;> cases isRight : right.isIdle key <;>
      simp [isLeft, isRight] at busy ⊢
  constructor
  case version => exact since.version.trans (aligned.version.trans sinceOther.version.symm)
  case bare =>
    intro key
    cases isSettled : left.isSettled key with
    | true => exact (below.kept key isSettled).bare.symm
    | false =>
        have notSettled := (settled key).symm.trans isSettled
        rw [(since.same key (.inr isSettled)).1, (sinceOther.same key (.inr notSettled)).1,
          aligned.bare]
  case evaluating =>
    intro key
    rw [isEvaluating_eq_busy, isEvaluating_eq_busy, idle, settled]
  case transient =>
    intro key
    by_cases stays : base.isSettled key = true ∨ left.isSettled key = false
    · have staysOther : otherBase.isSettled key = true ∨ right.isSettled key = false := by
        rwa [← aligned.isSettled, ← settled]
      rw [(since.same key stays).2, (sinceOther.same key staysOther).2, aligned.transient]
    · rw [not_or, Bool.not_eq_true, Bool.not_eq_false] at stays
      obtain ⟨fresh, isSettled⟩ := stays
      have freshOther : otherBase.isSettled key = false := (aligned.isSettled key).symm.trans fresh
      obtain ⟨retry, outlook, retried⟩ := since.settled key fresh isSettled
      obtain ⟨retryOther, outlookOther, retriedOther⟩ :=
        sinceOther.settled key freshOther ((settled key).symm.trans isSettled)
      have later := Graph.outlook_settles strict below.kept outlook
      rw [aligned.version, aligned.bare, outlookOther] at later
      have same := (Prod.mk.inj (Outlook.settles.inj later)).2
      rw [retried, retriedOther, same, aligned.transient]

/-- So two orders of the steps of one phase lead to aligned rounds. -/
theorem Aligned.works (strict : registry.Strict) (aligned : Aligned base otherBase)
    (sound : Sound registry base ready) (soundOther : Sound registry otherBase readyOther)
    (works : Works registry roots (base, ready) (left, []))
    (worksOther : Works registry roots (otherBase, readyOther) (right, [])) :
    Aligned left right := by
  obtain ⟨resting, since⟩ := sound.since strict works
  obtain ⟨restingOther, sinceOther⟩ := soundOther.since strict worksOther
  refine aligned.rest strict since sinceOther ?_ ?_
  · exact aligned.below strict sound works sinceOther restingOther
  · exact aligned.symm.below strict soundOther worksOther since resting

end Rest

section Break

theorem lacks_of_evaluating (evaluating : left.isEvaluating key = true) :
    left.graph.lacks key = true := by
  rw [Graph.lacks_eq]
  exact congrArg Bool.not (not_isSettled_of_evaluating evaluating)

theorem awaited_of_not_evaluating (free : left.isEvaluating key = false) :
    left.awaited key = [] := by
  rw [awaited_eq, batch_of_not_evaluating free]
  rfl

variable [BEq ν] {registry : Registry κ ν φ}

section Resting

variable (strict : registry.Strict) (aligned : Aligned left right)
  (resting : Sound registry left []) (restingOther : Sound registry right [])
include strict aligned resting restingOther

/-- Aligned rounds wait for the same when nothing is ready. -/
theorem Aligned.waits (evaluating : left.isEvaluating key = true) :
    (left.graph.nodeAt key).leftover = (right.graph.nodeAt key).leftover ∧
      left.awaited key = right.awaited key := by
  have evaluatingOther : right.isEvaluating key = true := aligned.evaluating key ▸ evaluating
  have lacks : ∀ dependency ∈ left.awaited key, right.graph.lacks dependency = true := by
    intro dependency edge
    have busy := (mem_awaited.mp edge).2
    rw [aligned.evaluating] at busy
    exact lacks_of_evaluating busy
  have waits := resting.toInOrder.waits strict resting.establishes evaluating
  have waitsOther := restingOther.toInOrder.waits strict restingOther.establishes evaluatingOther
  rw [← aligned.version, ← aligned.bare] at waitsOther
  rcases Graph.outlook_waits strict aligned.extends waits with present | still
  · obtain ⟨dependency, edge⟩ := exists_awaited resting.waiting evaluating
    have missing := lacks dependency edge
    rw [present dependency edge] at missing
    cases missing
  · rw [waitsOther, List.filter_eq_self.mpr lacks] at still
    obtain ⟨leftover, awaited⟩ := Outlook.waits.inj still
    exact ⟨leftover.symm, awaited.symm⟩

theorem Aligned.awaited (key : κ) : left.awaited key = right.awaited key := by
  cases evaluating : left.isEvaluating key with
  | true =>
      exact (aligned.waits strict resting restingOther evaluating).2
  | false =>
      rw [awaited_of_not_evaluating evaluating,
        awaited_of_not_evaluating ((aligned.evaluating key).symm.trans evaluating)]

variable (roots)

/-- The same keys fail, for the same reasons. -/
theorem Aligned.mem_cycleFailuresAt (failure : Failure κ φ) :
    failure ∈ left.cycleFailuresAt roots ↔ failure ∈ right.cycleFailuresAt roots := by
  have awaited := aligned.awaited strict resting restingOther
  constructor
  · exact mem_cycleFailuresAt_of_awaited roots resting.waiting restingOther.waiting
      aligned.evaluating awaited
  · exact mem_cycleFailuresAt_of_awaited roots restingOther.waiting resting.waiting
      aligned.symm.evaluating fun key => (awaited key).symm

theorem Aligned.breakDeadlock :
    Aligned (left.breakDeadlock roots).1 (right.breakDeadlock roots).1 := by
  have failed := failed_breakDeadlock resting.waiting roots
  have failedOther := failed_breakDeadlock restingOther.waiting roots
  have same := aligned.mem_cycleFailuresAt roots strict resting restingOther
  have broken := mem_broken_congr roots same
  constructor
  case version => exact failed.version.trans (aligned.version.trans failedOther.version.symm)
  case bare =>
    intro key
    cases unblocked_breakDeadlock resting.waiting roots key with
    | failed path isBroken isFailure alike =>
        have evaluating := ((mem_broken roots resting.waiting).mp isBroken).1
        have leftover := (aligned.waits strict resting restingOther evaluating).1
        have alikeOther := failedOther.self _ ((same _).mp isFailure)
        rw [Failure.key, ← leftover, ← aligned.version] at alikeOther
        rw [alike.bare, alikeOther.bare]
        exact Node.bare_commit (aligned.bare key) ..
    | spared whole alike =>
        have unblocked := unblocked_breakDeadlock restingOther.waiting roots key
        rw [alike.bare, (unblocked.alike (by rwa [← broken])).bare, aligned.bare]
  case evaluating =>
    intro key
    rw [isEvaluating_breakDeadlock resting.waiting, isEvaluating_breakDeadlock restingOther.waiting,
      aligned.evaluating]
    simp only [broken]
  case transient =>
    intro key
    rw [failed.transient, failedOther.transient, aligned.transient]
    simp only [same]

end Resting

/-- Rounds that begin alike end alike, in whatever order their keys are stepped. -/
theorem Phased.aligned (strict : registry.Strict) {now other : Round κ ν φ × List κ}
    {lastOther : Round κ ν φ} (phased : Phased registry roots now last)
    (phasedOther : Phased registry roots other lastOther) (aligned : Aligned now.1 other.1)
    (sound : Sound registry now.1 now.2) (soundOther : Sound registry other.1 other.2)
    (finished : (last.breakDeadlock roots).2 = [])
    (finishedOther : (lastOther.breakDeadlock roots).2 = []) :
    Aligned (last.breakDeadlock roots).1 (lastOther.breakDeadlock roots).1 := by
  refine phased.related strict phasedOther Aligned ?_ aligned sound soundOther finished finishedOther
  intro base otherBase left right ready readyOther aligned sound soundOther works worksOther
  have resting := (sound.since strict works).1
  have restingOther := (soundOther.since strict worksOther).1
  have atRest := aligned.works strict sound soundOther works worksOther
  have broken := atRest.breakDeadlock roots strict resting restingOther
  exact ⟨broken, broken.evaluating⟩

end Break

section Ends

variable [BEq ν] {registry : Registry κ ν φ} {round final finalOther : Round κ ν φ}

/-- A round that is not cut short goes through its phases. -/
theorem Ends.phased (ends : Ends registry roots round final .complete) (unique : roots.Nodup)
    (rested : Rested round.graph) : ∃ ready last, ready.Perm (round.begin roots).2 ∧
      Phased registry roots ((round.begin roots).1, ready) last ∧
      (last.breakDeadlock roots).2 = [] ∧ final = (last.breakDeadlock roots).1 := by
  cases ends with
  | cached nothing =>
      have begun := round.begin_spec unique
      have idle : ∀ key, (round.begin roots).1.isEvaluating key = false := by
        intro key
        rw [← Bool.not_eq_true, ← begun.mem_ready rested, nothing]
        exact List.not_mem_nil
      refine ⟨[], _, by rw [nothing], .last .refl, ?_, ?_⟩
      · rw [breakDeadlock_of_idle roots idle]
      · rw [breakDeadlock_of_idle roots idle]
  | complete order moves going finished =>
      exact ⟨_, _, order, .of_advances moves, finished, rfl⟩
  | cut _ _ short => exact absurd rfl short

/-- In whatever order the keys of a round are stepped, it comes to the same. -/
theorem Ends.aligned (strict : registry.Strict) (unique : roots.Nodup) (rested : Rested round.graph)
    (ends : Ends registry roots round final .complete)
    (endsOther : Ends registry roots round finalOther .complete) : Aligned final finalOther := by
  obtain ⟨ready, last, order, phased, finished, rfl⟩ := ends.phased unique rested
  obtain ⟨_, _, orderOther, phasedOther, finishedOther, rfl⟩ := endsOther.phased unique rested
  exact phased.aligned strict phasedOther (.refl _) (.begin unique rested order)
    (.begin unique rested orderOther) finished finishedOther

end Ends

end Round

end MemoGraph
