import MemoGraph.Proofs.Round.Endings

namespace MemoGraph

variable {κ ν φ : Type} [Key κ]

namespace Graph

variable {before after graph : Graph κ ν φ} {key : κ}

/-- Whatever has a result keeps it. -/
def Extends (before after : Graph κ ν φ) : Prop :=
  ∀ key, (before.nodeAt key).isSettled = true → (after.nodeAt key).Alike (before.nodeAt key)

/-- The dependency has a result that did not change since the key was evaluated. -/
def Upheld (graph : Graph κ ν φ) (key dependency : κ) : Prop :=
  (graph.nodeAt dependency).isSettled = true ∧
    (graph.nodeAt dependency).lastChanged ≤ (graph.nodeAt key).lastEvaluated

/-- All recorded dependencies before the given group are upheld. -/
def UpheldBefore (graph : Graph κ ν φ) (key : κ) (group : Nat) : Prop :=
  ∀ earlier < group, ∀ dependencies,
    (graph.nodeAt key).dependencies.group? earlier = some dependencies →
      ∀ dependency ∈ dependencies, graph.Upheld key dependency

/-- The first group of dependencies with a change has results throughout. -/
def Refuted (graph : Graph κ ν φ) (key : κ) : Prop :=
  ∃ group dependencies, graph.UpheldBefore key group ∧
    (graph.nodeAt key).dependencies.group? group = some dependencies ∧
    (∀ dependency ∈ dependencies, (graph.nodeAt dependency).isSettled = true) ∧
    ∃ dependency ∈ dependencies, ¬ graph.Upheld key dependency

theorem Extends.refl (graph : Graph κ ν φ) : graph.Extends graph := fun _ _ => .refl _

theorem Extends.trans {middle : Graph κ ν φ} (left : before.Extends middle)
    (right : middle.Extends after) : before.Extends after := by
  intro key settled
  have alike := left key settled
  exact (right key (alike.isSettled.trans settled)).trans alike

theorem Extends.result? (extended : before.Extends after) {result : Result κ ν φ}
    (found : (before.nodeAt key).result? = some result) :
    (after.nodeAt key).result? = some result := by
  have settled : (before.nodeAt key).isSettled = true := by
    rw [Node.isSettled, found]
    rfl
  rw [(extended key settled).result?, found]

theorem UpheldBefore.succ {group : Nat} {dependencies : List κ}
    (upheld : graph.UpheldBefore key group)
    (recorded : (graph.nodeAt key).dependencies.group? group = some dependencies)
    (holds : ∀ dependency ∈ dependencies, graph.Upheld key dependency) :
    graph.UpheldBefore key (group + 1) := by
  intro earlier isEarlier others isRecorded dependency member
  rcases Nat.lt_succ_iff_lt_or_eq.mp isEarlier with before | rfl
  · exact upheld earlier before others isRecorded dependency member
  · rw [recorded, Option.some.injEq] at isRecorded
    exact holds dependency (isRecorded ▸ member)

section Extends

variable (extended : before.Extends after)
  (same : (after.nodeAt key).dependencies = (before.nodeAt key).dependencies ∧
    (after.nodeAt key).lastEvaluated = (before.nodeAt key).lastEvaluated)
include extended same

theorem Upheld.extend {dependency : κ} (settled : (before.nodeAt dependency).isSettled = true) :
    after.Upheld key dependency ↔ before.Upheld key dependency := by
  unfold Upheld
  rw [(extended dependency settled).isSettled, (extended dependency settled).lastChanged, same.2]

theorem UpheldBefore.extend {group : Nat} (upheld : before.UpheldBefore key group) :
    after.UpheldBefore key group := by
  intro earlier isEarlier dependencies recorded dependency member
  rw [same.1] at recorded
  have holds := upheld earlier isEarlier dependencies recorded dependency member
  exact (Upheld.extend extended same holds.1).mpr holds

theorem Refuted.extend (refuted : before.Refuted key) : after.Refuted key := by
  obtain ⟨group, dependencies, upheld, recorded, settled, dependency, member, changed⟩ := refuted
  refine ⟨group, dependencies, upheld.extend extended same, same.1 ▸ recorded, ?_, dependency,
    member, ?_⟩
  · intro other isMember
    rw [(extended other (settled other isMember)).isSettled]
    exact settled other isMember
  · rwa [Upheld.extend extended same (settled dependency member)]

end Extends

end Graph

namespace Round

/-! What the work on a key has established at any time of a round.

A key that is checked found the groups before its present one upheld. A key
that is computed although it had a result was refuted, and what it asked for
is what a run of its function asked for when fewer results were there.
-/

variable {round before after : Round κ ν φ} {key other : κ} {work : Work κ φ}
  {registry : Registry κ ν φ}

/-- The work carries on a run of the function against results that still hold. -/
def Tried (registry : Registry κ ν φ) (graph : Graph κ ν φ) (key : κ) (work : Work κ φ) : Prop :=
  ∃ function run results, registry.function? key = some function ∧
    (∀ dependency result, results dependency = some result →
      (graph.nodeAt dependency).result? = some result) ∧
    work.requested = (Attempt.run results key (function run) {}).1.requested ∧
    work.handlers = (Attempt.run results key (function run) {}).1.handlers ∧
    work.batch = (Attempt.run results key (function run) {}).1.missing ∧ work.batch ≠ []

structure Established (registry : Registry κ ν φ) (graph : Graph κ ν φ) (key : κ)
    (work : Work κ φ) : Prop where
  upheld : ∀ group awaiting, work.phase = .checking group awaiting → graph.UpheldBefore key group
  batch : ∀ group awaiting, work.phase = .checking group awaiting →
    if awaiting then (graph.nodeAt key).dependencies.group? group = some work.batch
    else work.batch = []
  untried : ∀ group awaiting, work.phase = .checking group awaiting →
    work.requested = .empty ∧ work.handlers = []
  refuted : ∀ result, work.phase = .computing → (graph.nodeAt key).memo = .dirty result →
    graph.Refuted key
  tried : work.phase = .computing →
    (work.requested = .empty ∧ work.handlers = [] ∧ work.batch = []) ∨
      Tried registry graph key work

/-- Work that begins has nothing to go by. -/
theorem Established.of_fresh {phase : Phase} {graph : Graph κ ν φ}
    (first : Node.firstPhase? (graph.nodeAt key).memo = some phase) :
    Established registry graph key { phase } := by
  refine ⟨?_, ?_, fun _ _ _ => ⟨rfl, rfl⟩, ?_, fun _ => .inl ⟨rfl, rfl, rfl⟩⟩
  · rintro group awaiting rfl earlier isEarlier
    cases memo : (graph.nodeAt key).memo <;> rw [memo] at first <;> cases first
    exact absurd isEarlier (Nat.not_lt_zero earlier)
  · rintro group awaiting rfl
    cases memo : (graph.nodeAt key).memo <;> rw [memo] at first <;> cases first
    rfl
  · rintro result rfl memo
    rw [memo] at first
    cases first

/-- Nothing that was established is lost while results stay. -/
theorem Established.extend {before after : Graph κ ν φ} {later : Work κ φ}
    (established : Established registry before key work) (extended : before.Extends after)
    (memo : (after.nodeAt key).memo = (before.nodeAt key).memo)
    (same : (after.nodeAt key).dependencies = (before.nodeAt key).dependencies ∧
      (after.nodeAt key).lastEvaluated = (before.nodeAt key).lastEvaluated)
    (phase : later.phase = work.phase) (batch : later.batch = work.batch)
    (requested : later.requested = work.requested) (handlers : later.handlers = work.handlers) :
    Established registry after key later := by
  constructor
  · intro group awaiting checking
    exact (established.upheld group awaiting (phase ▸ checking)).extend extended same
  · rw [phase, batch, same.1]
    exact established.batch
  · rw [phase, requested, handlers]
    exact established.untried
  · rw [phase, memo]
    exact fun result computing dirty =>
      (established.refuted result computing dirty).extend extended same
  · unfold Tried
    rw [phase, batch, requested, handlers]
    intro computing
    refine (established.tried computing).imp_right ?_
    rintro ⟨function, run, results, registered, earlier, recorded⟩
    exact ⟨function, run, results, registered,
      fun dependency result found => extended.result? (earlier dependency result found), recorded⟩

theorem Established.refute {graph : Graph κ ν φ} {group : Nat} {awaiting : Bool}
    (established : Established registry before.graph key work)
    (phase : work.phase = .checking group awaiting) (refuted : graph.Refuted key) :
    Established registry graph key { work with batch := [], phase := .computing } := by
  have untried := established.untried group awaiting phase
  constructor
  case refuted => exact fun _ _ _ => refuted
  case tried => exact fun _ => .inl ⟨untried.1, untried.2, rfl⟩
  all_goals
    intros
    contradiction

theorem Established.advance {graph : Graph κ ν φ} {group : Nat} {awaiting : Bool}
    (established : Established registry before.graph key work)
    (phase : work.phase = .checking group awaiting)
    (upheld : graph.UpheldBefore key (group + 1)) :
    Established registry graph key
      { work with batch := [], phase := .checking (group + 1) false } := by
  constructor
  case upheld =>
    rintro _ _ ⟨⟩
    exact upheld
  case batch =>
    rintro _ _ ⟨⟩
    rfl
  case untried => exact fun _ _ _ => established.untried group awaiting phase
  all_goals
    intros
    contradiction

/-- What a round has established about all keys that it works on. -/
def Establishes (registry : Registry κ ν φ) (round : Round κ ν φ) : Prop :=
  ∀ key work, (round.graph.nodeAt key).work = some work →
    Established registry round.graph key work

theorem Moved.extends {effect : Effect κ ν φ} (moved : Moved before after key effect)
    (found : (before.graph.nodeAt key).work = some work) : before.graph.Extends after.graph := by
  intro other settled
  have different : other ≠ key := by
    rintro rfl
    rw [Node.not_settled_of_work (by simp [found])] at settled
    cases settled
  exact moved.kept different fun _ => Node.not_idle_of_settled settled

theorem Moved.established {effect : Effect κ ν φ} (moved : Moved before after key effect)
    (found : (before.graph.nodeAt key).work = some work)
    (establishes : Establishes registry before) (different : other ≠ key) {later : Work κ φ}
    (isWork : (after.graph.nodeAt other).work = some later) :
    Established registry after.graph other later := by
  have extended := moved.extends found
  rcases moved.other different with alike | ⟨_, _, phase, first, alike⟩
  · obtain ⟨same, isSame, phase, batch, requested, handlers⟩ := alike.work_some isWork
    exact (establishes other same isSame).extend extended alike.memo
      ⟨alike.dependencies, alike.lastEvaluated⟩ phase.symm batch.symm requested.symm handlers.symm
  · obtain ⟨same, isFirst, samePhase, batch, requested, handlers⟩ := alike.work_some isWork
    cases isFirst
    have fresh : Established registry after.graph other { phase } := by
      refine .of_fresh ?_
      rw [alike.memo]
      exact first
    exact fresh.extend (fun _ _ => .refl _) rfl ⟨rfl, rfl⟩ samePhase.symm batch.symm
      requested.symm handlers.symm

theorem changedSince_eq_false_iff {since : Version} {dependency : κ} :
    round.changedSince since dependency = false ↔
      (round.graph.nodeAt dependency).isSettled = true ∧
        (round.graph.nodeAt dependency).lastChanged ≤ since := by
  unfold changedSince
  by_cases known : dependency ∈ round.graph.keys
  · rw [Graph.node?_of_mem known]
    simp
  · have absent : round.graph.node? dependency = none := by
      cases found : round.graph.node? dependency with
      | none => rfl
      | some node => exact absurd (Graph.mem_keys.mpr (by simp [found])) known
    rw [absent, Graph.nodeAt_of_not_mem known]
    simp [Node.isSettled, Node.result?]

section Step

variable [BEq ν] {effect : Effect κ ν φ}

/-- What is established about the key that is stepped. -/
theorem Progress.established (progress : Progress registry before key work effect)
    (moved : Moved before after key effect)
    (found : (before.graph.nodeAt key).work = some work)
    (establishes : Establishes registry before)
    (batch : ∀ dependency ∈ work.batch, before.isSettled dependency = true) {later : Work κ φ}
    (isWork : (after.graph.nodeAt key).work = some later) :
    Established registry after.graph key later := by
  have extended := moved.extends found
  have established := establishes key work found
  obtain ⟨own, isOwn, samePhase, sameBatch, sameRequested, sameHandlers⟩ :=
    moved.self.work_some isWork
  have memo := moved.self.memo
  have same : (after.graph.nodeAt key).dependencies = effect.own.dependencies ∧
      (after.graph.nodeAt key).lastEvaluated = effect.own.lastEvaluated :=
    ⟨moved.self.dependencies, moved.self.lastEvaluated⟩
  suffices goal : Established registry after.graph key own from
    goal.extend (fun _ _ => .refl _) rfl ⟨rfl, rfl⟩ samePhase.symm sameBatch.symm
      sameRequested.symm sameHandlers.symm
  cases progress with
  | await group dependencies phase recorded =>
      rw [Node.updateWork_work_of_work _ found, Option.some.injEq] at isOwn
      subst isOwn
      constructor
      case upheld =>
        rintro _ _ ⟨⟩
        exact (established.upheld group false phase).extend extended same
      case batch =>
        rintro _ _ ⟨⟩
        rw [if_pos rfl, same.1]
        exact recorded
      case untried =>
        rintro _ _ ⟨⟩
        exact established.untried group false phase
      all_goals
        intros
        contradiction
  | compare group dependencies phase recorded =>
      rw [Node.updateWork_work_of_work _ found, Option.some.injEq] at isOwn
      subst isOwn
      have awaited := established.batch group true phase
      rw [if_pos rfl, recorded, Option.some.injEq] at awaited
      rw [← awaited] at batch
      have upheld := (established.upheld group true phase).extend extended same
      have recordedAfter : (after.graph.nodeAt key).dependencies.group? group =
          some dependencies := by
        rw [same.1]
        exact recorded
      have changed : ∀ dependency ∈ dependencies,
          before.changedSince (before.graph.nodeAt key).lastEvaluated dependency = false ↔
            after.graph.Upheld key dependency := by
        intro dependency member
        rw [changedSince_eq_false_iff, Graph.Upheld.extend extended same (batch dependency member)]
        rfl
      cases any : dependencies.any
          (before.changedSince (before.graph.nodeAt key).lastEvaluated) with
      | true =>
          obtain ⟨dependency, member, isChanged⟩ := List.any_eq_true.mp any
          refine established.refute phase ⟨group, dependencies, upheld, recordedAfter,
            fun other isMember => ?_, dependency, member, fun holds => ?_⟩
          · rw [(extended other (batch other isMember)).isSettled]
            exact batch other isMember
          · rw [(changed dependency member).mpr holds] at isChanged
            cases isChanged
      | false =>
          refine established.advance phase (upheld.succ recordedAfter fun dependency member => ?_)
          refine (changed dependency member).mp (eq_false_of_ne_true fun isChanged => ?_)
          exact Bool.false_ne_true (any.symm.trans (List.any_eq_true.mpr ⟨_, member, isChanged⟩))
  | restart function attempt outcome phase handled registered run verdict =>
      rw [Node.updateWork_work_of_work _ found, Option.some.injEq] at isOwn
      subst isOwn
      constructor
      case refuted =>
        intro result _ dirty
        rw [memo] at dirty
        exact (established.refuted result phase dirty).extend extended same
      case tried =>
        refine fun _ => .inr ⟨function, before.runs, before.graph.result?, registered,
          fun dependency result isResult => ?_, ?_⟩
        · rw [Graph.result?_eq] at isResult
          exact extended.result? isResult
        · rw [run]
          exact ⟨rfl, rfl, rfl, verdict_restart verdict⟩
      all_goals
        intro group awaiting checking
        rw [phase] at checking
        cases checking
  | _ => cases isOwn

omit [BEq ν] in
theorem InOrder.settled_of_batch {ready : List κ} (inOrder : InOrder before ready)
    (member : key ∈ ready) (found : (before.graph.nodeAt key).work = some work) :
    ∀ dependency ∈ work.batch, before.isSettled dependency = true := by
  intro dependency inBatch
  refine inOrder.waiting.batch_settled member dependency ?_
  unfold batch
  rw [found]
  exact inBatch

theorem Establishes.step {ready : List κ} (inOrder : InOrder before ready) (member : key ∈ ready)
    (establishes : Establishes registry before)
    (found : (before.graph.nodeAt key).work = some work)
    (progress : Progress registry before key work effect)
    (moved : Moved before after key effect) : Establishes registry after := by
  intro other later isWork
  by_cases same : other = key
  · subst same
    exact progress.established moved found establishes (inOrder.settled_of_batch member found) isWork
  · exact moved.established found establishes same isWork

omit [BEq ν] in
theorem Begun.establishes {roots ready : List κ} (begun : Begun before roots after ready)
    (rested : Rested before.graph) : Establishes registry after := by
  intro key work found
  rw [begun.nodes] at found
  cases taken : decide (key ∈ roots) && (before.graph.nodeAt key).isIdle with
  | true =>
      obtain ⟨isRoot, idle⟩ := Bool.and_eq_true_iff.mp taken
      rw [if_pos (of_decide_eq_true isRoot)] at found
      obtain ⟨phase, first, isTaken⟩ := Node.taken_of_idle idle
      rw [isTaken] at found
      cases found
      refine .of_fresh ?_
      rw [begun.nodes, if_pos (of_decide_eq_true isRoot), isTaken]
      exact first
  | false =>
      have free : (before.graph.nodeAt key).work = some work := by
        split at found
        · rename_i isRoot
          have busy : (before.graph.nodeAt key).isIdle = false := by simpa [isRoot] using taken
          rwa [Node.taken_of_not_idle busy] at found
        · exact found
      rw [rested key] at free
      cases free

theorem Failed.extends {failures : List (Failure κ φ)} (failed : Failed before failures after)
    (busy : ∀ failure ∈ failures, before.isEvaluating failure.key = true) :
    before.graph.Extends after.graph := by
  intro key settled
  refine failed.others key fun member => ?_
  obtain ⟨failure, isFailure, rfl⟩ := List.mem_map.mp member
  have unsettled := not_isSettled_of_evaluating (busy failure isFailure)
  unfold isSettled at unsettled
  rw [settled] at unsettled
  cases unsettled

theorem Establishes.fail {failures : List (Failure κ φ)} (failed : Failed before failures after)
    (busy : ∀ failure ∈ failures, before.isEvaluating failure.key = true)
    (establishes : Establishes registry before) : Establishes registry after := by
  intro key work found
  by_cases member : key ∈ failures.map Failure.key
  · obtain ⟨failure, isFailure, rfl⟩ := List.mem_map.mp member
    rw [(failed.self failure isFailure).work_none.mpr rfl] at found
    cases found
  · have alike := failed.others key member
    obtain ⟨same, isSame, phase, batch, requested, handlers⟩ := alike.work_some found
    exact (establishes key same isSame).extend (failed.extends busy) alike.memo
      ⟨alike.dependencies, alike.lastEvaluated⟩ phase.symm batch.symm requested.symm handlers.symm

end Step

end Round

end MemoGraph
