import MemoGraph.Proofs.Graph.Grounds
import MemoGraph.Proofs.Groups
import MemoGraph.Proofs.Round.Establishing

namespace MemoGraph

variable {κ ν φ : Type}

namespace Node

variable {node : Node κ ν φ}

theorem Fades.taken (version : Version) : Fades version node node.taken := by
  cases idle : node.isIdle with
  | false =>
      rw [taken_of_not_idle idle]
      exact .refl version node
  | true =>
      obtain ⟨phase, _, taken⟩ := taken_of_idle idle
      rw [taken]
      refine .of_work _ ?_
      rw [(isIdle_iff.mp idle).2]
      rfl

theorem Fades.updateWork (version : Version) (change : Work κ φ → Work κ φ) :
    Fades version node (node.updateWork change) :=
  .of_work _ (updateWork_result? ..)

theorem not_transient_committed [BEq ν] (result : Result κ ν φ) :
    Round.isTransient (node.committed result) = Round.isTransient result := by
  cases result with
  | error failure => rfl
  | ok value =>
      unfold committed keeps
      cases node.memo.result? with
      | none => rfl
      | some old =>
          cases old with
          | error failure => rfl
          | ok old =>
              simp only
              split <;> rfl

end Node

namespace Round

variable [Key κ] {backing : Backing κ ν φ} {before after : Round κ ν φ} {key : κ}
  {work : Work κ φ} {registry : Registry κ ν φ} {effect : Effect κ ν φ}

/-- The results of a round rest on results that did not change since. -/
abbrev Grounded (backing : Backing κ ν φ) (round : Round κ ν φ) : Prop :=
  Graph.Grounded backing round.graph round.version

theorem Established.requested (established : Established registry before.graph key work)
    (batch : ∀ dependency ∈ work.batch, before.isSettled dependency = true)
    (phase : work.phase = .computing) :
    ∀ dependency ∈ work.requested, before.isSettled dependency = true := by
  intro dependency member
  rcases established.tried phase with ⟨empty, _⟩ | ⟨function, run, results, _, earlier, asked⟩
  · rw [empty] at member
    exact absurd member (Grouping.not_mem_empty dependency)
  · obtain ⟨requested, _, missing, _⟩ := asked
    have faithful := Attempt.faithful_run results key (function run)
    cases found : results dependency with
    | some result => exact Node.isSettled_of_result? (earlier dependency result found)
    | none =>
        refine batch dependency ?_
        rw [missing]
        exact (faithful.mem_missing dependency).mpr ⟨requested ▸ member, found⟩

/-- A key whose groups are all upheld is not outdated. -/
theorem upheld_of_last {group : Nat} (upheld : before.graph.UpheldBefore key group)
    (last : (before.graph.nodeAt key).dependencies.group? group = none) :
    ∀ dependency ∈ (before.graph.nodeAt key).dependencies,
      before.graph.Upheld key dependency := by
  intro dependency member
  obtain ⟨index, dependencies, found, inGroup⟩ := Grouping.exists_group?_of_mem member
  exact upheld index (Grouping.lt_of_group? last found) dependencies found dependency inGroup

theorem outdated_of_refuted (refuted : before.graph.Refuted key) :
    before.graph.Outdated key := by
  obtain ⟨group, dependencies, _, found, settled, dependency, member, changed⟩ := refuted
  exact ⟨dependency, Grouping.mem_of_group? found member,
    Nat.lt_of_not_le fun older => changed ⟨settled dependency member, older⟩⟩

section Step

variable [BEq ν]

/-- A lasting result that a step gives rests on valid results. -/
theorem Progress.rests (progress : Progress registry before key work effect)
    (found : (before.graph.nodeAt key).work = some work)
    (underway : (before.graph.nodeAt key).Underway)
    (established : Established registry before.graph key work)
    (batch : ∀ dependency ∈ work.batch, before.isSettled dependency = true)
    (grounded : Grounded backing before)
    (computed : ∀ result, work.phase = .computing → effect.own.result? = some result →
      isTransient result = false →
        backing.holds key result effect.own.dependencies
          fun dependency => (before.graph.nodeAt dependency).result?)
    {result : Result κ ν φ} (isResult : effect.own.result? = some result)
    (lasting : isTransient result = false) :
    (∀ dependency ∈ effect.own.dependencies, before.isSettled dependency = true) ∧
      backing.holds key result effect.own.dependencies
        fun dependency => (before.graph.nodeAt dependency).result? := by
  have taken : (before.graph.nodeAt key).work.isSome = true := by simp [found]
  cases progress with
  | await | compare | restart =>
      rw [Node.updateWork_result?, Node.result?_of_work taken] at isResult
      cases isResult
  | revalidate group awaiting phase finished =>
      have upheld := upheld_of_last (established.upheld group awaiting phase) finished
      obtain ⟨old, memo⟩ := (underway work found).2 group awaiting phase
      have same : old = result := by
        simpa [Node.revalidate, memo, Memo.result?, Node.result?] using isResult
      subst same
      refine ⟨fun dependency member => (upheld dependency member).1, ?_⟩
      rcases grounded.dirty key old memo lasting with ⟨_, dependency, member, newer⟩ |
        ⟨results, same, holds⟩
      · exact absurd (upheld dependency member).2 (Nat.not_le_of_lt newer)
      · refine backing.congr (fun dependency member => ?_) holds
        obtain ⟨settled, older⟩ := upheld dependency member
        obtain ⟨other, isOther⟩ := Node.exists_result? settled
        rw [← same dependency member older, isOther]
        exact Node.memo_result?_of_result? isOther
  | fail dependency cause phase unhandled =>
      exact ⟨established.requested batch phase, computed result phase isResult lasting⟩
  | refuse phase handled absent =>
      exact ⟨fun dependency none => absurd none (Grouping.not_mem_empty dependency),
        computed result phase isResult lasting⟩
  | finish function attempt outcome given dependencies events phase handled registered run
      verdict =>
      refine ⟨?_, computed result phase isResult lasting⟩
      have isCommitted : (before.graph.nodeAt key).committed given = result :=
        Option.some.inj isResult
      rw [← isCommitted, Node.not_transient_committed] at lasting
      obtain ⟨rfl, missing⟩ := verdict_commit verdict
      have faithful := Attempt.faithful_of_run run
      intro dependency member
      have present : dependency ∉ attempt.missing := by
        rcases missing with nothing | transient
        · rw [nothing]
          exact List.not_mem_nil
        · rw [transient] at lasting
          cases lasting
      unfold isSettled Node.isSettled
      rw [← Graph.result?_eq]
      cases known : before.graph.result? dependency with
      | some other => rfl
      | none => exact absurd ((faithful.mem_missing dependency).mpr ⟨member, known⟩) present

/-- A step that gives a result gives it at the version of the round, and notes a
change unless the result is the remembered one. -/
theorem Progress.renews (progress : Progress registry before key work effect)
    (found : (before.graph.nodeAt key).work = some work)
    (settled : effect.own.isSettled = true) :
    effect.own.lastEvaluated = before.version ∧
      (effect.own.lastChanged = before.version ∨
        (effect.own.lastChanged = (before.graph.nodeAt key).lastChanged ∧
          effect.own.memo.result? = (before.graph.nodeAt key).memo.result?)) := by
  have taken : (before.graph.nodeAt key).work.isSome = true := by simp [found]
  have commit : ∀ (result : Result κ ν φ) (dependencies : Grouping κ) (own : Node κ ν φ),
      own = (before.graph.nodeAt key).commit before.version result dependencies →
        own.lastEvaluated = before.version ∧ (own.lastChanged = before.version ∨
          (own.lastChanged = (before.graph.nodeAt key).lastChanged ∧
            own.memo.result? = (before.graph.nodeAt key).memo.result?)) := by
    rintro result dependencies own rfl
    refine ⟨rfl, ?_⟩
    rw [Node.commit_eq]
    cases kept : (before.graph.nodeAt key).keeps result with
    | false => exact .inl rfl
    | true => exact .inr ⟨rfl, (Node.result?_of_keeps kept).symm⟩
  cases progress with
  | await | compare | restart =>
      rw [Node.updateWork_isSettled, Node.not_settled_of_work taken] at settled
      cases settled
  | revalidate group awaiting phase finished =>
      refine ⟨rfl, .inr ⟨rfl, ?_⟩⟩
      unfold Node.revalidate
      cases (before.graph.nodeAt key).memo.result? <;> rfl
  | fail => exact commit _ _ _ rfl
  | refuse => exact commit _ _ _ rfl
  | finish => exact commit _ _ _ rfl

theorem Progress.fades (progress : Progress registry before key work effect)
    (underway : (before.graph.nodeAt key).Underway)
    (found : (before.graph.nodeAt key).work = some work)
    (unsettled : effect.own.isSettled = false) :
    (before.graph.nodeAt key).Fades before.version effect.own := by
  cases progress with
  | await | compare | restart => exact .updateWork ..
  | revalidate group awaiting phase finished =>
      obtain ⟨old, memo⟩ := (underway work found).2 group awaiting phase
      simp [Node.revalidate, memo, Memo.result?, Node.isSettled, Node.result?] at unsettled
  | _ => cases unsettled

/-- A step renews its key if it gives it a result, and nothing else. -/
theorem Progress.shifts (progress : Progress registry before key work effect)
    (moved : Moved before after key effect)
    (found : (before.graph.nodeAt key).work = some work)
    (underway : (before.graph.nodeAt key).Underway) :
    Graph.Shifts before.version (fun other => other = key ∧ effect.own.isSettled = true)
      before.graph after.graph := by
  have extended := moved.extends found
  have unsettled : before.isSettled key = false :=
    Node.not_settled_of_work (by simp [found])
  constructor
  case others =>
    intro other old
    by_cases same : other = key
    · subst same
      have unfinished : effect.own.isSettled = false :=
        eq_false_of_ne_true fun settled => old ⟨rfl, settled⟩
      exact (progress.fades underway found unfinished).alike moved.self
    · have alike := moved.others other same
      split at alike
      · exact (Node.Fades.taken before.version).alike alike
      · exact (Node.Fades.refl before.version _).alike alike
  case evaluated =>
    rintro _ ⟨rfl, settled⟩
    rw [moved.self.isSettled, moved.self.lastEvaluated]
    exact ⟨settled, (progress.renews found settled).1⟩
  case changed =>
    rintro _ ⟨rfl, settled⟩
    rw [moved.self.lastChanged, moved.self.memo]
    exact (progress.renews found settled).2.imp_right fun same => ⟨unsettled, same⟩
  case kept =>
    intro other _ _ dependency _ settled
    refine ⟨?_, (extended dependency settled).isSettled.trans settled⟩
    rintro ⟨rfl, _⟩
    rw [isSettled, settled] at unsettled
    cases unsettled

theorem Grounded.step (grounded : Grounded backing before)
    (progress : Progress registry before key work effect)
    (moved : Moved before after key effect)
    (found : (before.graph.nodeAt key).work = some work)
    (underway : (before.graph.nodeAt key).Underway)
    (established : Established registry before.graph key work)
    (batch : ∀ dependency ∈ work.batch, before.isSettled dependency = true)
    (computed : ∀ result, work.phase = .computing → effect.own.result? = some result →
      isTransient result = false →
        backing.holds key result effect.own.dependencies
          fun dependency => (before.graph.nodeAt dependency).result?) :
    Grounded backing after := by
  have extended := moved.extends found
  have result : ∀ dependency, before.isSettled dependency = true →
      (after.graph.nodeAt dependency).result? = (before.graph.nodeAt dependency).result? :=
    fun dependency settled => (extended dependency settled).result?
  unfold Grounded
  rw [moved.version]
  refine grounded.shift (progress.shifts moved found underway) (Nat.le_refl _) ?grounds
  rintro _ isResult ⟨rfl, _⟩ isFound lasting
  rw [moved.self.result?] at isFound
  rw [moved.self.dependencies]
  obtain ⟨settled, holds⟩ := progress.rests found underway established batch grounded computed
    isFound lasting
  refine ⟨fun dependency needed => ?_,
    backing.congr (fun dependency needed => (result dependency (settled dependency needed)).symm)
      holds⟩
  rw [(extended dependency (settled dependency needed)).isSettled]
  exact settled dependency needed

/-- Keys that fail are renewed, and nothing else. -/
theorem Failed.shifts {failures : List (Failure κ φ)} (failed : Failed before failures after)
    (busy : ∀ failure ∈ failures, before.isEvaluating failure.key = true) :
    Graph.Shifts before.version (· ∈ failures.map Failure.key) before.graph after.graph := by
  have extended := failed.extends busy
  constructor
  case others =>
    exact fun other old => (Node.Fades.refl before.version _).alike (failed.others other old)
  case evaluated =>
    intro other isFailed
    obtain ⟨failure, isFailure, rfl⟩ := List.mem_map.mp isFailed
    have alike := failed.self failure isFailure
    rw [alike.isSettled, alike.lastEvaluated]
    exact ⟨rfl, rfl⟩
  case changed =>
    intro other isFailed
    obtain ⟨failure, isFailure, rfl⟩ := List.mem_map.mp isFailed
    rw [(failed.self failure isFailure).lastChanged]
    exact .inl rfl
  case kept =>
    intro other _ _ dependency _ settled
    refine ⟨fun isFailed => ?_, (extended dependency settled).isSettled.trans settled⟩
    obtain ⟨failure, isFailure, rfl⟩ := List.mem_map.mp isFailed
    have unsettled := not_isSettled_of_evaluating (busy failure isFailure)
    rw [isSettled, settled] at unsettled
    cases unsettled

/-- Failures that do not last need no ground. -/
theorem Grounded.fail {failures : List (Failure κ φ)} (grounded : Grounded backing before)
    (failed : Failed before failures after)
    (busy : ∀ failure ∈ failures, before.isEvaluating failure.key = true)
    (passing : ∀ failure ∈ failures, failure.transience = .transient) :
    Grounded backing after := by
  unfold Grounded
  rw [failed.version]
  refine grounded.shift (failed.shifts busy) (Nat.le_refl _) fun other result isFailed isResult
    lasting => ?_
  obtain ⟨failure, isFailure, rfl⟩ := List.mem_map.mp isFailed
  rw [(failed.self failure isFailure).result?, Node.commit_result?, Node.committed_error,
    Option.some.injEq] at isResult
  rw [← isResult] at lasting
  simp [isTransient, passing failure isFailure] at lasting

end Step

section Break

theorem transience_of_cycleFailuresAt {roots : List κ} {failure : Failure κ φ}
    (member : failure ∈ before.cycleFailuresAt roots) : failure.transience = .transient := by
  obtain ⟨component, _, inComponent⟩ := List.mem_flatMap.mp member
  obtain ⟨key, _, rfl⟩ := List.mem_map.mp inComponent
  rfl

theorem evaluating_of_cycleFailuresAt {roots ready : List κ} (waiting : Waiting before ready)
    {failure : Failure κ φ} (member : failure ∈ before.cycleFailuresAt roots) :
    before.isEvaluating failure.key = true := by
  refine ((mem_broken roots waiting).mp ?_).1
  rw [← map_key_cycleFailuresAt before roots]
  exact List.mem_map_of_mem member

variable [BEq ν] {roots : List κ}

theorem Grounded.breakDeadlock (grounded : Grounded backing before)
    (waiting : Waiting before []) : Grounded backing (before.breakDeadlock roots).1 :=
  grounded.fail (failed_breakDeadlock waiting roots)
    (fun _ => evaluating_of_cycleFailuresAt waiting) fun _ => transience_of_cycleFailuresAt

theorem Establishes.breakDeadlock (establishes : Establishes registry before)
    (waiting : Waiting before []) : Establishes registry (before.breakDeadlock roots).1 :=
  establishes.fail (failed_breakDeadlock waiting roots)
    fun _ => evaluating_of_cycleFailuresAt waiting

end Break

section Ends

theorem Grounded.of_fades (grounded : Grounded backing before)
    (fades : ∀ key, (before.graph.nodeAt key).Fades before.version (after.graph.nodeAt key))
    (settled : ∀ key, before.isSettled key = true → after.isSettled key = true)
    (version : after.version = before.version) : Grounded backing after := by
  unfold Grounded
  rw [version]
  exact grounded.shift (.of_fades fades settled) (Nat.le_refl _) fun _ _ never => never.elim

theorem Begun.fades {roots ready : List κ} (begun : Begun before roots after ready) (key : κ) :
    (before.graph.nodeAt key).Fades before.version (after.graph.nodeAt key) := by
  rw [begun.nodes]
  split
  · exact .taken _
  · exact .refl ..

theorem Grounded.begin (grounded : Grounded backing before) {roots ready : List κ}
    (begun : Begun before roots after ready) : Grounded backing after := by
  refine grounded.of_fades begun.fades (fun key settled => ?_) begun.context.version
  unfold isSettled at settled ⊢
  rw [begun.nodes, Node.taken_of_not_idle (Node.not_idle_of_settled settled), ite_self]
  exact settled

/-- A key that is worked on has no result to lose. -/
theorem result?_rollBack {ready : List κ} (inOrder : InOrder before ready) (key : κ) :
    ((before.graph.nodeAt key).rollBack).result? = (before.graph.nodeAt key).result? := by
  unfold Node.result? Node.rollBack
  cases found : (before.graph.nodeAt key).work with
  | none => rfl
  | some work =>
      have open' := (inOrder.underway key work found).1
      cases memo : (before.graph.nodeAt key).memo with
      | valid result => exact absurd memo (open' result)
      | _ => rfl

theorem fades_rollBack {ready : List κ} (inOrder : InOrder before ready) (key : κ) :
    (before.graph.nodeAt key).Fades before.version (before.rollBack.graph.nodeAt key) := by
  rw [nodeAt_rollBack_of_waiting inOrder.waiting]
  exact .of_work none (result?_rollBack inOrder key)

theorem Grounded.rollBack {ready : List κ} (grounded : Grounded backing before)
    (inOrder : InOrder before ready) : Grounded backing before.rollBack := by
  refine grounded.of_fades (fades_rollBack inOrder) (fun key settled => ?_) rfl
  unfold isSettled Node.isSettled at settled ⊢
  rw [nodeAt_rollBack_of_waiting inOrder.waiting, result?_rollBack inOrder]
  exact settled

end Ends

end Round

end MemoGraph
