import MemoGraph.Proofs.Groups
import MemoGraph.Proofs.Round.Outlooks

namespace MemoGraph

variable {κ ν φ : Type} [Key κ]

namespace Graph

variable {graph : Graph κ ν φ} {key : κ} {registry : Registry κ ν φ} {version : Version}
  {work : Work κ φ}

section Tried

variable (tried : Round.Tried registry graph key work)
include tried

/-- Once whatever a run of a strict function asked for has a result, any other
run of it fails for the foremost of the failures that the first does not handle. -/
theorem verdict_of_tried {function : Nat → Computation κ ν φ}
    (registered : registry.function? key = some function) (steady : Computation.Steady function)
    (present : ∀ dependency ∈ work.batch, graph.lacks dependency = false)
    {dependency : κ} {cause : Failure κ φ}
    (unhandled : firstUnhandled? graph work.requested work.handlers = some (dependency, cause))
    (run : Nat) :
    (Attempt.run graph.result? key (function run) {}).1.verdict graph key
        (Attempt.run graph.result? key (function run) {}).2 =
      .commit (.error (.dependency key dependency cause)) work.requested [] := by
  obtain ⟨_, number, results, isRegistered, earlier, requested, handlers, batch, waited⟩ := tried
  rw [registered] at isRegistered
  cases isRegistered
  have strict : (function 0).Strict := (steady 0).2
  rw [(steady number).1] at requested handlers batch
  rw [(steady run).1]
  have grown : ∀ key result, results key = some result → graph.result? key = some result :=
    fun key result found => by rw [result?_eq]; exact earlier key result found
  have short : (Attempt.run results key (function 0) {}).1.missing ≠ [] := batch ▸ waited
  rcases (Attempt.resumes_run strict grown key).stopped short with
    ⟨sameRequested, sameHandlers, missing, isShort⟩ | ⟨_, covered⟩
  · have nothing : (Attempt.run graph.result? key (function 0) {}).1.missing = [] := by
      rw [missing, ← batch, List.filter_eq_nil_iff]
      intro other member
      rw [Bool.not_eq_true]
      exact present other member
    rw [requested, handlers, ← sameRequested, ← sameHandlers] at unhandled
    rw [Attempt.outcome_of_strict strict rfl isShort,
      verdict_of_unhandled nothing isShort unhandled, sameRequested, requested]
  · rw [requested, handlers, covered_of_handled covered] at unhandled
    cases unhandled

variable (strict : registry.Strict)
include strict

/-- Whatever was asked for has a result, and one of the failures decides. -/
theorem computing_of_unhandled (present : ∀ dependency ∈ work.batch, graph.lacks dependency = false)
    {dependency : κ} {cause : Failure κ φ}
    (unhandled : firstUnhandled? graph work.requested work.handlers = some (dependency, cause)) :
    graph.computing registry key =
      .settles (.error (.dependency key dependency cause), work.requested) := by
  have ⟨function, _, _, registered, _⟩ := tried
  have steady : Computation.Steady function := strict key function registered
  rw [computing_of_run registered,
    verdict_of_tried tried registered steady present unhandled 0]

/-- As long as something that was asked for has no result, the key waits. -/
theorem computing_of_waiting {missing : κ} (inBatch : missing ∈ work.batch)
    (lacks : graph.lacks missing = true) :
    graph.computing registry key = .waits work.requested (work.batch.filter graph.lacks) := by
  obtain ⟨function, run, results, registered, earlier, requested, _, batch, waited⟩ := tried
  rw [strict.same_run registered run] at requested batch
  have grown : ∀ key result, results key = some result → graph.result? key = some result :=
    fun key result found => by rw [result?_eq]; exact earlier key result found
  have resumes := Attempt.resumes_run (strict.computation registered) grown key
  have short : (Attempt.run results key (function 0) {}).1.missing ≠ [] := batch ▸ waited
  rcases resumes.stopped short with ⟨sameRequested, _, sameMissing, _⟩ | ⟨settled, _⟩
  · have isMissing : (Attempt.run graph.result? key (function 0) {}).1.missing =
        work.batch.filter graph.lacks := by
      rw [sameMissing, ← batch]
      rfl
    have some : (Attempt.run graph.result? key (function 0) {}).1.missing ≠ [] := by
      rw [isMissing]
      exact List.ne_nil_of_mem (List.mem_filter.mpr ⟨inBatch, lacks⟩)
    rw [computing_of_run registered, restart_of_missing graph strict registered some, isMissing,
      sameRequested, requested]
  · have present := settled missing (batch ▸ inBatch)
    unfold Graph.lacks at lacks
    rw [← Option.not_isSome, present] at lacks
    cases lacks

end Tried

section Checking

variable [BEq ν]

/-- Groups that are upheld can be skipped. -/
theorem checking_of_upheld {group : Nat} (upheld : graph.UpheldBefore key group) :
    graph.checking registry version key (graph.nodeAt key).bare
        (graph.nodeAt key).dependencies.groups =
      graph.checking registry version key (graph.nodeAt key).bare
        ((graph.nodeAt key).dependencies.groups.drop group) := by
  induction group with
  | zero => rfl
  | succ group ih =>
      rw [ih fun earlier isEarlier => upheld earlier (Nat.lt_succ_of_lt isEarlier)]
      cases found : (graph.nodeAt key).dependencies.group? group with
      | none =>
          have beyond := Grouping.drop_groups_of_last found
          rw [beyond, ← List.drop_drop, beyond]
          rfl
      | some dependencies =>
          rw [Grouping.drop_groups found, checking]
          have holds := upheld group (Nat.lt_succ_self group) dependencies found
          have settled : dependencies.filter graph.lacks = [] := by
            rw [List.filter_eq_nil_iff]
            intro dependency member
            rw [lacks_eq, (holds dependency member).1]
            exact Bool.false_ne_true
          have unchanged : ¬ (dependencies.any fun dependency =>
              decide ((graph.nodeAt key).bare.lastEvaluated <
                (graph.nodeAt dependency).lastChanged)) = true := by
            rw [List.any_eq_true]
            rintro ⟨dependency, member, changed⟩
            exact Nat.not_lt_of_le (holds dependency member).2 (of_decide_eq_true changed)
          rw [settled]
          simp only [if_neg unchanged]

theorem checking_of_refuted (refuted : graph.Refuted key) :
    graph.checking registry version key (graph.nodeAt key).bare
        (graph.nodeAt key).dependencies.groups =
      (graph.computing registry key).map (committing version (graph.nodeAt key).bare) := by
  obtain ⟨group, dependencies, upheld, found, settled, dependency, member, changed⟩ := refuted
  rw [checking_of_upheld upheld, Grouping.drop_groups found, checking]
  have present : dependencies.filter graph.lacks = [] := by
    rw [List.filter_eq_nil_iff]
    intro other isMember
    rw [lacks_eq, settled other isMember]
    exact Bool.false_ne_true
  have anyChanged : (dependencies.any fun dependency =>
      decide ((graph.nodeAt key).bare.lastEvaluated <
        (graph.nodeAt dependency).lastChanged)) = true := by
    refine List.any_eq_true.mpr ⟨dependency, member, decide_eq_true ?_⟩
    exact Nat.lt_of_not_le fun older => changed ⟨settled dependency member, older⟩
  rw [present]
  simp only [if_pos anyChanged]

/-- A group in which something has no result keeps the key waiting. -/
theorem checking_of_waiting {group : Nat} {dependencies : List κ}
    (upheld : graph.UpheldBefore key group)
    (found : (graph.nodeAt key).dependencies.group? group = some dependencies) {missing : κ}
    (member : missing ∈ dependencies) (lacks : graph.lacks missing = true) :
    graph.checking registry version key (graph.nodeAt key).bare
        (graph.nodeAt key).dependencies.groups =
      .waits (graph.nodeAt key).dependencies (dependencies.filter graph.lacks) := by
  rw [checking_of_upheld upheld, Grouping.drop_groups found, checking]
  have some : dependencies.filter graph.lacks ≠ [] :=
    List.ne_nil_of_mem (List.mem_filter.mpr ⟨member, lacks⟩)
  obtain ⟨first, rest, isSome⟩ := List.exists_cons_of_ne_nil some
  rw [isSome]
  rfl

theorem outlook_of_computing (established : Round.Established registry graph key work)
    (phase : work.phase = .computing) :
    graph.outlook registry version key (graph.nodeAt key).bare =
      (graph.computing registry key).map (committing version (graph.nodeAt key).bare) := by
  unfold outlook
  split
  · rename_i result memo
    exact checking_of_refuted (established.refuted result phase memo)
  · rfl

theorem outlook_of_checking {node : Node κ ν φ} {result : Result κ ν φ}
    (memo : node.memo = .dirty result) :
    graph.outlook registry version key node.bare =
      graph.checking registry version key node.bare node.dependencies.groups := by
  unfold outlook
  split
  · rfl
  · rename_i other
    exact absurd memo (other result)

end Checking

end Graph

namespace Round

variable [BEq ν] {round before after : Round κ ν φ} {key : κ} {work : Work κ φ}
  {registry : Registry κ ν φ} {effect : Effect κ ν φ}

section Step

variable (strict : registry.Strict) (progress : Progress registry before key work effect)
  (found : (before.graph.nodeAt key).work = some work)
  (underway : (before.graph.nodeAt key).Underway)
  (established : Established registry before.graph key work)
include strict progress found underway established

/-- A key that is given a result had that to settle for. -/
theorem Progress.settles
    (batch : ∀ dependency ∈ work.batch, before.graph.lacks dependency = false)
    (settled : effect.own.isSettled = true) :
    before.graph.outlook registry before.version key (before.graph.nodeAt key).bare =
      .settles (effect.own.bare, effect.failed) := by
  have taken : (before.graph.nodeAt key).work.isSome = true := by simp [found]
  cases progress with
  | await | compare | restart =>
      rw [Node.updateWork_isSettled, Node.not_settled_of_work taken] at settled
      cases settled
  | revalidate group awaiting phase finished =>
      obtain ⟨result, memo⟩ := (underway work found).2 group awaiting phase
      rw [Graph.outlook_of_checking memo,
        Graph.checking_of_upheld (established.upheld group awaiting phase),
        Grouping.drop_groups_of_last finished]
      rfl
  | fail dependency cause phase unhandled =>
      rw [Graph.outlook_of_computing established phase]
      rcases established.tried phase with ⟨empty, _⟩ | tried
      · rw [empty] at unhandled
        cases unhandled
      · rw [Graph.computing_of_unhandled tried strict batch unhandled]
        rfl
  | refuse phase handled absent =>
      rw [Graph.outlook_of_computing established phase]
      unfold Graph.computing
      rw [absent]
      rfl
  | finish function attempt outcome result dependencies events phase handled registered run
      verdict =>
      rw [strict.same_run registered before.runs] at run
      rw [Graph.outlook_of_computing established phase, Graph.computing_of_run registered, run]
      simp only [verdict]
      rfl

/-- What a key asks for is what it has to wait for. -/
theorem Progress.asks {dependency : κ} (asked : dependency ∈ effect.asked)
    (lacks : before.graph.lacks dependency = true) :
    ∃ recorded keys, before.graph.outlook registry before.version key
        (before.graph.nodeAt key).bare = .waits recorded keys ∧ dependency ∈ keys := by
  cases progress with
  | await group dependencies phase isGroup =>
      obtain ⟨result, memo⟩ := (underway work found).2 group false phase
      rw [Graph.outlook_of_checking memo,
        Graph.checking_of_waiting (established.upheld group false phase) isGroup asked lacks]
      exact ⟨_, _, rfl, List.mem_filter.mpr ⟨asked, lacks⟩⟩
  | restart function attempt outcome phase handled registered run verdict =>
      rw [strict.same_run registered before.runs] at run
      rw [Graph.outlook_of_computing established phase, Graph.computing_of_run registered, run]
      simp only [verdict]
      exact ⟨_, _, rfl, asked⟩
  | _ => cases asked

end Step

omit [BEq ν] in
/-- The keys that a key waits for are those of its batch without a result. -/
theorem awaited_eq_filter_lacks {ready : List κ} (waiting : Waiting round ready) (key : κ) :
    round.awaited key = (round.batch key).filter round.graph.lacks := by
  rw [awaited_eq]
  refine List.filter_congr fun dependency member => ?_
  have busy := waiting.batch_busy key dependency member
  rw [isIdle_eq] at busy
  rw [Graph.lacks_eq]
  cases evaluating : round.isEvaluating dependency with
  | true =>
      have unsettled := not_isSettled_of_evaluating evaluating
      unfold isSettled at unsettled
      rw [unsettled]
      rfl
  | false =>
      rw [evaluating] at busy
      have settled : round.isSettled dependency = true := by simpa using busy
      unfold isSettled at settled
      rw [settled]
      rfl

theorem InOrder.waits (strict : registry.Strict) (inOrder : InOrder round [])
    (establishes : Establishes registry round) {key : κ}
    (evaluating : round.isEvaluating key = true) :
    round.graph.outlook registry round.version key (round.graph.nodeAt key).bare =
      .waits (round.graph.nodeAt key).leftover (round.awaited key) := by
  obtain ⟨missing, isAwaited⟩ := exists_awaited inOrder.waiting evaluating
  obtain ⟨work, found⟩ := exists_work evaluating
  have isBatch : round.batch key = work.batch := by
    unfold batch
    rw [found]
    rfl
  have established := establishes key work found
  rw [awaited_eq_filter_lacks inOrder.waiting, isBatch] at isAwaited ⊢
  obtain ⟨inBatch, lacks⟩ := List.mem_filter.mp isAwaited
  cases phase : work.phase with
  | checking group awaiting =>
      have leftover : (round.graph.nodeAt key).leftover =
          (round.graph.nodeAt key).dependencies := by
        simp [Node.leftover, found, phase]
      have batch := established.batch group awaiting phase
      cases awaiting with
      | false =>
          rw [if_neg Bool.false_ne_true] at batch
          rw [batch] at inBatch
          cases inBatch
      | true =>
          rw [if_pos rfl] at batch
          obtain ⟨result, memo⟩ := (inOrder.underway key work found).2 group true phase
          rw [Graph.outlook_of_checking memo, leftover,
            Graph.checking_of_waiting (established.upheld group true phase) batch inBatch lacks]
  | computing =>
      have leftover : (round.graph.nodeAt key).leftover = work.requested := by
        simp [Node.leftover, found, phase]
      rcases established.tried phase with ⟨_, _, empty⟩ | tried
      · rw [empty] at inBatch
        cases inBatch
      · rw [Graph.outlook_of_computing established phase, leftover,
          Graph.computing_of_waiting tried strict inBatch lacks]
        rfl

end Round

end MemoGraph
