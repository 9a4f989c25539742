import MemoGraph.Proofs.Computation.Blame
import MemoGraph.Proofs.Graph.Explanations
import MemoGraph.Proofs.Round.Foundations
import MemoGraph.Proofs.Round.Phases

namespace MemoGraph.Round

variable {κ ν φ : Type} [Key κ] {round before after : Round κ ν φ} {key dependency : κ}
  {work : Work κ φ} {registry : Registry κ ν φ} {roots ready : List κ}

/-- Whatever a key waits for is recorded if the key fails while it waits. -/
theorem Established.recorded (established : Established registry round.graph key work)
    (found : (round.graph.nodeAt key).work = some work) (inBatch : dependency ∈ work.batch) :
    dependency ∈ (round.graph.nodeAt key).leftover := by
  unfold Node.leftover
  rw [found]
  simp only
  cases phase : work.phase with
  | computing =>
      rw [if_pos rfl]
      rcases established.tried phase with ⟨_, _, nothing⟩ | ⟨function, run, results, _, _, asked⟩
      · rw [nothing] at inBatch
        cases inBatch
      · obtain ⟨requested, _, missing, _⟩ := asked
        have faithful := Attempt.faithful_run results key (function run)
        rw [missing] at inBatch
        exact requested ▸ ((faithful.mem_missing dependency).mp inBatch).1
  | checking group awaiting =>
      rw [if_neg (by simp)]
      have batch := established.batch group awaiting phase
      cases awaiting with
      | true => exact Grouping.mem_of_group? batch inBatch
      | false =>
          rw [if_neg Bool.false_ne_true] at batch
          rw [batch] at inBatch
          cases inBatch

theorem Establishes.recorded (establishes : Establishes registry round)
    (edge : dependency ∈ round.awaited key) : dependency ∈ (round.graph.nodeAt key).leftover := by
  have inBatch := (mem_awaited.mp edge).1
  unfold batch at inBatch
  cases found : (round.graph.nodeAt key).work with
  | none => simp [found] at inBatch
  | some work =>
      rw [found] at inBatch
      exact (establishes key work found).recorded found inBatch

theorem Firm.dated (firm : round.Firm) (key : κ) (result : Result κ ν φ)
    (memo : (round.graph.nodeAt key).memo = .dirty result) :
    (round.graph.nodeAt key).lastEvaluated < round.version :=
  firm.grounded.dirty_lt key result memo

section Step

variable [BEq ν] {effect : Effect κ ν φ} {failure : Failure κ φ}

/-- A failure that a step gives accounts for itself. In particular it is no cycle:
what failed in a cycle is not upheld, because it rests on such failures. -/
theorem Progress.accounts (progress : Progress registry before key work effect)
    (explained : before.graph.Explained) (found : (before.graph.nodeAt key).work = some work)
    (underway : (before.graph.nodeAt key).Underway)
    (established : Established registry before.graph key work)
    (failed : effect.own.result? = some (.error failure)) :
    Accounts before.graph key effect.own.dependencies failure := by
  have taken : (before.graph.nodeAt key).work.isSome = true := by simp [found]
  cases progress with
  | await | compare | restart =>
      rw [Node.updateWork_result?, Node.result?_of_work taken] at failed
      cases failed
  | revalidate group awaiting phase finished =>
      have upheld := upheld_of_last (established.upheld group awaiting phase) finished
      obtain ⟨old, memo⟩ := (underway work found).2 group awaiting phase
      have same : old = .error failure := by
        simpa [Node.revalidate, memo, Memo.result?, Node.result?] using failed
      subst same
      refine ⟨explained.owner key failure (by rw [memo]; rfl), ?acyclic, ?blamed⟩
      case acyclic =>
        rintro owner path rfl
        obtain ⟨dependency, needed, unsure⟩ := explained.circularDirty key owner path memo
        obtain ⟨settled, older⟩ := upheld dependency needed
        rcases unsure with newer | ⟨unsettled, _⟩
        · exact Nat.not_le_of_lt newer older
        · rw [settled] at unsettled
          cases unsettled
      case blamed =>
        rintro owner dependency cause rfl
        obtain ⟨needed, remembered⟩ := explained.blamedDirty key owner dependency cause memo
        obtain ⟨settled, older⟩ := upheld dependency needed
        obtain ⟨result, isResult⟩ := Node.exists_result? settled
        have kept := Node.memo_result?_of_result? isResult
        rw [remembered older] at kept
        exact ⟨needed, Graph.result?_eq dependency ▸ kept ▸ isResult⟩
  | fail dependency cause phase unhandled =>
      cases failed
      obtain ⟨asked, isCause⟩ := firstUnhandled?_eq_some unhandled
      exact .of_failed asked isCause
  | refuse phase handled absent =>
      cases failed
      exact .of_fault ..
  | finish function attempt outcome result dependencies events phase handled registered run
      verdict =>
      rw [Node.commit_result?, Option.some.injEq] at failed
      have isError := Node.eq_error_of_committed failed
      subst isError
      exact accounts_of_verdict run verdict

theorem Explained.step (explained : before.graph.Explained)
    (dated : ∀ key result, (before.graph.nodeAt key).memo = .dirty result →
      (before.graph.nodeAt key).lastEvaluated < before.version)
    (sound : Sound registry before ready) (found : (before.graph.nodeAt key).work = some work)
    (progress : Progress registry before key work effect)
    (moved : Moved before after key effect) : after.graph.Explained := by
  have underway := sound.underway key
  have shifts := progress.shifts moved found underway
  refine explained.shift shifts dated ?_
  rintro _ failure ⟨rfl, _⟩ failed
  rw [moved.self.result?] at failed
  have accounts := progress.accounts explained found underway (sound.establishes _ work found) failed
  refine ⟨accounts.owner, fun owner dependency cause same => ?_, fun owner path same =>
    absurd same (accounts.acyclic owner path)⟩
  obtain ⟨needed, isCause⟩ := accounts.blamed owner dependency cause same
  rw [Graph.result?_eq] at isCause
  exact ⟨moved.self.dependencies ▸ needed, (moved.extends found).result? isCause⟩

end Step

section Break

variable [BEq ν]

/-- A key that fails with others in a cycle records what it waited for. -/
theorem Failed.tied (failed : Failed before (before.cycleFailuresAt roots) after)
    (establishes : Establishes registry before) (broken : key ∈ before.broken roots)
    (brokenToo : dependency ∈ before.broken roots) (edge : dependency ∈ before.awaited key) :
    after.graph.Tied key dependency := by
  have cyclic : ∀ {other}, other ∈ before.broken roots → after.graph.Cyclic other := by
    intro other isBroken
    obtain ⟨path, isFailure⟩ := exists_cycleFailureAt isBroken
    exact ⟨other, path, (failed.self _ isFailure).result?⟩
  obtain ⟨path, isFailure⟩ := exists_cycleFailureAt broken
  refine ⟨cyclic broken, ?_, cyclic brokenToo⟩
  have recorded : (after.graph.nodeAt key).dependencies = (before.graph.nodeAt key).leftover :=
    (failed.self _ isFailure).dependencies
  rw [recorded]
  exact establishes.recorded edge

/-- Whoever waited in a circle depends on itself over keys that failed in cycles. -/
theorem Failed.transGen_tied (failed : Failed before (before.cycleFailuresAt roots) after)
    (sound : Sound registry before ready) (broken : key ∈ before.broken roots) :
    Relation.TransGen after.graph.Tied key key := by
  have waiting := sound.waiting
  have circle := ((mem_broken roots waiting).mp broken).2
  let edge : κ → κ → Prop := fun source target => target ∈ before.awaited source
  have isBroken : ∀ {other}, Relation.TransGen edge key other →
      Relation.ReflTransGen edge other key → other ∈ before.broken roots := by
    intro other forth back
    have cycle : Relation.TransGen edge other other := Relation.TransGen.trans_right back forth
    obtain ⟨last, _, step⟩ := Relation.TransGen.tail'_iff.mp cycle
    exact (mem_broken roots waiting).mpr ⟨(mem_awaited.mp step).2, cycle⟩
  have reached : ∀ {other}, Relation.TransGen edge key other →
      Relation.ReflTransGen edge other key → Relation.TransGen after.graph.Tied key other := by
    intro other forth
    induction forth with
    | single step =>
        intro back
        exact .single (failed.tied sound.establishes broken (isBroken (.single step) back) step)
    | tail forth step ih =>
        intro back
        have onward := Relation.ReflTransGen.head step back
        exact (ih onward).tail (failed.tied sound.establishes (isBroken forth onward)
          (isBroken (forth.tail step) back) step)
  exact reached circle .refl

theorem Explained.breakDeadlock (explained : before.graph.Explained)
    (dated : ∀ key result, (before.graph.nodeAt key).memo = .dirty result →
      (before.graph.nodeAt key).lastEvaluated < before.version)
    (sound : Sound registry before []) : (before.breakDeadlock roots).1.graph.Explained := by
  have failed := failed_breakDeadlock sound.waiting roots
  have keys := map_key_cycleFailuresAt before roots
  refine explained.shift (failed.shifts fun _ => evaluating_of_cycleFailuresAt sound.waiting)
    dated ?_
  intro key failure isFailed found
  have circle := failed.transGen_tied sound (keys ▸ isFailed)
  obtain ⟨path, isFailure⟩ := exists_cycleFailureAt (keys ▸ isFailed)
  have alike := failed.self _ isFailure
  have same := alike.result?.symm.trans found
  cases same
  exact ⟨rfl, nofun, fun _ _ _ => ⟨alike.lastChanged, circle⟩⟩

end Break

section Ends

theorem Explained.begin (explained : before.graph.Explained)
    (dated : ∀ key result, (before.graph.nodeAt key).memo = .dirty result →
      (before.graph.nodeAt key).lastEvaluated < before.version)
    (begun : Begun before roots after ready) : after.graph.Explained := by
  refine explained.shift (.of_fades begun.fades fun key settled => ?_) dated
    fun _ _ never => never.elim
  rw [begun.nodes, Node.taken_of_not_idle (Node.not_idle_of_settled settled), ite_self]
  exact settled

theorem Explained.rollBack (explained : before.graph.Explained)
    (dated : ∀ key result, (before.graph.nodeAt key).memo = .dirty result →
      (before.graph.nodeAt key).lastEvaluated < before.version)
    (inOrder : InOrder before ready) : before.rollBack.graph.Explained := by
  refine explained.shift (.of_fades (fades_rollBack inOrder) fun key settled => ?_) dated
    fun _ _ never => never.elim
  unfold Node.isSettled at settled ⊢
  rw [nodeAt_rollBack_of_waiting inOrder.waiting, result?_rollBack inOrder]
  exact settled

variable [BEq ν] {final : Round κ ν φ} {halt : Halt}

theorem Ends.explained (ends : Ends registry roots round final halt) (unique : roots.Nodup)
    (rested : Rested round.graph) (firm : round.Firm) (explained : round.graph.Explained) :
    final.graph.Explained := by
  refine (ends.invariant (fun now => now.Firm ∧ now.graph.Explained) unique rested ?begin ?step
    ?unblock ?rollBack ⟨firm, explained⟩).2
  case begin =>
    exact fun begun held => ⟨held.1.begin begun, Explained.begin held.2 held.1.dated begun⟩
  case step =>
    exact fun sound member found progress moved held =>
      ⟨held.1.step sound member found progress moved,
        Explained.step held.2 held.1.dated sound found progress moved⟩
  case unblock =>
    exact fun sound held => ⟨held.1.breakDeadlock sound.waiting roots,
      Explained.breakDeadlock held.2 held.1.dated sound⟩
  case rollBack =>
    exact fun sound held => ⟨held.1.rollBack sound.toInOrder,
      Explained.rollBack held.2 held.1.dated sound.toInOrder⟩

end Ends

end MemoGraph.Round
