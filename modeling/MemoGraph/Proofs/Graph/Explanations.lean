import Mathlib.Data.List.Chain
import Mathlib.Logic.Relation
import MemoGraph.Proofs.Graph.Grounds

namespace MemoGraph.Graph

/-! What failures point at.

A failure holds what its key failed for at the time. While the failure is valid,
the graph says the same: a key that failed for a dependency records it, and the
dependency still has that failure; a key that failed in a cycle still depends on
itself over keys that failed in cycles. A failure that has become dirty keeps
enough of this for its check: the check does not succeed unless the failure
points at what is there.
-/

variable {κ ν φ : Type} [Key κ] {graph before after : Graph κ ν φ} {version later : Version}
  {renewed : κ → Prop} {key dependency : κ}

/-- The key has a valid failure, and it is a cycle. -/
def Cyclic (graph : Graph κ ν φ) (key : κ) : Prop :=
  ∃ owner path, (graph.nodeAt key).result? = some (.error (.cycle owner path))

/-- The key depends on the dependency, and both failed in cycles. -/
def Tied (graph : Graph κ ν φ) (key dependency : κ) : Prop :=
  graph.Cyclic key ∧ dependency ∈ (graph.nodeAt key).dependencies ∧ graph.Cyclic dependency

/-- The dependency changed after the key was evaluated, or it will have when it
has a result again. -/
def Unsure (graph : Graph κ ν φ) (key dependency : κ) : Prop :=
  (graph.nodeAt key).lastEvaluated < (graph.nodeAt dependency).lastChanged ∨
    ((graph.nodeAt dependency).isSettled = false ∧
      ∃ owner path, (graph.nodeAt dependency).memo.result? = some (.error (.cycle owner path)))

/-- What failures point at is there, as far as they are valid. -/
structure Explained (graph : Graph κ ν φ) : Prop where
  owner : ∀ key failure, (graph.nodeAt key).memo.result? = some (.error failure) →
    failure.key = key
  blamed : ∀ key owner dependency cause,
    (graph.nodeAt key).result? = some (.error (.dependency owner dependency cause)) →
      dependency ∈ (graph.nodeAt key).dependencies ∧
        (graph.nodeAt dependency).result? = some (.error cause)
  circular : ∀ key, graph.Cyclic key → Relation.TransGen graph.Tied key key
  blamedDirty : ∀ key owner dependency cause,
    (graph.nodeAt key).memo = .dirty (.error (.dependency owner dependency cause)) →
      dependency ∈ (graph.nodeAt key).dependencies ∧
        ((graph.nodeAt dependency).lastChanged ≤ (graph.nodeAt key).lastEvaluated →
          (graph.nodeAt dependency).memo.result? = some (.error cause))
  circularDirty : ∀ key owner path, (graph.nodeAt key).memo = .dirty (.error (.cycle owner path)) →
    ∃ dependency ∈ (graph.nodeAt key).dependencies, graph.Unsure key dependency

/-- What a failure of a key that is renewed points at. -/
structure Pointed (graph : Graph κ ν φ) (version : Version) (key : κ) (failure : Failure κ φ) :
    Prop where
  owner : failure.key = key
  blamed : ∀ owner dependency cause, failure = .dependency owner dependency cause →
    dependency ∈ (graph.nodeAt key).dependencies ∧
      (graph.nodeAt dependency).result? = some (.error cause)
  circular : ∀ owner path, failure = .cycle owner path →
    (graph.nodeAt key).lastChanged = version ∧ Relation.TransGen graph.Tied key key

theorem Explained.empty : Explained ({} : Graph κ ν φ) where
  owner _ _ found := nomatch found
  blamed _ _ _ _ found := nomatch found
  circular _ found := nomatch found
  blamedDirty _ _ _ _ found := nomatch found
  circularDirty _ _ _ found := nomatch found

section Shift

variable (shifts : Shifts later renewed before after)
include shifts

theorem Shifts.cyclic_of_kept (old : ¬ renewed key) (settled : (after.nodeAt key).isSettled = true)
    (tied : before.Tied key dependency) :
    ¬ renewed dependency ∧ after.Cyclic dependency := by
  obtain ⟨_, needed, owner, path, found⟩ := tied
  obtain ⟨isOld, kept⟩ := shifts.result?_of_kept old settled needed found
  exact ⟨isOld, owner, path, kept⟩

/-- A circle of which one key keeps its failure is kept as a whole. -/
theorem Shifts.transGen_tied (old : ¬ renewed key) (cyclic : after.Cyclic key)
    (circle : Relation.TransGen before.Tied key dependency) :
    Relation.TransGen after.Tied key dependency ∧ ¬ renewed dependency ∧
      after.Cyclic dependency := by
  have extend : ∀ {low high}, ¬ renewed low → after.Cyclic low → before.Tied low high →
      after.Tied low high ∧ ¬ renewed high ∧ after.Cyclic high := by
    intro low high old cyclic tied
    obtain ⟨owner, path, found⟩ := cyclic
    obtain ⟨isOld, isCyclic⟩ := shifts.cyclic_of_kept old (Node.isSettled_of_result? found) tied
    refine ⟨⟨⟨owner, path, found⟩, ?_, isCyclic⟩, isOld, isCyclic⟩
    rw [(shifts.others low old).dependencies]
    exact tied.2.1
  induction circle with
  | single tied =>
      obtain ⟨tied, rest⟩ := extend old cyclic tied
      exact ⟨.single tied, rest⟩
  | tail _ tied ih =>
      obtain ⟨reached, isOld, isCyclic⟩ := ih
      obtain ⟨tied, rest⟩ := extend isOld isCyclic tied
      exact ⟨reached.tail tied, rest⟩

/-- The next key of a circle that is lost is lost as well, or changes. -/
theorem Shifts.unsure_of_lost (old : ¬ renewed key)
    (lost : (after.nodeAt key).isSettled = false)
    (dated : (after.nodeAt key).lastEvaluated < later) (tied : before.Tied key dependency)
    (back : dependency = key ∨ Relation.TransGen before.Tied dependency key) :
    after.Unsure key dependency := by
  obtain ⟨_, _, owner, path, found⟩ := tied
  by_cases isRenewed : renewed dependency
  · rcases shifts.changed dependency isRenewed with new | ⟨unsettled, _⟩
    · exact .inl (new ▸ dated)
    · rw [Node.isSettled_of_result? found] at unsettled
      cases unsettled
  · refine .inr ⟨eq_false_of_ne_true fun settled => ?_, owner, path, ?_⟩
    · have still : (after.nodeAt key).isSettled = true := by
        rcases back with rfl | back
        · exact settled
        · obtain ⟨result, kept⟩ := Node.exists_result? settled
          have same := (shifts.others dependency isRenewed).settled result kept
          rw [found] at same
          obtain ⟨_, _, _, _, isCyclic⟩ :=
            shifts.transGen_tied isRenewed ⟨owner, path, kept.trans same.symm⟩ back
          exact Node.isSettled_of_result? isCyclic
      rw [lost] at still
      cases still
    · rw [(shifts.others dependency isRenewed).remembers]
      exact Node.memo_result?_of_result? found

variable (earlier : ∀ key result, (before.nodeAt key).memo = .dirty result →
  (before.nodeAt key).lastEvaluated < later)
include earlier

theorem Shifts.unsure {result : Result κ ν φ} (memo : (after.nodeAt key).memo = .dirty result)
    (pointed : ∀ key failure, renewed key → (after.nodeAt key).result? = some (.error failure) →
      after.Pointed later key failure)
    (unsure : before.Unsure key dependency) : after.Unsure key dependency := by
  rcases unsure with newer | ⟨unsettled, owner, path, remembered⟩
  · exact .inl (shifts.newer earlier memo newer)
  · by_cases isRenewed : renewed dependency
    · refine .inl ?_
      have dated := shifts.dirty_lt earlier memo
      rcases shifts.changed dependency isRenewed with new | ⟨_, _, same⟩
      · exact new ▸ dated
      · obtain ⟨result, found⟩ := Node.exists_result? (shifts.evaluated dependency isRenewed).1
        have kept := Node.memo_result?_of_result? found
        rw [same, remembered, Option.some.injEq] at kept
        rw [((pointed dependency _ isRenewed (kept ▸ found)).circular owner path rfl).1]
        exact dated
    · have fades := shifts.others dependency isRenewed
      refine .inr ⟨eq_false_of_ne_true fun settled => ?_, owner, path, fades.remembers.trans remembered⟩
      obtain ⟨result, found⟩ := Node.exists_result? settled
      rw [Node.isSettled_of_result? (fades.settled result found)] at unsettled
      cases unsettled

/-- Failures stay explained when those of renewed keys are. -/
theorem Explained.shift (explained : before.Explained)
    (pointed : ∀ key failure, renewed key → (after.nodeAt key).result? = some (.error failure) →
      after.Pointed later key failure) : after.Explained := by
  constructor
  case owner =>
    intro key failure remembered
    by_cases isRenewed : renewed key
    · obtain ⟨result, found⟩ := Node.exists_result? (shifts.evaluated key isRenewed).1
      have kept := Node.memo_result?_of_result? found
      rw [remembered, Option.some.injEq] at kept
      exact (pointed key failure isRenewed (kept ▸ found)).owner
    · exact explained.owner key failure ((shifts.others key isRenewed).remembers ▸ remembered)
  case blamed =>
    intro key owner dependency cause found
    by_cases isRenewed : renewed key
    · exact (pointed key _ isRenewed found).blamed owner dependency cause rfl
    · have fades := shifts.others key isRenewed
      obtain ⟨needed, failed⟩ := explained.blamed key owner dependency cause
        (fades.settled _ found)
      rw [fades.dependencies]
      exact ⟨needed, (shifts.result?_of_kept isRenewed (Node.isSettled_of_result? found) needed
        failed).2⟩
  case circular =>
    intro key cyclic
    by_cases isRenewed : renewed key
    · obtain ⟨owner, path, found⟩ := cyclic
      exact ((pointed key _ isRenewed found).circular owner path rfl).2
    · obtain ⟨owner, path, found⟩ := id cyclic
      have fades := shifts.others key isRenewed
      have circle := explained.circular key ⟨owner, path, fades.settled _ found⟩
      exact (shifts.transGen_tied isRenewed cyclic circle).1
  case blamedDirty =>
    intro key owner dependency cause memo
    have fades := shifts.others key (shifts.not_renewed memo)
    rw [fades.dependencies]
    rcases fades.dirty _ memo with dirty | ⟨found, _⟩
    · obtain ⟨needed, same⟩ := explained.blamedDirty key owner dependency cause dirty
      refine ⟨needed, fun older => ?_⟩
      obtain ⟨wasOlder, unchanged⟩ := shifts.remembers earlier memo older
      exact unchanged.trans (same wasOlder)
    · obtain ⟨needed, failed⟩ := explained.blamed key owner dependency cause found
      refine ⟨needed, fun older => ?_⟩
      rw [(shifts.remembers earlier memo older).2]
      exact Node.memo_result?_of_result? failed
  case circularDirty =>
    intro key owner path memo
    have old := shifts.not_renewed memo
    have fades := shifts.others key old
    rw [fades.dependencies]
    rcases fades.dirty _ memo with dirty | ⟨found, _⟩
    · obtain ⟨dependency, needed, unsure⟩ := explained.circularDirty key owner path dirty
      exact ⟨dependency, needed, shifts.unsure earlier memo pointed unsure⟩
    · -- Before, the key was on a circle of failures, and now the next key on it is unsure.
      have lost : (after.nodeAt key).isSettled = false := by
        by_contra settled
        obtain ⟨_, result, valid⟩ := Node.isSettled_iff.mp (eq_true_of_ne_false settled)
        rw [memo] at valid
        cases valid
      have dated := shifts.dirty_lt earlier memo
      obtain ⟨dependency, tied, back⟩ :=
        Relation.TransGen.head'_iff.mp (explained.circular key ⟨owner, path, found⟩)
      refine ⟨dependency, tied.2.1, shifts.unsure_of_lost old lost dated tied ?_⟩
      exact (Relation.reflTransGen_iff_eq_or_transGen.mp back).imp_left Eq.symm

end Shift

/-- Where a part of a graph is left that holds all it depends on, its failures
are explained as before. -/
theorem Explained.restrict (explained : before.Explained) (kept : κ → Prop)
    (alike : ∀ key, kept key → (after.nodeAt key).Alike (before.nodeAt key))
    (dropped : ∀ key, ¬ kept key → after.nodeAt key = {})
    (closed : ∀ key, kept key → ∀ dependency ∈ (before.nodeAt key).dependencies, kept dependency) :
    after.Explained := by
  have isKept : ∀ {key result}, (after.nodeAt key).memo.result? = some result → kept key := by
    intro key result found
    by_contra gone
    rw [dropped key gone] at found
    cases found
  constructor
  case owner =>
    intro key failure found
    exact explained.owner key failure ((alike key (isKept found)).memo ▸ found)
  case blamed =>
    intro key owner dependency cause found
    have here := isKept (Node.memo_result?_of_result? found)
    have same := alike key here
    obtain ⟨needed, failed⟩ := explained.blamed key owner dependency cause (same.result? ▸ found)
    rw [same.dependencies, (alike dependency (closed key here dependency needed)).result?]
    exact ⟨needed, failed⟩
  case circular =>
    rintro key ⟨owner, path, found⟩
    have here := isKept (Node.memo_result?_of_result? found)
    have circle := explained.circular key ⟨owner, path, (alike key here).result? ▸ found⟩
    have extend : ∀ {low high}, kept low → before.Tied low high →
        kept high ∧ after.Tied low high := by
      rintro low high isLow ⟨cyclic, needed, cyclicHigh⟩
      have isHigh := closed low isLow high needed
      unfold Tied Cyclic
      rw [(alike low isLow).result?, (alike high isHigh).result?, (alike low isLow).dependencies]
      exact ⟨isHigh, cyclic, needed, cyclicHigh⟩
    have reached : ∀ {other}, Relation.TransGen before.Tied key other →
        kept other ∧ Relation.TransGen after.Tied key other := by
      intro other way
      induction way with
      | single tied => exact (extend here tied).imp_right .single
      | tail _ tied ih => exact (extend ih.1 tied).imp_right ih.2.tail
    exact (reached circle).2
  case blamedDirty =>
    intro key owner dependency cause memo
    have here : kept key := isKept (show _ = some _ by rw [memo]; rfl)
    have same := alike key here
    obtain ⟨needed, remembered⟩ :=
      explained.blamedDirty key owner dependency cause (same.memo ▸ memo)
    have sameDependency := alike dependency (closed key here dependency needed)
    rw [same.dependencies, same.lastEvaluated, sameDependency.lastChanged, sameDependency.memo]
    exact ⟨needed, remembered⟩
  case circularDirty =>
    intro key owner path memo
    have here : kept key := isKept (show _ = some _ by rw [memo]; rfl)
    have same := alike key here
    obtain ⟨dependency, needed, unsure⟩ := explained.circularDirty key owner path (same.memo ▸ memo)
    have sameDependency := alike dependency (closed key here dependency needed)
    rw [same.dependencies]
    refine ⟨dependency, needed, ?_⟩
    unfold Unsure
    rw [same.lastEvaluated, sameDependency.lastChanged, sameDependency.isSettled,
      sameDependency.memo]
    exact unsure

section Chain

variable {failure : Failure κ φ}

theorem state?_of_failure? (found : graph.failure? key = some failure) :
    graph.state? key = some .error := by
  rw [state?_of_result? (result?_of_failure? found)]
  rfl

theorem exists_failure? (failed : graph.state? key = some .error) :
    ∃ failure, graph.failure? key = some failure := by
  obtain ⟨failure, found⟩ := result?_of_error failed
  exact ⟨failure, by simp [failure?, found]⟩

theorem Explained.key_of_failure? (explained : graph.Explained)
    (found : graph.failure? key = some failure) : failure.key = key :=
  explained.owner key failure (Node.memo_result?_of_result? (failure?_eq_some_iff.mp found))

theorem Explained.blamed_of_failure? (explained : graph.Explained) {owner dependency : κ}
    {cause : Failure κ φ} (found : graph.failure? key = some (.dependency owner dependency cause)) :
    dependency ∈ graph.dependencies key ∧ graph.failure? dependency = some cause := by
  rw [dependencies_eq, failure?_eq_some_iff]
  exact explained.blamed key owner dependency cause (failure?_eq_some_iff.mp found)

/-- From the failure of a key one comes down to its root over recorded
dependencies, all of which have failed. -/
theorem Explained.chain (explained : graph.Explained)
    (found : graph.failure? key = some failure) :
    List.IsChain (fun user dependency => dependency ∈ graph.dependencies user) failure.chain ∧
      (∀ member ∈ failure.chain, graph.state? member = some .error) ∧
      graph.failure? failure.root.key = some failure.root := by
  have here := state?_of_failure? found
  have owner := explained.key_of_failure? found
  induction failure generalizing key with
  | dependency user dependency cause ih =>
      obtain rfl : user = key := owner
      obtain ⟨needed, isCause⟩ := explained.blamed_of_failure? found
      have cause_key := explained.key_of_failure? isCause
      obtain ⟨linked, failed, root⟩ := ih isCause (state?_of_failure? isCause) cause_key
      refine ⟨List.IsChain.cons linked fun next isNext => ?_, ?_, root⟩
      · rw [Failure.head?_chain, cause_key, Option.mem_some_iff] at isNext
        exact isNext ▸ needed
      · rintro member (_ | ⟨_, inRest⟩)
        · exact here
        · exact failed member inRest
  | _ =>
      refine ⟨.singleton _, fun member isOwner => ?_, owner ▸ found⟩
      rw [List.mem_singleton.mp isOwner, owner]
      exact here

end Chain

end MemoGraph.Graph
