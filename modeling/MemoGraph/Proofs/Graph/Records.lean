import MemoGraph.Proofs.Graph.Marking
import MemoGraph.Proofs.Graph.Outlines
import MemoGraph.Proofs.Records

namespace MemoGraph

theorem Memo.result?_of_value? {κ ν φ : Type} {memo : Memo κ ν φ} {value : ν}
    (found : memo.value? = some value) : memo.result? = some (.ok value) := by
  unfold value? at found
  split at found
  · cases found
    assumption
  · cases found

namespace Node

variable {κ ν φ : Type} {node other : Node κ ν φ}

section Operations

theorem record_takeUp? (node : Node κ ν φ) :
    node.record.takeUp? = node.takeUp?.map Node.record := by
  obtain ⟨memo, _, _, _, _, _, work⟩ := node
  cases work with
  | some work => rfl
  | none =>
      cases memo with
      | valid result => cases result <;> rfl
      | blank | dirty | changed => rfl

theorem record_updateWork (node : Node κ ν φ) (change : Work κ φ → Work κ φ) :
    (node.updateWork change).record = node.record.updateWork change := by
  obtain ⟨_, _, _, _, _, _, work⟩ := node
  cases work <;> rfl

theorem record_lookup? (node : Node κ ν φ) : node.record.lookup? = node.result? := by
  obtain ⟨memo, _, _, _, _, _, work⟩ := node
  cases work with
  | some work => rfl
  | none =>
      cases memo with
      | valid result => cases result <;> rfl
      | blank | dirty | changed => rfl

theorem keeps_ok [BEq ν] (node : Node κ ν φ) (value : ν) :
    node.keeps (.ok value) = (node.record.failure.isNone && node.record.holds value) := by
  simp only [keeps, record, Record.holds, Memo.value?, Memo.failure?]
  cases node.memo.result? with
  | none => rfl
  | some old => cases old <;> rfl

theorem record_commit [BEq ν] (node : Node κ ν φ) (version : Version) (result : Result κ ν φ)
    (dependencies : Grouping κ) :
    (node.commit version result dependencies).record =
      node.record.commit version result dependencies := by
  cases result with
  | error failure => rfl
  | ok value =>
      have same := node.keeps_ok value
      cases kept : node.keeps (.ok value) with
      | false =>
          rw [kept] at same
          simp only [commit, kept, Record.commit, ← same]
          rfl
      | true =>
          rw [kept] at same
          obtain ⟨_, held⟩ := Bool.and_eq_true_iff.mp same.symm
          obtain ⟨old, stored, _⟩ := Record.exists_value_of_holds held
          have remembered := Memo.result?_of_value? stored
          simp only [commit, kept, Record.commit, ← same, stored, remembered]
          rfl

theorem record_revalidate {result : Result κ ν φ} (remembered : node.memo.result? = some result)
    (version : Version) : (node.revalidate version).record = node.record.revalidate version := by
  have accepted : node.revalidate version =
      { node with memo := .valid result, lastEvaluated := version, work := none } := by
    rw [revalidate, remembered]
    rfl
  rw [accepted]
  cases result with
  | ok value =>
      simp only [record, Record.revalidate, Memo.value?, Memo.failure?, remembered]
      rfl
  | error failure =>
      simp only [record, Record.revalidate, Memo.value?, Memo.failure?, remembered]
      rfl

/-- A dirty node remembers a result, so it is revalidated as its record is. -/
theorem record_revalidate_of_dirty (dirty : node.memo.state = .dirty) (version : Version) :
    (node.revalidate version).record = node.record.revalidate version := by
  cases memo : node.memo with
  | dirty result =>
      have remembered : node.memo.result? = some result := by
        rw [memo]
        rfl
      exact record_revalidate remembered version
  | valid result => cases result <;> simp [memo, Memo.state] at dirty
  | blank | changed => simp [memo, Memo.state] at dirty

theorem record_rollBack (node : Node κ ν φ) : node.rollBack.record = node.record.rollBack := by
  obtain ⟨memo, _, _, _, _, _, work⟩ := node
  cases work with
  | some work => rfl
  | none =>
      cases memo with
      | valid result => cases result <;> rfl
      | blank | dirty | changed => rfl

theorem record_markDirty {result : Result κ ν φ} (valid : node.result? = some result) :
    ({ node with memo := .dirty result } : Node κ ν φ).record = node.record.markDirty := by
  obtain ⟨free, memo⟩ := result?_eq_some_iff.mp valid
  obtain ⟨_, _, _, _, _, _, _⟩ := node
  cases free
  cases memo
  cases result <;> rfl

theorem record_markChanged {result : Result κ ν φ} (computed : node.injected = false)
    (free : node.work = none) (memo : node.memo = .valid result ∨ node.memo = .dirty result) :
    ({ node with memo := .changed result } : Node κ ν φ).record = node.record.markChanged := by
  obtain ⟨_, _, _, _, _, _, _⟩ := node
  cases computed
  cases free
  rcases memo with valid | dirty
  · cases valid
    cases result <;> rfl
  · cases dirty
    rfl

end Operations

theorem atRest_of_free [BEq ν] (written : node.record.Written) (free : node.work = none) :
    node.record.AtRest := by
  refine written.wellFormed.atRest fun evaluating => ?_
  have taken := state_eq_evaluating_iff.mp evaluating
  rw [free] at taken
  cases taken

section Writes

variable [BEq ν]

/-- The record of the one node becomes that of the other by writes. -/
def Writes (node other : Node κ ν φ) : Prop := Record.Writes node.record other.record

theorem Writes.refl (node : Node κ ν φ) : Writes node node := Relation.ReflTransGen.refl

theorem Writes.trans (left : Writes node other) {last : Node κ ν φ} (right : Writes other last) :
    Writes node last :=
  Relation.ReflTransGen.trans left right

theorem Writes.of_write (write : Record.Write node.record other.record) : Writes node other :=
  Relation.ReflTransGen.single write

theorem writes_relist (node : Node κ ν φ) (dependents : List κ) :
    Writes node { node with dependents } :=
  .of_write (.relist node.record dependents)

theorem writes_updateWork {change : Work κ φ → Work κ φ}
    (onward : ∀ work, node.work = some work → (change work).phase.isChecking = true →
      work.phase.isChecking = true) : Writes node (node.updateWork change) := by
  refine .of_write ?_
  rw [record_updateWork]
  refine .progress node.record change fun building found checking => ?_
  obtain ⟨work, isWork, rfl⟩ := Option.map_eq_some_iff.mp found
  exact onward work isWork checking

/-- Who waits for a key and who depends on it is written like everything else. -/
theorem Alike.writes (alike : Alike other node) : Writes node other := by
  have relisted := node.writes_relist other.dependents
  have memo := alike.memo
  have dependencies := alike.dependencies
  have lastChanged := alike.lastChanged
  have lastEvaluated := alike.lastEvaluated
  have injected := alike.injected
  cases found : other.work with
  | none =>
      have free : node.work = none := alike.work_none.mp found
      obtain ⟨_, _, _, _, _, _, _⟩ := other
      obtain ⟨_, _, _, _, _, _, _⟩ := node
      subst memo dependencies lastChanged lastEvaluated injected found free
      exact relisted
  | some work =>
      obtain ⟨same, isWork, phase, _⟩ := alike.work_some found
      have worked : Writes { node with dependents := other.dependents }
          (updateWork { node with dependents := other.dependents } fun _ => work) := by
        refine writes_updateWork fun given isGiven checking => ?_
        rw [Option.some.inj (isGiven.symm.trans isWork), phase]
        exact checking
      have both := relisted.trans worked
      obtain ⟨_, _, _, _, _, _, _⟩ := other
      obtain ⟨_, _, _, _, _, _, _⟩ := node
      subst memo dependencies lastChanged lastEvaluated injected found isWork
      exact both

theorem writes_takeUp {taken : Node κ ν φ} (found : node.takeUp? = some taken) :
    Writes node taken := by
  refine .of_write (.takeUp ?_)
  rw [record_takeUp?, found]
  rfl

theorem writes_commit (node : Node κ ν φ) (version : Version) (result : Result κ ν φ)
    (dependencies : Grouping κ) : Writes node (node.commit version result dependencies) := by
  refine .of_write ?_
  rw [record_commit]
  exact .commit node.record version result dependencies

theorem writes_revalidate {work : Work κ φ} {result : Result κ ν φ}
    (found : node.work = some work) (checking : work.phase.isChecking = true)
    (remembered : node.memo.result? = some result) (version : Version) :
    Writes node (node.revalidate version) := by
  have building : node.record.building = some ⟨node.memo.state, work⟩ := by
    rw [record, found]
    rfl
  refine .of_write ?_
  rw [record_revalidate remembered]
  exact .revalidate version building checking

theorem writes_rollBack (node : Node κ ν φ) : Writes node node.rollBack := by
  refine .of_write ?_
  rw [record_rollBack]
  exact .rollBack node.record

theorem writes_forget (node : Node κ ν φ) : Writes node {} :=
  .of_write (.forget node.record)

theorem Dirtied.writes (dirtied : Dirtied node other) : Writes node other := by
  rcases dirtied with rfl | ⟨result, valid, rfl⟩
  · exact .refl _
  · refine .of_write ?_
    rw [record_markDirty valid]
    exact .markDirty node.record

theorem Marked.writes (marked : Marked node other) : Writes node other := by
  rcases marked with dirtied | ⟨result, computed, free, memo, rfl⟩
  · exact dirtied.writes
  · refine .of_write ?_
    rw [record_markChanged computed free memo]
    exact .markChanged node.record

end Writes

end Node

namespace Graph

variable {κ ν φ : Type} [Key κ] [BEq ν] {before middle after : Graph κ ν φ}

/-- Whatever differs between the graphs was written. -/
def Writes (before after : Graph κ ν φ) : Prop :=
  ∀ key, (before.nodeAt key).Writes (after.nodeAt key)

theorem Writes.refl (graph : Graph κ ν φ) : Writes graph graph := fun _ => .refl _

theorem Writes.trans (left : Writes before middle) (right : Writes middle after) :
    Writes before after := fun key => (left key).trans (right key)

end Graph

end MemoGraph
