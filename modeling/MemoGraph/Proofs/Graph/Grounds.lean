import MemoGraph.Proofs.Evaluator.Inputs
import MemoGraph.Round.Commit

namespace MemoGraph

/-! What the results of a graph rest on.

A node keeps no results of its dependencies, only the versions at which they
changed. The versions are enough: as long as no recorded dependency changed
after a key was last evaluated, all of them have the results that the key was
computed from.
-/

variable {κ ν φ : Type}

/-- What is to hold of a lasting result, given the results of its dependencies.
Only those of recorded dependencies count. -/
structure Backing (κ ν φ : Type) where
  holds : κ → Result κ ν φ → Grouping κ → (κ → Option (Result κ ν φ)) → Prop
  /-- Whether a result that is outdated need not have been backed. -/
  fleeting : Prop
  congr : ∀ {key : κ} {result : Result κ ν φ} {dependencies : Grouping κ}
    {results others : κ → Option (Result κ ν φ)},
    (∀ dependency ∈ dependencies, results dependency = others dependency) →
      holds key result dependencies results → holds key result dependencies others

namespace Node

variable {node before after : Node κ ν φ}

theorem memo_result?_of_result? {result : Result κ ν φ} (found : node.result? = some result) :
    node.memo.result? = some result := by
  rw [(result?_eq_some_iff.mp found).2]
  rfl

theorem isSettled_of_result? {result : Result κ ν φ} (found : node.result? = some result) :
    node.isSettled = true := by
  rw [isSettled, found]
  rfl

theorem exists_result? (settled : node.isSettled = true) : ∃ result, node.result? = some result :=
  Option.isSome_iff_exists.mp settled

/-- The node remembers the same evaluation, though its result may no longer be
valid at the given version. -/
structure Fades (version : Version) (before after : Node κ ν φ) : Prop where
  dependencies : after.dependencies = before.dependencies
  lastChanged : after.lastChanged = before.lastChanged
  lastEvaluated : after.lastEvaluated = before.lastEvaluated
  remembers : after.memo.result? = before.memo.result?
  settled : ∀ result, after.result? = some result → before.result? = some result
  dirty : ∀ result, after.memo = .dirty result → before.memo = .dirty result ∨
    (before.result? = some result ∧ before.lastEvaluated < version)

theorem Fades.refl (version : Version) (node : Node κ ν φ) : Fades version node node :=
  ⟨rfl, rfl, rfl, rfl, fun _ => id, fun _ => .inl⟩

theorem Fades.alike {version : Version} {middle : Node κ ν φ} (fades : Fades version before middle)
    (alike : Alike after middle) : Fades version before after := by
  obtain ⟨dependencies, lastChanged, lastEvaluated, remembers, settled, dirty⟩ := fades
  exact ⟨alike.dependencies.trans dependencies, alike.lastChanged.trans lastChanged,
    alike.lastEvaluated.trans lastEvaluated, alike.memo ▸ remembers, alike.result? ▸ settled,
    alike.memo ▸ dirty⟩

/-- A change of the work alone, where none of it makes or breaks a result. -/
theorem Fades.of_work {version : Version} (work : Option (Work κ φ))
    (same : ({ node with work } : Node κ ν φ).result? = node.result?) :
    Fades version node { node with work } :=
  ⟨rfl, rfl, rfl, rfl, fun _ found => same ▸ found, fun _ => .inl⟩

theorem Fades.of_dirtied {version : Version} (dirtied : Dirtied before after)
    (earlier : before.lastEvaluated < version) : Fades version before after := by
  rcases dirtied with rfl | ⟨result, valid, rfl⟩
  · exact .refl version after
  · refine ⟨rfl, rfl, rfl, (memo_result?_of_result? valid).symm, fun other found => ?_,
      fun other memo => ?_⟩
    · rw [result?_dirty] at found
      cases found
    · cases memo
      exact .inr ⟨valid, earlier⟩

theorem Fades.of_marked {version : Version} (marked : Marked before after)
    (earlier : before.lastEvaluated < version) : Fades version before after := by
  rcases marked with dirtied | ⟨result, _, _, memo, rfl⟩
  · exact .of_dirtied dirtied earlier
  · refine ⟨rfl, rfl, rfl, ?_, fun other found => ?_, fun other impossible => ?_⟩
    · rcases memo with memo | memo <;> rw [memo] <;> rfl
    · obtain ⟨_, impossible⟩ := result?_eq_some_iff.mp found
      cases impossible
    · cases impossible

end Node

namespace Graph

variable [Key κ] {backing : Backing κ ν φ} {graph before after : Graph κ ν φ}
  {version later : Version}

/-- A recorded dependency changed after the key was last evaluated. -/
def Outdated (graph : Graph κ ν φ) (key : κ) : Prop :=
  ∃ dependency ∈ (graph.nodeAt key).dependencies,
    (graph.nodeAt key).lastEvaluated < (graph.nodeAt dependency).lastChanged

/-- Lasting results rest on results that did not change since, and results that
are not outdated rest on the results that their dependencies had then. -/
structure Grounded (backing : Backing κ ν φ) (graph : Graph κ ν φ) (version : Version) :
    Prop where
  changed_le : ∀ key, (graph.nodeAt key).lastChanged ≤ version
  evaluated_le : ∀ key, (graph.nodeAt key).lastEvaluated ≤ version
  dirty_lt : ∀ key result, (graph.nodeAt key).memo = .dirty result →
    (graph.nodeAt key).lastEvaluated < version
  settled : ∀ key result, (graph.nodeAt key).result? = some result →
    Round.isTransient result = false →
      (∀ dependency ∈ (graph.nodeAt key).dependencies,
        (graph.nodeAt dependency).isSettled = true ∧
          (graph.nodeAt dependency).lastChanged ≤ (graph.nodeAt key).lastEvaluated) ∧
      backing.holds key result (graph.nodeAt key).dependencies
        fun dependency => (graph.nodeAt dependency).result?
  dirty : ∀ key result, (graph.nodeAt key).memo = .dirty result →
    Round.isTransient result = false → (backing.fleeting ∧ graph.Outdated key) ∨
      ∃ results, (∀ dependency ∈ (graph.nodeAt key).dependencies,
          (graph.nodeAt dependency).lastChanged ≤ (graph.nodeAt key).lastEvaluated →
            (graph.nodeAt dependency).memo.result? = results dependency) ∧
        backing.holds key result (graph.nodeAt key).dependencies results

theorem Grounded.empty (backing : Backing κ ν φ) : Grounded backing {} .initial where
  changed_le _ := Nat.le_refl _
  evaluated_le _ := Nat.le_refl _
  dirty_lt _ _ memo := by cases memo
  settled _ _ found := by cases found
  dirty _ _ memo := by cases memo

/-- The renewed keys get results at the given version, all others remember what
they did, and a result that stays keeps the results that it rested on. -/
structure Shifts (version : Version) (renewed : κ → Prop) (before after : Graph κ ν φ) :
    Prop where
  others : ∀ key, ¬ renewed key → (before.nodeAt key).Fades version (after.nodeAt key)
  evaluated : ∀ key, renewed key → (after.nodeAt key).isSettled = true ∧
    (after.nodeAt key).lastEvaluated = version
  changed : ∀ key, renewed key → (after.nodeAt key).lastChanged = version ∨
    ((before.nodeAt key).isSettled = false ∧
      (after.nodeAt key).lastChanged = (before.nodeAt key).lastChanged ∧
      (after.nodeAt key).memo.result? = (before.nodeAt key).memo.result?)
  kept : ∀ key, ¬ renewed key → (after.nodeAt key).isSettled = true →
    ∀ dependency ∈ (after.nodeAt key).dependencies,
      (before.nodeAt dependency).isSettled = true →
        ¬ renewed dependency ∧ (after.nodeAt dependency).isSettled = true

/-- Where nothing is renewed and no result is lost, nothing else can shift. -/
theorem Shifts.of_fades
    (fades : ∀ key, (before.nodeAt key).Fades version (after.nodeAt key))
    (settled : ∀ key, (before.nodeAt key).isSettled = true → (after.nodeAt key).isSettled = true) :
    Shifts version (fun _ => False) before after :=
  ⟨fun key _ => fades key, fun _ never => never.elim, fun _ never => never.elim,
    fun _ _ _ dependency _ isSettled => ⟨id, settled dependency isSettled⟩⟩

section Shift

variable {renewed : κ → Prop} (shifts : Shifts later renewed before after)
include shifts

theorem Shifts.not_renewed {key : κ} {result : Result κ ν φ}
    (memo : (after.nodeAt key).memo = .dirty result) : ¬ renewed key := by
  intro isRenewed
  obtain ⟨found, settled⟩ := Node.exists_result? (shifts.evaluated key isRenewed).1
  rw [(Node.result?_eq_some_iff.mp settled).2] at memo
  cases memo

/-- A key that is not renewed and rested on results still rests on the same. -/
theorem Shifts.result?_of_kept {key dependency : κ} {result : Result κ ν φ} (old : ¬ renewed key)
    (settled : (after.nodeAt key).isSettled = true)
    (needed : dependency ∈ (before.nodeAt key).dependencies)
    (found : (before.nodeAt dependency).result? = some result) :
    ¬ renewed dependency ∧ (after.nodeAt dependency).result? = some result := by
  rw [← (shifts.others key old).dependencies] at needed
  obtain ⟨isOld, kept⟩ := shifts.kept key old settled dependency needed
    (Node.isSettled_of_result? found)
  obtain ⟨other, isOther⟩ := Node.exists_result? kept
  have same := (shifts.others dependency isOld).settled other isOther
  rw [found] at same
  exact ⟨isOld, isOther.trans same.symm⟩

theorem Shifts.changed_le {key : κ} (bound : (before.nodeAt key).lastChanged ≤ later) :
    (after.nodeAt key).lastChanged ≤ later := by
  by_cases isRenewed : renewed key
  · rcases shifts.changed key isRenewed with new | ⟨_, old, _⟩
    · exact Nat.le_of_eq new
    · exact old ▸ bound
  · exact (shifts.others key isRenewed).lastChanged ▸ bound

theorem Shifts.evaluated_le {key : κ} (bound : (before.nodeAt key).lastEvaluated ≤ later) :
    (after.nodeAt key).lastEvaluated ≤ later := by
  by_cases isRenewed : renewed key
  · exact Nat.le_of_eq (shifts.evaluated key isRenewed).2
  · exact (shifts.others key isRenewed).lastEvaluated ▸ bound

variable (earlier : ∀ key result, (before.nodeAt key).memo = .dirty result →
  (before.nodeAt key).lastEvaluated < later)
include earlier

theorem Shifts.dirty_lt {key : κ} {result : Result κ ν φ}
    (memo : (after.nodeAt key).memo = .dirty result) :
    (after.nodeAt key).lastEvaluated < later := by
  have fades := shifts.others key (shifts.not_renewed memo)
  rw [fades.lastEvaluated]
  rcases fades.dirty result memo with dirty | ⟨_, outdated⟩
  · exact earlier key result dirty
  · exact outdated

theorem Shifts.newer {key dependency : κ} {result : Result κ ν φ}
    (memo : (after.nodeAt key).memo = .dirty result)
    (newer : (before.nodeAt key).lastEvaluated < (before.nodeAt dependency).lastChanged) :
    (after.nodeAt key).lastEvaluated < (after.nodeAt dependency).lastChanged := by
  have dated := shifts.dirty_lt earlier memo
  rw [← (shifts.others key (shifts.not_renewed memo)).lastEvaluated] at newer
  by_cases isRenewed : renewed dependency
  · rcases shifts.changed dependency isRenewed with new | ⟨_, old, _⟩
    · exact new ▸ dated
    · exact old ▸ newer
  · exact (shifts.others dependency isRenewed).lastChanged ▸ newer

theorem Shifts.remembers {key dependency : κ} {result : Result κ ν φ}
    (memo : (after.nodeAt key).memo = .dirty result)
    (older : (after.nodeAt dependency).lastChanged ≤ (after.nodeAt key).lastEvaluated) :
    (before.nodeAt dependency).lastChanged ≤ (before.nodeAt key).lastEvaluated ∧
      (after.nodeAt dependency).memo.result? = (before.nodeAt dependency).memo.result? := by
  have dated := shifts.dirty_lt earlier memo
  rw [← (shifts.others key (shifts.not_renewed memo)).lastEvaluated]
  by_cases isRenewed : renewed dependency
  · rcases shifts.changed dependency isRenewed with new | ⟨_, old, same⟩
    · rw [new] at older
      exact absurd older (Nat.not_le_of_lt dated)
    · exact ⟨old ▸ older, same⟩
  · have unchanged := shifts.others dependency isRenewed
    exact ⟨unchanged.lastChanged ▸ older, unchanged.remembers⟩

end Shift

/-- Results stay grounded when the renewed ones are. -/
theorem Grounded.shift {renewed : κ → Prop} (grounded : Grounded backing before version)
    (shifts : Shifts later renewed before after) (order : version ≤ later)
    (grounds : ∀ key result, renewed key → (after.nodeAt key).result? = some result →
      Round.isTransient result = false →
        (∀ dependency ∈ (after.nodeAt key).dependencies,
          (after.nodeAt dependency).isSettled = true) ∧
        backing.holds key result (after.nodeAt key).dependencies
          fun dependency => (after.nodeAt dependency).result?) :
    Grounded backing after later := by
  have earlier : ∀ key result, (before.nodeAt key).memo = .dirty result →
      (before.nodeAt key).lastEvaluated < later :=
    fun key result memo => Nat.lt_of_lt_of_le (grounded.dirty_lt key result memo) order
  have changed_le : ∀ key, (after.nodeAt key).lastChanged ≤ later :=
    fun key => shifts.changed_le (Nat.le_trans (grounded.changed_le key) order)
  constructor
  case changed_le => exact changed_le
  case evaluated_le =>
    exact fun key => shifts.evaluated_le (Nat.le_trans (grounded.evaluated_le key) order)
  case dirty_lt => exact fun key result => shifts.dirty_lt earlier
  case settled =>
    intro key result found lasting
    by_cases isRenewed : renewed key
    · obtain ⟨settled, holds⟩ := grounds key result isRenewed found lasting
      refine ⟨fun dependency needed => ⟨settled dependency needed, ?_⟩, holds⟩
      rw [(shifts.evaluated key isRenewed).2]
      exact changed_le dependency
    · have fades := shifts.others key isRenewed
      obtain ⟨settled, holds⟩ := grounded.settled key result (fades.settled result found) lasting
      have kept : ∀ dependency ∈ (before.nodeAt key).dependencies, ¬ renewed dependency ∧
          (after.nodeAt dependency).result? = (before.nodeAt dependency).result? := by
        intro dependency needed
        obtain ⟨other, isOther⟩ := Node.exists_result? (settled dependency needed).1
        obtain ⟨isOld, same⟩ := shifts.result?_of_kept isRenewed (Node.isSettled_of_result? found)
          needed isOther
        exact ⟨isOld, same.trans isOther.symm⟩
      rw [fades.dependencies]
      refine ⟨fun dependency needed => ?_,
        backing.congr (fun dependency needed => (kept dependency needed).2.symm) holds⟩
      obtain ⟨isOld, same⟩ := kept dependency needed
      rw [Node.isSettled, same, (shifts.others dependency isOld).lastChanged, fades.lastEvaluated]
      exact settled dependency needed
  case dirty =>
    intro key result memo lasting
    have fades := shifts.others key (shifts.not_renewed memo)
    rcases fades.dirty result memo with dirty | ⟨found, _⟩
    · rcases grounded.dirty key result dirty lasting with ⟨fleeting, dependency, needed, newer⟩ |
        ⟨results, same, holds⟩
      · refine .inl ⟨fleeting, dependency, ?_, shifts.newer earlier memo newer⟩
        rwa [fades.dependencies]
      · rw [← fades.dependencies] at same holds
        refine .inr ⟨results, fun dependency needed older => ?_, holds⟩
        obtain ⟨wasOlder, unchanged⟩ := shifts.remembers earlier memo older
        rw [unchanged]
        exact same dependency needed wasOlder
    · -- The result was valid before and is remembered now: what it rested on was settled then.
      obtain ⟨settled, holds⟩ := grounded.settled key result found lasting
      rw [← fades.dependencies] at settled holds
      refine .inr ⟨_, fun dependency needed older => ?_, holds⟩
      obtain ⟨other, isResult⟩ := Node.exists_result? (settled dependency needed).1
      rw [(shifts.remembers earlier memo older).2, isResult]
      exact Node.memo_result?_of_result? isResult

/-- Only what may still hold needs a backing. -/
theorem Grounded.rebase {other : Backing κ ν φ} (grounded : Grounded backing graph version)
    (fleeting : backing.fleeting → other.fleeting)
    (settled : ∀ key result results, (graph.nodeAt key).result? = some result →
      backing.holds key result (graph.nodeAt key).dependencies results →
        other.holds key result (graph.nodeAt key).dependencies results)
    (dirty : ∀ key result results, (graph.nodeAt key).memo = .dirty result →
      backing.holds key result (graph.nodeAt key).dependencies results →
        (other.fleeting ∧ graph.Outdated key) ∨
          other.holds key result (graph.nodeAt key).dependencies results) :
    Grounded other graph version := by
  refine ⟨grounded.changed_le, grounded.evaluated_le, grounded.dirty_lt, ?_, ?_⟩
  · intro key result found lasting
    obtain ⟨rests, holds⟩ := grounded.settled key result found lasting
    exact ⟨rests, settled key result _ found holds⟩
  · intro key result memo lasting
    rcases grounded.dirty key result memo lasting with ⟨isFleeting, outdated⟩ |
      ⟨results, same, holds⟩
    · exact .inl ⟨fleeting isFleeting, outdated⟩
    · rcases dirty key result results memo holds with outdated | holds
      · exact .inl outdated
      · exact .inr ⟨results, same, holds⟩

end Graph

end MemoGraph
