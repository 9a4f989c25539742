import MemoGraph.Proofs.Evaluator.Histories
import MemoGraph.Proofs.Round.Grounds

namespace MemoGraph

variable {κ ν φ : Type} [Key κ] {backing : Backing κ ν φ}

namespace Graph

variable {before after : Graph κ ν φ} {version later : Version}

/-- What loses its result takes the results of its dependents with it. -/
theorem Marked.shifts (marked : Marked before after) (linked : before.Linked)
    (earlier : ∀ key, (before.nodeAt key).lastEvaluated < version) :
    Shifts version (fun _ => False) before after := by
  have fades : ∀ key, (before.nodeAt key).Fades version (after.nodeAt key) := fun key =>
    .of_marked (marked.nodes key) (earlier key)
  refine ⟨fun key _ => fades key, fun _ never => never.elim, fun _ never => never.elim,
    fun key _ found dependency needed settled => ⟨id, ?_⟩⟩
  rw [(fades key).dependencies] at needed
  by_contra lost
  have unsettled := marked.closed dependency settled (eq_false_of_ne_true lost) key
    ((linked key dependency).mpr needed)
  rw [found] at unsettled
  cases unsettled

theorem Grounded.marked (grounded : Grounded backing before version)
    (marked : Marked before after) (linked : before.Linked) (order : version < later) :
    Grounded backing after later :=
  grounded.shift
    (marked.shifts linked fun key => Nat.lt_of_le_of_lt (grounded.evaluated_le key) order)
    (Nat.le_of_lt order) fun _ _ never => never.elim

end Graph

namespace Evaluator

variable {evaluator : Evaluator κ ν φ}

/-- The results of an evaluator rest on results that did not change since. -/
abbrev Grounded (backing : Backing κ ν φ) (evaluator : Evaluator κ ν φ) : Prop :=
  Graph.Grounded backing evaluator.graph evaluator.version

theorem Grounded.invalidateFor (grounded : Grounded backing evaluator) (tidy : Tidy evaluator)
    (reason : Reason) (keys : List κ) :
    Grounded backing (evaluator.invalidateFor reason keys).1 :=
  Graph.Grounded.marked grounded (evaluator.invalidateFor_marked reason keys) tidy.linked
    (Nat.lt_succ_self evaluator.version)

theorem Grounded.retryTransient (grounded : Grounded backing evaluator) (tidy : Tidy evaluator) :
    Grounded backing evaluator.retryTransient := by
  have cleared : Grounded backing { evaluator with retries := [] } := grounded
  exact retryTransient_kept (Grounded backing) grounded
    (cleared.invalidateFor ⟨tidy.rested, tidy.linked⟩ .transientRetry)

/-- What is pruned rests on nothing, and nothing that is kept rests on it. -/
theorem Grounded.prune (grounded : Grounded backing evaluator) (tidy : Tidy evaluator)
    (keep : List κ) : Grounded backing (evaluator.prune keep).1 := by
  have node := @nodeAt_prune κ ν φ _ evaluator keep
  have dropped : ∀ key, evaluator.kept keep key ≠ true →
      (evaluator.prune keep).1.graph.nodeAt key = {} := fun key gone => by
    rw [node, if_neg gone]
  have alike : ∀ key, evaluator.kept keep key = true →
      ((evaluator.prune keep).1.graph.nodeAt key).Alike (evaluator.graph.nodeAt key) :=
    fun key isKept => by
      rw [node, if_pos isKept]
      rfl
  have kept : ∀ {key dependency}, evaluator.kept keep key = true →
      dependency ∈ (evaluator.graph.nodeAt key).dependencies →
        ((evaluator.prune keep).1.graph.nodeAt dependency).Alike
          (evaluator.graph.nodeAt dependency) :=
    fun isKept needed => alike _ (kept_of_dependency tidy isKept needed)
  constructor
  case changed_le =>
    intro key
    by_cases isKept : evaluator.kept keep key = true
    · rw [(alike key isKept).lastChanged]
      exact grounded.changed_le key
    · rw [dropped key isKept]
      exact Nat.zero_le _
  case evaluated_le =>
    intro key
    by_cases isKept : evaluator.kept keep key = true
    · rw [(alike key isKept).lastEvaluated]
      exact grounded.evaluated_le key
    · rw [dropped key isKept]
      exact Nat.zero_le _
  case dirty_lt =>
    intro key result memo
    by_cases isKept : evaluator.kept keep key = true
    · rw [(alike key isKept).lastEvaluated]
      exact grounded.dirty_lt key result ((alike key isKept).memo ▸ memo)
    · rw [dropped key isKept] at memo
      cases memo
  case settled =>
    intro key result found lasting
    by_cases isKept : evaluator.kept keep key = true
    · have same := alike key isKept
      obtain ⟨settled, holds⟩ := grounded.settled key result (same.result? ▸ found) lasting
      rw [same.dependencies]
      refine ⟨fun dependency needed => ?_, backing.congr (fun dependency needed => ?_) holds⟩
      · rw [(kept isKept needed).isSettled, (kept isKept needed).lastChanged, same.lastEvaluated]
        exact settled dependency needed
      · rw [(kept isKept needed).result?]
    · rw [dropped key isKept] at found
      cases found
  case dirty =>
    intro key result memo lasting
    by_cases isKept : evaluator.kept keep key = true
    · have same := alike key isKept
      unfold Graph.Outdated
      rw [same.dependencies, same.lastEvaluated]
      rcases grounded.dirty key result (same.memo ▸ memo) lasting with
        ⟨fleeting, dependency, needed, newer⟩ | ⟨results, older, holds⟩
      · refine .inl ⟨fleeting, dependency, needed, ?_⟩
        rw [(kept isKept needed).lastChanged]
        exact newer
      · refine .inr ⟨results, fun dependency needed => ?_, holds⟩
        rw [(kept isKept needed).lastChanged, (kept isKept needed).memo]
        exact older dependency needed
    · rw [dropped key isKept] at memo
      cases memo

section Inject

variable [BEq ν] {key : κ} {value : ν}

theorem fades_inject_of_equal (equal : (evaluator.graph.value? key).any (· == value) = true)
    (other : κ) : (evaluator.graph.nodeAt other).Fades evaluator.version
      ((evaluator.inject key value).1.graph.nodeAt other) := by
  rw [nodeAt_inject_of_equal equal]
  split
  · rename_i same
    rw [same]
    exact ⟨rfl, rfl, rfl, rfl, fun _ => id, fun _ => .inl⟩
  · exact .refl ..

theorem shifts_inject_of_equal (equal : (evaluator.graph.value? key).any (· == value) = true) :
    Graph.Shifts evaluator.version (fun _ => False) evaluator.graph
      (evaluator.inject key value).1.graph := by
  refine .of_fades (fades_inject_of_equal equal) fun other settled => ?_
  rw [nodeAt_inject_of_equal equal]
  split
  · rename_i same
    exact same ▸ settled
  · exact settled

theorem Grounded.inject_of_equal (grounded : Grounded backing evaluator)
    (equal : (evaluator.graph.value? key).any (· == value) = true) :
    Grounded backing (evaluator.inject key value).1 := by
  have version : (evaluator.inject key value).1.version = evaluator.version := by
    rw [Evaluator.inject_of_equal equal]
  unfold Grounded
  rw [version]
  exact grounded.shift (shifts_inject_of_equal equal) (Nat.le_refl _) fun _ _ never => never.elim

omit [BEq ν] in
theorem Replaced.fades {after : Evaluator κ ν φ} (replaced : Replaced evaluator key value after)
    (earlier : ∀ other, (evaluator.graph.nodeAt other).lastEvaluated ≤ evaluator.version)
    {other : κ} (isOther : other ≠ key) :
    (evaluator.graph.nodeAt other).Fades evaluator.version.next (after.graph.nodeAt other) := by
  have later := Nat.lt_succ_of_le (earlier other)
  rcases replaced.others other isOther with alike | ⟨result, valid, alike⟩
  · exact (Node.Fades.refl _ _).alike alike
  · exact (Node.Fades.of_dirtied (.inr ⟨result, valid, rfl⟩) later).alike alike

omit [BEq ν] in
/-- A new value renews its key, and takes the results of its dependents. -/
theorem Replaced.shifts {after : Evaluator κ ν φ} (replaced : Replaced evaluator key value after)
    (tidy : Tidy evaluator)
    (earlier : ∀ other, (evaluator.graph.nodeAt other).lastEvaluated ≤ evaluator.version) :
    Graph.Shifts evaluator.version.next (· = key) evaluator.graph after.graph := by
  constructor
  case others => exact fun other isOther => replaced.fades earlier isOther
  case evaluated =>
    rintro _ rfl
    rw [replaced.self.isSettled]
    exact ⟨rfl, replaced.self.lastEvaluated⟩
  case changed =>
    rintro _ rfl
    exact .inl replaced.self.lastChanged
  case kept =>
    intro other isOther valid dependency needed settled
    rw [(replaced.fades earlier isOther).dependencies] at needed
    have listed := (tidy.linked other dependency).mpr needed
    have lost : ¬ (dependency = key ∨
        ((evaluator.graph.nodeAt dependency).isSettled = true ∧
          (after.graph.nodeAt dependency).isSettled = false)) := by
      intro gone
      have unsettled := replaced.closed dependency gone other isOther listed
      rw [valid] at unsettled
      cases unsettled
    refine ⟨fun same => lost (.inl same), ?_⟩
    by_contra gone
    exact lost (.inr ⟨settled, eq_false_of_ne_true gone⟩)

/-- A value from outside rests on nothing. -/
theorem Grounded.inject_of_different (grounded : Grounded backing evaluator)
    (tidy : Tidy evaluator) (different : (evaluator.graph.value? key).any (· == value) = false)
    (holds : ∀ results, backing.holds key (.ok value) .empty results) :
    Grounded backing (evaluator.inject key value).1 := by
  have replaced := inject_replaced tidy different
  unfold Grounded
  rw [replaced.version]
  refine grounded.shift (replaced.shifts tidy grounded.evaluated_le) (Nat.le_succ _) ?grounds
  rintro _ result rfl valid lasting
  rw [replaced.self.result?] at valid
  cases valid
  rw [replaced.self.dependencies]
  exact ⟨fun dependency none => (List.not_mem_nil none).elim, holds _⟩

end Inject

/-- What is grounded when a round ends is grounded between rounds. -/
theorem Grounded.closeRound [BEq ν] {registry : Registry κ ν φ} {roots : List κ}
    {final : Round κ ν φ} {halt : Round.Halt} (tidy : Tidy evaluator)
    (ends : Round.Ends registry (distinct roots) (evaluator.opening roots) final halt)
    (grounded : Round.Grounded backing final) :
    Grounded backing (evaluator.retryTransient.closeRound final halt) := by
  have version := ends.version (nodup_distinct roots) (tidy.rested_opening roots)
  rw [Round.Grounded, version] at grounded
  exact grounded

end Evaluator

end MemoGraph
