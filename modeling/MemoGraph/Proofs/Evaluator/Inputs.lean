import MemoGraph.Evaluator.Evaluate
import MemoGraph.Proofs.Graph.Marking
import MemoGraph.Proofs.Graph.Outlines
import MemoGraph.Proofs.Graph.Pruning

namespace MemoGraph

/-- The node with a value that is set from outside. It rests on nothing. -/
def Node.withValue {κ ν φ : Type} (node : Node κ ν φ) (version : Version) (value : ν) :
    Node κ ν φ :=
  { node with
    memo := .valid (.ok value)
    dependencies := .empty
    lastChanged := version
    lastEvaluated := version
    injected := true
    work := none }

namespace Graph

variable {κ ν φ : Type} [Key κ] {before after : Graph κ ν φ}

theorem Dirtied.linked (dirtied : Dirtied before after) (linked : before.Linked) :
    after.Linked := by
  intro dependent dependency
  rw [(dirtied.nodes dependency).dependents, linked]
  rcases dirtied.nodes dependent with same | ⟨_, _, same⟩ <;> rw [same]

theorem Marked.linked (marked : Marked before after) (linked : before.Linked) :
    after.Linked := by
  intro dependent dependency
  rw [(marked.nodes dependency).dependents, linked]
  rcases marked.nodes dependent with (same | ⟨_, _, same⟩) | ⟨_, _, _, _, same⟩ <;> rw [same]

section WithValue

/-- The graph in which a key was given a value, and nobody was told yet. -/
def withValue (graph : Graph κ ν φ) (version : Version) (key : κ) (value : ν) : Graph κ ν φ :=
  ((graph.ensure key).update key fun node => node.withValue version value).relink key
    (graph.nodeAt key).dependencies .empty

variable {graph : Graph κ ν φ} {version : Version} {key : κ} {value : ν}

theorem nodeAt_withValue (other : κ) : (graph.withValue version key value).nodeAt other =
    (if other = key then (graph.nodeAt key).withValue version value
      else graph.nodeAt other).relinked key (decide (other ∈ (graph.nodeAt key).dependencies))
        false := by
  have nowhere : decide (other ∈ (Grouping.empty : Grouping κ)) = false :=
    decide_eq_false List.not_mem_nil
  rw [withValue, nodeAt_relink, nodeAt_update (mem_keys_ensure.mpr (.inl rfl)), nodeAt_ensure,
    nodeAt_ensure, nowhere]

theorem alike_withValue (other : κ) (different : other ≠ key) :
    ((graph.withValue version key value).nodeAt other).Alike (graph.nodeAt other) := by
  rw [nodeAt_withValue, if_neg different]
  exact Node.alike_relinked ..

theorem mem_keys_withValue {other : κ} :
    other ∈ (graph.withValue version key value).keys ↔ other = key ∨ other ∈ graph.keys := by
  have nowhere : other ∉ (Grouping.empty : Grouping κ) := List.not_mem_nil
  rw [withValue, mem_keys_relink, mem_keys_update, mem_keys_ensure]
  simp [nowhere]

theorem Linked.mem_dependents_withValue (linked : graph.Linked) {other dependent : κ} :
    dependent ∈ ((graph.withValue version key value).nodeAt other).dependents ↔
      dependent ≠ key ∧ dependent ∈ (graph.nodeAt other).dependents := by
  have before : (if other = key then (graph.nodeAt key).withValue version value
      else graph.nodeAt other).dependents = (graph.nodeAt other).dependents := by
    split
    · rename_i isKey
      rw [isKey]
      rfl
    · rfl
  rw [nodeAt_withValue, Node.mem_dependents_relinked, before]
  by_cases isKey : dependent = key
  · subst isKey
    rw [linked]
    by_cases needed : other ∈ (graph.nodeAt dependent).dependencies <;> simp [needed]
  · simp [isKey]

theorem Linked.withValue (linked : graph.Linked) : (graph.withValue version key value).Linked := by
  intro dependent dependency
  rw [linked.mem_dependents_withValue, linked, nodeAt_withValue]
  by_cases isKey : dependent = key
  · simp only [isKey, ne_eq, not_true_eq_false, false_and, if_true, false_iff]
    exact List.not_mem_nil
  · simp [isKey]

end WithValue

end Graph

namespace Evaluator

variable {κ ν φ : Type} [Key κ] {evaluator : Evaluator κ ν φ}

/-- No work is left from earlier rounds, and edges are kept at both ends. -/
structure Tidy (evaluator : Evaluator κ ν φ) : Prop where
  rested : ∀ key, (evaluator.graph.nodeAt key).work = none
  linked : evaluator.graph.Linked

theorem Tidy.empty (settings : Settings) : Tidy ({ settings } : Evaluator κ ν φ) where
  rested _ := rfl
  linked _ _ :=
    ⟨fun none => (List.not_mem_nil none).elim, fun none => (List.not_mem_nil none).elim⟩

section Invalidate

theorem invalidateFor_marked (reason : Reason) (keys : List κ) :
    Graph.Marked evaluator.graph (evaluator.invalidateFor reason keys).1.graph :=
  (Graph.invalidate_spec evaluator.graph keys reason).1

theorem Tidy.invalidateFor (tidy : Tidy evaluator) (reason : Reason) (keys : List κ) :
    Tidy (evaluator.invalidateFor reason keys).1 := by
  have marked := evaluator.invalidateFor_marked reason keys
  exact ⟨fun key => (marked.nodes key).work.symm.trans (tidy.rested key),
    marked.linked tidy.linked⟩

theorem retryTransient_kept (holds : Evaluator κ ν φ → Prop) (held : holds evaluator)
    (again : ∀ keys,
      holds ({ evaluator with retries := [] }.invalidateFor .transientRetry keys).1) :
    holds evaluator.retryTransient := by
  unfold retryTransient
  split
  · exact held
  · exact again _

theorem Tidy.retryTransient (tidy : Tidy evaluator) : Tidy evaluator.retryTransient := by
  have cleared : Tidy { evaluator with retries := [] } := ⟨tidy.rested, tidy.linked⟩
  exact retryTransient_kept Tidy tidy (cleared.invalidateFor .transientRetry)

end Invalidate

section Prune

/-- What pruning keeps. -/
def kept (evaluator : Evaluator κ ν φ) (keep : List κ) (key : κ) : Bool :=
  (evaluator.graph.reachable (keep ++ evaluator.graph.injectedKeys)).contains key

theorem nodeAt_prune (keep : List κ) (key : κ) :
    (evaluator.prune keep).1.graph.nodeAt key =
      if evaluator.kept keep key then
        (evaluator.graph.nodeAt key).filterDependents (evaluator.kept keep)
      else {} :=
  Graph.nodeAt_restrict ..

theorem kept_of_dependency (tidy : Tidy evaluator) {keep : List κ} {key dependency : κ}
    (isKept : evaluator.kept keep key = true)
    (needed : dependency ∈ (evaluator.graph.nodeAt key).dependencies) :
    evaluator.kept keep dependency = true :=
  Graph.contains_reachable_of_dependency tidy.linked isKept needed

theorem kept_of_injected (tidy : Tidy evaluator) (keep : List κ) {key : κ}
    (injected : (evaluator.graph.nodeAt key).injected = true) :
    evaluator.kept keep key = true := by
  have known : key ∈ evaluator.graph.keys := by
    by_contra unknown
    rw [Graph.nodeAt_of_not_mem unknown] at injected
    cases injected
  refine Graph.contains_reachable_of_mem tidy.linked (List.mem_append_right keep ?_)
  refine List.mem_filter.mpr ⟨known, ?_⟩
  rw [Graph.node?_of_mem known]
  exact injected

theorem Tidy.prune (tidy : Tidy evaluator) (keep : List κ) : Tidy (evaluator.prune keep).1 := by
  constructor
  case rested =>
    intro key
    rw [nodeAt_prune]
    split
    · exact tidy.rested key
    · rfl
  case linked =>
    exact tidy.linked.restrict fun key dependency isKept needed =>
      kept_of_dependency tidy isKept needed

end Prune

section Inject

variable [BEq ν] {key : κ} {value : ν}

/-- A value that equals the one the key has is only noted to come from outside. -/
theorem inject_of_equal (equal : (evaluator.graph.value? key).any (· == value) = true) :
    (evaluator.inject key value).1 = { evaluator with
      graph := (evaluator.graph.ensure key).update key fun node =>
        { node with injected := true } } := by
  have same : (evaluator.graph.ensure key).value? key = evaluator.graph.value? key := by
    unfold Graph.value?
    rw [Graph.result?_eq, Graph.result?_eq, Graph.nodeAt_ensure]
  unfold inject
  simp only [same, equal, if_true]

theorem nodeAt_inject_of_equal (equal : (evaluator.graph.value? key).any (· == value) = true)
    (other : κ) :
    (evaluator.inject key value).1.graph.nodeAt other =
      if other = key then { evaluator.graph.nodeAt key with injected := true }
      else evaluator.graph.nodeAt other := by
  rw [inject_of_equal equal]
  show ((evaluator.graph.ensure key).update key _).nodeAt other = _
  rw [Graph.nodeAt_update (Graph.mem_keys_ensure.mpr (.inl rfl)), Graph.nodeAt_ensure,
    Graph.nodeAt_ensure]

/-- What a new value makes of an evaluator: the key has it, rests on nothing,
and takes the results of its dependents. -/
structure Replaced (before : Evaluator κ ν φ) (key : κ) (value : ν)
    (after : Evaluator κ ν φ) : Prop where
  self : (after.graph.nodeAt key).Alike
    { memo := .valid (.ok value)
      lastChanged := before.version.next
      lastEvaluated := before.version.next
      injected := true }
  others : ∀ other, other ≠ key → (after.graph.nodeAt other).Alike (before.graph.nodeAt other) ∨
    ∃ result, (before.graph.nodeAt other).result? = some result ∧
      (after.graph.nodeAt other).Alike
        { before.graph.nodeAt other with memo := .dirty result }
  closed : ∀ other, other = key ∨ ((before.graph.nodeAt other).isSettled = true ∧
      (after.graph.nodeAt other).isSettled = false) →
    ∀ dependent, dependent ≠ key → dependent ∈ (before.graph.nodeAt other).dependents →
      (after.graph.nodeAt dependent).isSettled = false
  spared : ∀ other, other ≠ key → (∀ dependency, other ∉ (before.graph.nodeAt dependency).dependents) →
    (after.graph.nodeAt other).Alike (before.graph.nodeAt other)
  linked : after.graph.Linked
  keys : ∀ other, other ∈ after.graph.keys ↔ other = key ∨ other ∈ before.graph.keys
  version : after.version = before.version.next
  retries : after.retries = before.retries
  interrupted : after.interrupted = before.interrupted
  runs : after.runs = before.runs

/-- Another value is set, and then the dependents are told. -/
theorem inject_of_different (different : (evaluator.graph.value? key).any (· == value) = false) :
    ∃ marking, marking = Graph.markDependents key
        { graph := evaluator.graph.withValue evaluator.version.next key value
          records := #[.ofSource key .injected] } ∧
      (evaluator.inject key value).1 = { evaluator with
        graph := marking.graph
        version := evaluator.version.next }.tellInvalidated marking.records.toList := by
  have same : (evaluator.graph.ensure key).value? key = evaluator.graph.value? key := by
    unfold Graph.value?
    rw [Graph.result?_eq, Graph.result?_eq, Graph.nodeAt_ensure]
  have old : (evaluator.graph.ensure key).dependencies key =
      (evaluator.graph.nodeAt key).dependencies := by
    rw [Graph.dependencies_eq, Graph.nodeAt_ensure]
  refine ⟨_, rfl, ?_⟩
  unfold inject
  simp only [same, different, Bool.false_eq_true, if_false, old]
  rfl

theorem inject_replaced (tidy : Tidy evaluator)
    (different : (evaluator.graph.value? key).any (· == value) = false) :
    Replaced evaluator key value (evaluator.inject key value).1 := by
  have dependents : ∀ {other dependent},
      dependent ∈ ((evaluator.graph.withValue evaluator.version.next key value).nodeAt
        other).dependents ↔
          dependent ≠ key ∧ dependent ∈ (evaluator.graph.nodeAt other).dependents :=
    tidy.linked.mem_dependents_withValue
  have alike : ∀ other ≠ key,
      ((evaluator.graph.withValue evaluator.version.next key value).nodeAt other).Alike
        (evaluator.graph.nodeAt other) := Graph.alike_withValue
  obtain ⟨dirtied, closed⟩ := Graph.markDependents_spec key
    { graph := evaluator.graph.withValue evaluator.version.next key value
      records := #[.ofSource key .injected] }
  obtain ⟨marking, isMarking, injected⟩ := inject_of_different different
  rw [← isMarking] at dirtied closed
  rw [injected]
  constructor
  case self =>
    have untouched := dirtied.others key fun other listed => (dependents.mp listed).1 rfl
    show (marking.graph.nodeAt key).Alike _
    rw [untouched, Graph.nodeAt_withValue, if_pos rfl]
    rfl
  case others =>
    intro other isOther
    have alike := alike other isOther
    rcases dirtied.nodes other with unchanged | ⟨result, valid, lost⟩
    · exact .inl (unchanged ▸ alike)
    · refine .inr ⟨result, alike.result? ▸ valid, ?_⟩
      show (marking.graph.nodeAt other).Alike _
      rw [lost]
      exact .of_fields rfl alike.dependencies alike.lastChanged alike.lastEvaluated alike.injected
        alike.work
  case closed =>
    intro other lost dependent isOther listed
    refine closed other ?_ dependent (dependents.mpr ⟨isOther, listed⟩)
    rcases lost with isKey | ⟨settled, unsettled⟩
    · exact .inl isKey
    · by_cases isKey : other = key
      · exact .inl isKey
      · exact .inr ⟨(alike other isKey).isSettled.trans settled, unsettled⟩
  case spared =>
    intro other isOther nowhere
    have untouched := dirtied.others other fun dependency listed =>
      nowhere dependency (dependents.mp listed).2
    show (marking.graph.nodeAt other).Alike _
    rw [untouched]
    exact alike other isOther
  case linked => exact dirtied.linked tidy.linked.withValue
  case keys => exact fun other => (dirtied.keys other).trans Graph.mem_keys_withValue
  all_goals rfl

theorem Tidy.inject (tidy : Tidy evaluator) (key : κ) (value : ν) :
    Tidy (evaluator.inject key value).1 := by
  cases equal : (evaluator.graph.value? key).any (· == value) with
  | true =>
      constructor
      case rested =>
        intro other
        rw [nodeAt_inject_of_equal equal]
        split
        · exact tidy.rested key
        · exact tidy.rested other
      case linked =>
        intro dependent dependency
        have edges : ∀ other,
            ((evaluator.inject key value).1.graph.nodeAt other).dependencies =
              (evaluator.graph.nodeAt other).dependencies ∧
            ((evaluator.inject key value).1.graph.nodeAt other).dependents =
              (evaluator.graph.nodeAt other).dependents := by
          intro other
          rw [nodeAt_inject_of_equal equal]
          split
          · rename_i same
            rw [same]
            exact ⟨rfl, rfl⟩
          · exact ⟨rfl, rfl⟩
        rw [(edges dependent).1, (edges dependency).2]
        exact tidy.linked dependent dependency
  | false =>
      have replaced := inject_replaced tidy equal
      refine ⟨fun other => ?_, replaced.linked⟩
      by_cases same : other = key
      · subst same
        exact replaced.self.work_none.mpr rfl
      · rcases replaced.others other same with alike | ⟨_, _, alike⟩
        · exact alike.work_none.mpr (tidy.rested other)
        · exact alike.work_none.mpr (tidy.rested other)

end Inject

end Evaluator

end MemoGraph
