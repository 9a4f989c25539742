import MemoGraph.Graph.Consistency
import MemoGraph.Proofs.Evaluator.Grounds
import MemoGraph.Proofs.Evaluator.Histories
import MemoGraph.Proofs.Round.Foundations

namespace MemoGraph

variable {κ ν φ : Type} [Key κ]

omit [Key κ] in
theorem Node.isSettled_state (node : Node κ ν φ) : node.state.isSettled = node.isSettled := by
  obtain ⟨memo, _, _, _, _, _, work⟩ := node
  cases work with
  | some work => rfl
  | none =>
      cases memo with
      | valid result => cases result <;> rfl
      | _ => rfl

namespace Graph

variable {graph : Graph κ ν φ} {key dependency : κ}

theorem edgeDiscrepancies_eq_nil_iff (known : key ∈ graph.keys) :
    graph.edgeDiscrepancies key (graph.nodeAt key) dependency = [] ↔
      dependency ∈ graph.keys ∧ key ∈ (graph.nodeAt dependency).dependents ∧
        (graph.state? key = some .done →
          graph.state? dependency = some .done ∨ graph.state? dependency = some .error) := by
  have state : graph.state? key = some .done ↔ (graph.nodeAt key).state = .done := by
    simp [state?, node?_of_mem known]
  rw [state, ← isSettled_iff]
  by_cases there : dependency ∈ graph.keys
  · simp [edgeDiscrepancies, node?_of_mem there, there, Node.isSettled_state]
  · simp [edgeDiscrepancies, node?_of_not_mem there, there]

/-- The check passes exactly if every dependency has a node, edges are kept at
both ends, and a key that is done depends on keys that are done or failed. -/
theorem discrepancies_eq_nil_iff : graph.discrepancies = [] ↔
    (∀ key, ∀ dependency ∈ (graph.nodeAt key).dependencies, dependency ∈ graph.keys) ∧
      graph.Linked ∧
      ∀ key, graph.state? key = some .done → ∀ dependency ∈ (graph.nodeAt key).dependencies,
        graph.state? dependency = some .done ∨ graph.state? dependency = some .error := by
  have passes : graph.discrepancies = [] ↔ ∀ key ∈ graph.keys,
      (∀ dependency ∈ (graph.nodeAt key).dependencies,
        graph.edgeDiscrepancies key (graph.nodeAt key) dependency = []) ∧
      ∀ dependent ∈ (graph.nodeAt key).dependents,
        key ∈ (graph.nodeAt dependent).dependencies := by
    rw [discrepancies, List.flatMap_eq_nil_iff]
    refine forall₂_congr fun key known => ?_
    simp only [node?_of_mem known, nodeDiscrepancies, List.append_eq_nil_iff,
      List.flatMap_eq_nil_iff, List.map_eq_nil_iff, List.filter_eq_nil_iff, dependencies_eq,
      decide_eq_true_eq, not_not]
    rfl
  rw [passes]
  constructor
  · intro sound
    have edges : ∀ key, ∀ dependency ∈ (graph.nodeAt key).dependencies,
        dependency ∈ graph.keys ∧ key ∈ (graph.nodeAt dependency).dependents ∧
          (graph.state? key = some .done →
            graph.state? dependency = some .done ∨ graph.state? dependency = some .error) := by
      intro key dependency needed
      have known : key ∈ graph.keys := by
        by_contra unknown
        rw [nodeAt_of_not_mem unknown] at needed
        cases needed
      exact (edgeDiscrepancies_eq_nil_iff known).mp ((sound key known).1 dependency needed)
    refine ⟨fun key dependency needed => (edges key dependency needed).1, fun dependent dependency =>
      ⟨fun listed => ?_, fun needed => (edges dependent dependency needed).2.1⟩,
      fun key done dependency needed => (edges key dependency needed).2.2 done⟩
    have known : dependency ∈ graph.keys := by
      by_contra unknown
      rw [nodeAt_of_not_mem unknown] at listed
      cases listed
    exact (sound dependency known).2 dependent listed
  · rintro ⟨known, linked, done⟩ key isKey
    refine ⟨fun dependency needed => ?_, fun dependent listed => (linked dependent key).mp listed⟩
    rw [edgeDiscrepancies_eq_nil_iff isKey]
    exact ⟨known key dependency needed, (linked key dependency).mpr needed,
      fun isDone => done key isDone dependency needed⟩

end Graph

namespace Evaluator

variable {evaluator after : Evaluator κ ν φ}

abbrev Firm (evaluator : Evaluator κ ν φ) : Prop := evaluator.graph.Firm evaluator.version

theorem Firm.rests (firm : evaluator.Firm) : Grounded .plain evaluator := firm.grounded

theorem Firm.empty (settings : Settings) : Firm ({ settings } : Evaluator κ ν φ) :=
  ⟨.empty .plain, ⟨fun key => ⟨key, fun _ ⟨_, found, _⟩ => by cases found⟩⟩⟩

theorem Firm.invalidateFor (firm : evaluator.Firm) (tidy : Tidy evaluator) (reason : Reason)
    (keys : List κ) : (evaluator.invalidateFor reason keys).1.Firm := by
  refine ⟨firm.rests.invalidateFor tidy reason keys,
    Subrelation.wf (fun {dependency key} supports => ?_) firm.founded⟩
  have earlier := Nat.lt_succ_of_le (firm.grounded.evaluated_le key)
  exact supports.of_fades
    (.of_marked ((evaluator.invalidateFor_marked reason keys).nodes key) earlier)

theorem Firm.retryTransient (firm : evaluator.Firm) (tidy : Tidy evaluator) :
    evaluator.retryTransient.Firm := by
  have cleared : Firm { evaluator with retries := [] } := firm
  exact retryTransient_kept Firm firm
    (cleared.invalidateFor ⟨tidy.rested, tidy.linked⟩ .transientRetry)

theorem Firm.prune (firm : evaluator.Firm) (tidy : Tidy evaluator) (keep : List κ) :
    (evaluator.prune keep).1.Firm := by
  refine ⟨firm.rests.prune tidy keep, Subrelation.wf (fun {dependency key} supports => ?_)
    firm.founded⟩
  obtain ⟨result, found, lasting, needed⟩ := supports
  rw [nodeAt_prune] at found needed
  split at found
  · rename_i isKept
    rw [if_pos isKept] at needed
    exact ⟨result, found, lasting, needed⟩
  · cases found

variable [BEq ν]

theorem Firm.inject (firm : evaluator.Firm) (tidy : Tidy evaluator) (key : κ) (value : ν) :
    (evaluator.inject key value).1.Firm := by
  cases equal : (evaluator.graph.value? key).any (· == value) with
  | true =>
      exact ⟨firm.rests.inject_of_equal equal, Subrelation.wf
        (fun supports => supports.of_fades (fades_inject_of_equal equal _)) firm.founded⟩
  | false =>
      have replaced := inject_replaced tidy equal
      refine ⟨firm.rests.inject_of_different tidy equal fun _ => trivial,
        Subrelation.wf (fun {dependency other} supports => ?_) firm.founded⟩
      by_cases same : other = key
      · subst same
        obtain ⟨_, _, _, needed⟩ := supports
        rw [replaced.self.dependencies] at needed
        exact absurd needed (Grouping.not_mem_empty dependency)
      · exact supports.of_fades (replaced.fades firm.grounded.evaluated_le same)

theorem Firm.evaluates {registry : Registry κ ν φ} {roots : List κ}
    {answer : Except Stop (Results κ ν φ)} (firm : evaluator.Firm) (tidy : Tidy evaluator)
    (evaluates : Evaluates registry evaluator roots after answer) : after.Firm := by
  obtain ⟨ends⟩ := evaluates
  have unique := nodup_distinct roots
  have rested := tidy.rested_opening roots
  have opened : (evaluator.opening roots).Firm := firm.retryTransient tidy
  have firm := ends.firm unique rested opened
  unfold Round.Firm at firm
  rw [ends.version unique rested] at firm
  exact firm

theorem Firm.turn (firm : evaluator.Firm) (tidy : Tidy evaluator) (turn : Turn evaluator after) :
    after.Firm := by
  cases turn with
  | inject key value => exact firm.inject tidy key value
  | invalidate keys => exact firm.invalidateFor tidy .manual keys
  | prune keep => exact firm.prune tidy keep
  | interrupt => exact firm
  | evaluate registry evaluates => exact firm.evaluates tidy evaluates

theorem Reachable.firm (reachable : Reachable evaluator) : evaluator.Firm :=
  reachable.invariant .empty fun earlier turn firm => firm.turn earlier.tidy turn

/-- After any history the check finds nothing wrong: every dependency has a
node, edges are kept at both ends, and whatever a key that is done depends on
is done or failed. Whatever the graph, the check finds nothing wrong exactly if
this is so. -/
theorem stays_consistent (reachable : Reachable evaluator) :
    evaluator.graph.discrepancies = [] ∧
      (∀ key, ∀ dependency ∈ (evaluator.graph.nodeAt key).dependencies,
        dependency ∈ evaluator.graph.keys) ∧
      (∀ dependent dependency, dependent ∈ (evaluator.graph.nodeAt dependency).dependents ↔
        dependency ∈ (evaluator.graph.nodeAt dependent).dependencies) ∧
      (∀ key, evaluator.graph.state? key = some .done →
        ∀ dependency ∈ (evaluator.graph.nodeAt key).dependencies,
          evaluator.graph.state? dependency = some .done ∨
            evaluator.graph.state? dependency = some .error) ∧
      ∀ graph : Graph κ ν φ, graph.discrepancies = [] ↔
        (∀ key, ∀ dependency ∈ (graph.nodeAt key).dependencies, dependency ∈ graph.keys) ∧
        (∀ dependent dependency, dependent ∈ (graph.nodeAt dependency).dependents ↔
          dependency ∈ (graph.nodeAt dependent).dependencies) ∧
        ∀ key, graph.state? key = some .done → ∀ dependency ∈ (graph.nodeAt key).dependencies,
          graph.state? dependency = some .done ∨ graph.state? dependency = some .error := by
  have linked := reachable.tidy.linked
  have known : ∀ key, ∀ dependency ∈ (evaluator.graph.nodeAt key).dependencies,
      dependency ∈ evaluator.graph.keys := fun key dependency needed => linked.mem_keys needed
  have settled : ∀ key, evaluator.graph.state? key = some .done →
      ∀ dependency ∈ (evaluator.graph.nodeAt key).dependencies,
        evaluator.graph.state? dependency = some .done ∨
          evaluator.graph.state? dependency = some .error := by
    intro key done dependency needed
    obtain ⟨value, found⟩ := Graph.result?_of_done done
    rw [Graph.result?_eq] at found
    exact Graph.isSettled_iff.mp (reachable.firm.settled ⟨_, found, rfl, needed⟩)
  exact ⟨Graph.discrepancies_eq_nil_iff.mpr ⟨known, linked, settled⟩, known, linked, settled,
    fun _ => Graph.discrepancies_eq_nil_iff⟩

/-- The second key rests on the first, which is set from outside; the third and
the fourth ask for each other, and the fifth breaks off while it waits for the
second and for a sixth. -/
def tangle : Registry Nat Nat Empty where
  kindName _ := "tangle"
  function? key := some fun _ =>
    match key with
    | 1 => .request [0] none fun answers => .check <|
        match answers with
        | [.value value] => .finish (.value (value + 1))
        | _ => .finish (.refused .incomplete)
    | 2 => .request [3, 1] none fun _ => .check (.finish (.value 0))
    | 3 => .request [2] none fun _ => .check (.finish (.value 0))
    | 4 => .request [1, 5] none fun _ => .finish (.crashed none)
    | _ => .finish (.value 9)

/-- A key is done, two have failed on a cycle and one has crashed. -/
theorem stays_consistent_tangle : ∃ evaluator : Evaluator Nat Nat Empty, Reachable evaluator ∧
    [1, 2, 3, 4, 5].map evaluator.graph.state? =
      [some .done, some .error, some .error, some .error, some .new] ∧
    evaluator.graph.discrepancies = [] := by
  have built : Reachable (build {} [(0, 7)] : Evaluator Nat Nat Empty) := .build ..
  have reachable := built.turn (.evaluate tangle (evaluate_evaluates tangle 50 _ [1, 2, 4]))
  exact ⟨_, reachable, by decide +kernel, (stays_consistent reachable).1⟩

end Evaluator

end MemoGraph
