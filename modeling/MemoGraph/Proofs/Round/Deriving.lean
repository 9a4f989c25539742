import MemoGraph.Proofs.Computation.Lockstep
import MemoGraph.Proofs.Graph.Grounds
import MemoGraph.Proofs.Round.Outlooks

namespace MemoGraph

variable {κ ν φ : Type} [Key κ]

namespace Registry

variable {registry : Registry κ ν φ} {key : κ} {result : Result κ ν φ}
  {dependencies : Grouping κ} {results others : κ → Option (Result κ ν φ)}

/-- The function of the key has the result and asks for exactly the dependencies
when it is told the given results. -/
structure Derives (registry : Registry κ ν φ) (key : κ) (result : Result κ ν φ)
    (dependencies : Grouping κ) (results : κ → Option (Result κ ν φ)) : Prop where
  run : ∀ function, registry.function? key = some function →
    (Attempt.run results key (function 0) {}).1.missing = [] ∧
      (Attempt.run results key (function 0) {}).1.requested = dependencies
  unregistered : registry.function? key = none → dependencies = .empty
  computing : ∀ graph : Graph κ ν φ,
    (∀ dependency ∈ dependencies, graph.result? dependency = results dependency) →
      graph.computing registry key = .settles (result, dependencies)

theorem Derives.congr
    (same : ∀ dependency ∈ dependencies, results dependency = others dependency)
    (derives : registry.Derives key result dependencies results) :
    registry.Derives key result dependencies others := by
  refine ⟨fun function registered => ?_, derives.unregistered, fun graph agree => ?_⟩
  · obtain ⟨missing, requested⟩ := derives.run function registered
    have equal : Attempt.run results key (function 0) {} = Attempt.run others key (function 0) {} :=
      Attempt.run_eq_of_agree fun dependency asked _ => same dependency (requested ▸ asked)
    rw [← equal]
    exact ⟨missing, requested⟩
  · exact derives.computing graph fun dependency needed =>
      (agree dependency needed).trans (same dependency needed).symm

theorem Derives.present (derives : registry.Derives key result dependencies results)
    {dependency : κ} (needed : dependency ∈ dependencies) : (results dependency).isSome = true := by
  cases registered : registry.function? key with
  | none =>
      rw [derives.unregistered registered] at needed
      exact absurd needed (Grouping.not_mem_empty dependency)
  | some function =>
      obtain ⟨missing, requested⟩ := derives.run function registered
      cases found : results dependency with
      | some result => rfl
      | none =>
          have listed := ((Attempt.faithful_run results key (function 0)).mem_missing
            dependency).mpr ⟨requested ▸ needed, found⟩
          rw [missing] at listed
          cases listed

theorem Derives.change {later : Registry κ ν φ}
    (derives : registry.Derives key result dependencies results)
    (function : later.function? key = registry.function? key)
    (kind : later.kindName key = registry.kindName key) :
    later.Derives key result dependencies results := by
  refine ⟨fun other registered => derives.run other (function ▸ registered),
    fun absent => derives.unregistered (function ▸ absent), fun graph agree => ?_⟩
  have computing := derives.computing graph agree
  unfold Graph.computing Round.unregistered at computing ⊢
  rw [function, kind]
  exact computing

/-- What a result is derived from stays as it is when further keys get results. -/
theorem Derives.extend {before after : Graph κ ν φ}
    (derives : registry.Derives key result dependencies before.result?)
    (extended : before.Extends after) :
    registry.Derives key result dependencies after.result? := by
  refine derives.congr fun dependency needed => ?_
  obtain ⟨other, found⟩ := Option.isSome_iff_exists.mp (derives.present needed)
  rw [found, extended.grows dependency other found]

/-- A result that a graph has in prospect is derived from its results. -/
theorem Strict.derives (strict : registry.Strict) {graph : Graph κ ν φ}
    (computing : graph.computing registry key = .settles (result, dependencies)) :
    registry.Derives key result dependencies graph.result? := by
  cases registered : registry.function? key with
  | none =>
      have always : ∀ other : Graph κ ν φ, other.computing registry key =
          .settles (.error (Round.unregistered registry key), .empty) := by
        intro other
        unfold Graph.computing
        rw [registered]
      rw [always] at computing
      cases computing
      refine ⟨fun function found => ?_, fun _ => rfl, fun other _ => always other⟩
      rw [registered] at found
      cases found
  | some function =>
      have isRun := computing
      rw [Graph.computing_of_run registered] at isRun
      have missing : (Attempt.run graph.result? key (function 0) {}).1.missing = [] := by
        by_contra short
        rw [Graph.restart_of_missing graph strict registered short] at isRun
        cases isRun
      have requested : (Attempt.run graph.result? key (function 0) {}).1.requested =
          dependencies := by
        split at isRun
        · rename_i verdict
          cases isRun
          exact (verdict_commit verdict).1.symm
        · cases isRun
      refine ⟨fun other found => ?_, fun absent => ?_, fun other agree => ?_⟩
      · rw [registered] at found
        cases found
        exact ⟨missing, requested⟩
      · rw [registered] at absent
        cases absent
      · have equal : Attempt.run graph.result? key (function 0) {} =
            Attempt.run other.result? key (function 0) {} :=
          Attempt.run_eq_of_agree fun dependency asked _ =>
            (agree dependency (requested ▸ asked)).symm
        rw [Graph.computing_of_run registered, ← equal, ← Graph.verdict_congr _
          fun dependency asked => (agree dependency (requested ▸ asked)).symm]
        exact isRun

/-- Lasting results are derived from what they rest on, inputs apart. -/
def backing (registry : Registry κ ν φ) (inputs : κ → Prop) : Backing κ ν φ where
  holds key result dependencies results :=
    inputs key ∨ registry.Derives key result dependencies results
  fleeting := False
  congr same := .imp_right (Derives.congr same)

end Registry

namespace Graph

variable {registry : Registry κ ν φ} {graph : Graph κ ν φ} {key : κ} {recorded : Grouping κ}
  {keys : List κ}

theorem missing_of_computing (waits : graph.computing registry key = .waits recorded keys) :
    ∃ function, registry.function? key = some function ∧
      (Attempt.run graph.result? key (function 0) {}).1.missing = keys := by
  cases registered : registry.function? key with
  | none =>
      unfold computing at waits
      rw [registered] at waits
      cases waits
  | some function =>
      rw [computing_of_run registered] at waits
      split at waits
      · cases waits
      · cases waits
        exact ⟨function, rfl, rfl⟩

/-- A key of which groups are checked waits for what its function would miss. -/
theorem missing_of_checking [BEq ν] (strict : registry.Strict) {version : Version}
    {node : Node κ ν φ} {result : Result κ ν φ} {results : κ → Option (Result κ ν φ)}
    (derives : registry.Derives key result node.dependencies results)
    (remembered : ∀ dependency ∈ node.dependencies,
      (graph.nodeAt dependency).lastChanged ≤ node.lastEvaluated →
        (graph.nodeAt dependency).memo.result? = results dependency)
    {index : Nat} {rest : List (List κ)} (suffix : node.dependencies.groups.drop index = rest)
    (upheld : ∀ earlier < index, ∀ group, node.dependencies.groups[earlier]? = some group →
      ∀ dependency ∈ group, results dependency = graph.result? dependency ∧
        (graph.result? dependency).isNone = false)
    (waits : graph.checking registry version key node rest = .waits recorded keys) :
    ∃ function, registry.function? key = some function ∧
      (Attempt.run graph.result? key (function 0) {}).1.missing = keys := by
  induction rest generalizing index with
  | nil => cases waits
  | cons group rest ih =>
      have isGroup : node.dependencies.groups[index]? = some group := by
        rw [← Nat.add_zero index, ← List.getElem?_drop, suffix]
        rfl
      have needed : ∀ dependency ∈ group, dependency ∈ node.dependencies := by
        intro dependency member
        rw [Grouping.getElem?_groups] at isGroup
        exact Grouping.mem_of_group? isGroup member
      unfold checking at waits
      cases lacking : group.filter graph.lacks with
      | cons first others =>
          rw [lacking] at waits
          cases waits
          cases registered : registry.function? key with
          | none =>
              rw [derives.unregistered registered] at isGroup
              cases isGroup
          | some function =>
              refine ⟨function, rfl, ?_⟩
              obtain ⟨_, requested⟩ := derives.run function registered
              rw [← lacking]
              refine Attempt.missing_run_of_group (strict.computation registered) rfl
                (Nat.zero_le index) (requested ▸ isGroup) (requested ▸ upheld) ⟨first, ?_⟩
              have listed : first ∈ group.filter graph.lacks := by
                rw [lacking]
                exact List.mem_cons_self
              exact List.mem_filter.mp listed
      | nil =>
          rw [lacking] at waits
          simp only at waits
          split at waits
          · exact missing_of_computing (Outlook.waits_of_map waits)
          · rename_i unchanged
            refine @ih (index + 1) ?_ (fun earlier isEarlier => ?_) waits
            · rw [← List.drop_drop, suffix]
              rfl
            · rcases Nat.lt_succ_iff_lt_or_eq.mp isEarlier with before | rfl
              · exact upheld earlier before
              · intro other isOther dependency member
                rw [isGroup, Option.some.injEq] at isOther
                subst isOther
                have present : graph.lacks dependency = false :=
                  eq_false_of_ne_true (List.filter_eq_nil_iff.mp lacking dependency member)
                refine ⟨?_, present⟩
                have older : (graph.nodeAt dependency).lastChanged ≤ node.lastEvaluated := by
                  refine Nat.le_of_not_lt fun newer => unchanged ?_
                  exact List.any_eq_true.mpr ⟨dependency, member, decide_eq_true newer⟩
                rw [lacks_eq, Bool.not_eq_false'] at present
                obtain ⟨other, found⟩ := Node.exists_result? present
                rw [← remembered dependency (needed dependency member) older, result?_eq, found]
                exact Node.memo_result?_of_result? found

end Graph

end MemoGraph
