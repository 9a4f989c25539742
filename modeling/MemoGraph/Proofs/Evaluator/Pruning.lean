import MemoGraph.Proofs.Evaluator.Incremental

namespace MemoGraph.Evaluator

variable {κ ν φ : Type} [Key κ] {evaluator after other pruned full : Evaluator κ ν φ}
  {registry : Registry κ ν φ} {invalidated keep roots : List κ} {key : κ}

/-- One of the given keys or of those whose values were set from outside is the
key or depends on it, directly or not. -/
def Needed (evaluator : Evaluator κ ν φ) (keep : List κ) (key : κ) : Prop :=
  ∃ start, (start ∈ keep ∨ evaluator.Injected start) ∧
    Relation.ReflTransGen
      (fun user dependency => dependency ∈ (evaluator.graph.nodeAt user).dependencies) start key

/-- What is left of an evaluator once the nodes that are not needed are dropped.
Edges from nodes that are left lead to nodes that are left, in both directions. -/
structure Pruned (before : Evaluator κ ν φ) (keep : List κ) (after : Evaluator κ ν φ)
    (dropped : Nat) : Prop where
  keys : ∀ key, key ∈ after.graph.keys ↔ key ∈ before.graph.keys ∧ before.Needed keep key
  counted : dropped = (before.graph.keys.filter (· ∉ after.graph.keys)).length
  size : after.graph.size + dropped = before.graph.size
  nodes : ∀ key ∈ after.graph.keys, after.graph.nodeAt key =
    (before.graph.nodeAt key).filterDependents (· ∈ after.graph.keys)
  dependencies : ∀ key, ∀ dependency ∈ (after.graph.nodeAt key).dependencies,
    dependency ∈ after.graph.keys
  dependents : ∀ key, ∀ dependent ∈ (after.graph.nodeAt key).dependents,
    dependent ∈ after.graph.keys
  retries : ∃ needed : κ → Bool, (∀ key, needed key = true ↔ before.Needed keep key) ∧
    after.retries = before.retries.filter needed
  rest : after = { before with graph := after.graph, retries := after.retries }

section Exact

theorem injected_of_mem_injectedKeys :
    key ∈ evaluator.graph.injectedKeys ↔ evaluator.Injected key := by
  unfold Graph.injectedKeys Injected
  rw [List.mem_filter]
  by_cases known : key ∈ evaluator.graph.keys
  · simp [known, Graph.node?_of_mem known]
  · simp [known, Graph.nodeAt_of_not_mem known]

theorem kept_iff (tidy : Tidy evaluator) : evaluator.kept keep key = true ↔
    evaluator.Needed keep key := by
  unfold kept Needed
  rw [Graph.contains_reachable_iff tidy.linked]
  simp only [List.mem_append, injected_of_mem_injectedKeys, Walk.Reaches, Graph.dependencies_eq]
  rfl

theorem mem_keys_prune : key ∈ (evaluator.prune keep).1.graph.keys ↔
    key ∈ evaluator.graph.keys ∧ evaluator.kept keep key = true := by
  rw [and_comm]
  exact Graph.mem_keys_restrict

theorem Tidy.pruned_prune (tidy : Tidy evaluator) (keep : List κ) :
    Pruned evaluator keep (evaluator.prune keep).1 (evaluator.prune keep).2 := by
  have tidyAfter := tidy.prune keep
  have listed : ∀ key dependent, dependent ∈ (evaluator.graph.nodeAt key).dependents →
      (evaluator.kept keep dependent = true ↔
        dependent ∈ (evaluator.prune keep).1.graph.keys) := by
    intro key dependent isDependent
    have needs := (tidy.linked dependent key).mp isDependent
    have known : dependent ∈ evaluator.graph.keys := by
      by_contra unknown
      rw [Graph.nodeAt_of_not_mem unknown] at needs
      cases needs
    rw [mem_keys_prune, and_iff_right known]
  constructor
  case keys =>
    intro key
    rw [mem_keys_prune, kept_iff tidy]
  case counted =>
    show (evaluator.graph.keys.filter fun key => !evaluator.kept keep key).length = _
    congr 1
    refine List.filter_congr fun key known => ?_
    rw [Bool.eq_iff_iff, decide_eq_true_iff, mem_keys_prune]
    simp [known]
  case size => exact Graph.size_restrict _
  case nodes =>
    intro key known
    rw [nodeAt_prune, if_pos (mem_keys_prune.mp known).2]
    unfold Node.filterDependents
    congr 1
    refine List.filter_congr fun dependent isDependent => ?_
    rw [Bool.eq_iff_iff, decide_eq_true_iff]
    exact listed key dependent isDependent
  case dependencies => exact fun key dependency needed => tidyAfter.linked.mem_keys needed
  case dependents =>
    intro key dependent isDependent
    by_contra unknown
    have needs := (tidyAfter.linked dependent key).mp isDependent
    rw [Graph.nodeAt_of_not_mem unknown] at needs
    cases needs
  case retries => exact ⟨evaluator.kept keep, fun key => kept_iff tidy, rfl⟩
  case rest => rfl

end Exact

section Inputs

theorem Pins.input? {value : ν} (pins : evaluator.Pins key value) :
    evaluator.input? key = some value := by
  unfold Evaluator.input? Graph.value?
  rw [if_pos pins.injected, Graph.result?_eq, pins.holds]

theorem input?_of_not_injected (own : ¬ evaluator.Injected key) : evaluator.input? key = none :=
  if_neg own

/-- Where values from outside stay pinned and no others come, the inputs stay. -/
theorem Trusted.input?_eq (trusted : Trusted registry evaluator)
    (injected : after.Injected key ↔ evaluator.Injected key)
    (stays : ∀ value, evaluator.Pins key value → after.Pins key value) :
    after.input? key = evaluator.input? key := by
  by_cases isInjected : evaluator.Injected key
  · obtain ⟨value, pins⟩ := trusted.pins isInjected
    rw [pins.input?, (stays value pins).input?]
  · rw [input?_of_not_injected isInjected, input?_of_not_injected (injected.not.mpr isInjected)]

theorem Trusted.input?_invalidate (trusted : Trusted registry evaluator) (keys : List κ) (key : κ) :
    (evaluator.invalidate keys).1.input? key = evaluator.input? key :=
  trusted.input?_eq (iff_of_eq (congrFun (injected_invalidateFor .manual keys) key))
    fun _ pins => pins.invalidateFor trusted.tidy .manual keys

theorem Trusted.input?_prune (trusted : Trusted registry evaluator) (keep : List κ) (key : κ) :
    (evaluator.prune keep).1.input? key = evaluator.input? key :=
  trusted.input?_eq (iff_of_eq (congrFun (injected_prune trusted.tidy keep) key))
    fun _ pins => pins.prune trusted.tidy keep

variable [BEq ν]

theorem Trusted.input?_evaluates {answer : Except Stop (Results κ ν φ)}
    (trusted : Trusted registry evaluator)
    (evaluates : Evaluates registry evaluator roots after answer) (key : κ) :
    after.input? key = evaluator.input? key :=
  trusted.input?_eq (iff_of_eq (congrFun (injected_evaluates trusted.tidy evaluates) key))
    fun _ pins => pins.elsewhere trusted.tidy (.evaluate registry evaluates)

theorem Trusted.input?_inject [LawfulBEq ν] (trusted : Trusted registry evaluator) {given : κ}
    {value : ν} (fresh : evaluator.Injected given ∨
      (evaluator.graph.value? given).any (· == value) = false) (key : κ) :
    (evaluator.inject given value).1.input? key =
      if key = given then some value else evaluator.input? key := by
  by_cases same : key = given
  · subst same
    rw [if_pos rfl]
    have free : (evaluator.graph.value? key).any (· == value) = true →
        (evaluator.graph.nodeAt key).dependencies = .empty := fun equal =>
      (trusted.rootless key (fresh.resolve_right (by simp [equal]))).1
    obtain ⟨held, equal, pins⟩ := pins_inject trusted.tidy free
    rw [pins.input?, equal.elim id eq_of_beq]
  · rw [if_neg same]
    refine trusted.input?_eq ?_ fun _ pins => pins.inject trusted.tidy (Ne.symm same) value
    rw [injected_inject trusted.tidy, or_iff_left same]

end Inputs

variable [BEq ν]

/-- What becomes of an informed evaluator and of its pruned copy when from then
on the same happens to both. The two may step their keys in different orders, and
an evaluation of one may be cut short where that of the other is not. -/
inductive Paired (evaluator : Evaluator κ ν φ) (keep : List κ) :
    Registry κ ν φ → List κ → Evaluator κ ν φ → Evaluator κ ν φ → Prop
  | prune {registry : Registry κ ν φ} {invalidated : List κ}
      (informed : Informed registry invalidated evaluator) :
      Paired evaluator keep registry invalidated evaluator (evaluator.prune keep).1
  | inject {registry : Registry κ ν φ} {invalidated : List κ} {full pruned : Evaluator κ ν φ}
      (paired : Paired evaluator keep registry invalidated full pruned) (key : κ) (value : ν)
      (fresh : full.Injected key ∨ (full.graph.value? key).any (· == value) = false)
      (freshPruned : pruned.Injected key ∨
        (pruned.graph.value? key).any (· == value) = false) :
      Paired evaluator keep registry invalidated (full.inject key value).1
        (pruned.inject key value).1
  | invalidate {registry : Registry κ ν φ} {invalidated : List κ} {full pruned : Evaluator κ ν φ}
      (paired : Paired evaluator keep registry invalidated full pruned) (keys : List κ) :
      Paired evaluator keep registry (keys ++ invalidated) (full.invalidate keys).1
        (pruned.invalidate keys).1
  | change {registry later : Registry κ ν φ} {invalidated : List κ} {full pruned : Evaluator κ ν φ}
      (paired : Paired evaluator keep registry invalidated full pruned) (strict : later.Strict)
      (same : registry.SameBut later invalidated) :
      Paired evaluator keep later invalidated full pruned
  | pruneAgain {registry : Registry κ ν φ} {invalidated : List κ} {full pruned : Evaluator κ ν φ}
      (paired : Paired evaluator keep registry invalidated full pruned) (others : List κ) :
      Paired evaluator keep registry invalidated (full.prune others).1 (pruned.prune others).1
  | interrupt {registry : Registry κ ν φ} {invalidated : List κ} {full pruned : Evaluator κ ν φ}
      (paired : Paired evaluator keep registry invalidated full pruned) :
      Paired evaluator keep registry invalidated full.interrupt pruned.interrupt
  | evaluate {registry : Registry κ ν φ} {invalidated roots : List κ}
      {full pruned fullAfter prunedAfter : Evaluator κ ν φ}
      {answer answerPruned : Except Stop (Results κ ν φ)}
      (paired : Paired evaluator keep registry invalidated full pruned)
      (evaluates : Evaluates registry full roots fullAfter answer)
      (evaluatesPruned : Evaluates registry pruned roots prunedAfter answerPruned) :
      Paired evaluator keep registry [] fullAfter prunedAfter

theorem Paired.informed (paired : Paired evaluator keep registry invalidated full pruned) :
    Informed registry invalidated full ∧ Informed registry invalidated pruned := by
  induction paired with
  | prune informed => exact ⟨informed, informed.prune keep⟩
  | inject paired key value fresh freshPruned ih =>
      exact ⟨ih.1.inject key value fresh, ih.2.inject key value freshPruned⟩
  | invalidate paired keys ih => exact ⟨ih.1.invalidate keys, ih.2.invalidate keys⟩
  | change paired strict same ih => exact ⟨ih.1.change strict same, ih.2.change strict same⟩
  | pruneAgain paired others ih => exact ⟨ih.1.prune others, ih.2.prune others⟩
  | interrupt paired ih => exact ⟨ih.1.interrupt, ih.2.interrupt⟩
  | evaluate paired evaluates evaluatesPruned ih =>
      exact ⟨ih.1.evaluate evaluates, ih.2.evaluate evaluatesPruned⟩

variable [LawfulBEq ν]

theorem Paired.input?_eq (paired : Paired evaluator keep registry invalidated full pruned)
    (key : κ) : full.input? key = pruned.input? key := by
  induction paired with
  | prune informed => exact (informed.trusted.2.1.input?_prune keep key).symm
  | inject paired given value fresh freshPruned ih =>
      have trusted := paired.informed.1.trusted.2.1
      have trustedPruned := paired.informed.2.trusted.2.1
      rw [trusted.input?_inject fresh, trustedPruned.input?_inject freshPruned, ih]
  | invalidate paired keys ih =>
      have trusted := paired.informed.1.trusted.2.1
      have trustedPruned := paired.informed.2.trusted.2.1
      rw [trusted.input?_invalidate, trustedPruned.input?_invalidate, ih]
  | change paired strict same ih => exact ih
  | pruneAgain paired others ih =>
      have trusted := paired.informed.1.trusted.2.1
      have trustedPruned := paired.informed.2.trusted.2.1
      rw [trusted.input?_prune, trustedPruned.input?_prune, ih]
  | interrupt paired ih => exact ih
  | evaluate paired evaluates evaluatesPruned ih =>
      have trusted := paired.informed.1.trusted.2.1
      have trustedPruned := paired.informed.2.trusted.2.1
      rw [trusted.input?_evaluates evaluates, trustedPruned.input?_evaluates evaluatesPruned, ih]

/-- Informed evaluators with the same values from outside give the same results.
The other does give them, unless its functions cancel the round. -/
theorem Informed.same_answers {invalidatedOther : List κ} {results : Results κ ν φ}
    (informed : Informed registry invalidated evaluator)
    (informedOther : Informed registry invalidatedOther other)
    (same : ∀ key, evaluator.input? key = other.input? key)
    (evaluates : Evaluates registry evaluator roots after (.ok results)) :
    (∀ afterOther others,
      Evaluates registry other roots afterOther (.ok others) → others = results) ∧
    (registry.Patient → other.interrupted = false →
      ∃ bound, (other.evaluate registry bound roots).2 = .ok results) := by
  obtain ⟨strict, trusted, noted, _⟩ := informed.trusted
  obtain ⟨_, trustedOther, notedOther, _⟩ := informedOther.trusted
  exact trusted.same_answers strict noted trustedOther notedOther same evaluates

/-- After any history, pruning leaves exactly the nodes that one of the given keys
or a value from outside needs, as they were but for the dependents that are
dropped. If the functions are strict and the evaluator was told of all that
happened outside, then whatever happens later, every evaluation gives the same
results as it would without the pruning. -/
theorem pruning_is_invisible (reachable : Reachable evaluator) (keep : List κ) :
    Pruned evaluator keep (evaluator.prune keep).1 (evaluator.prune keep).2 ∧
    ∀ registry invalidated full pruned,
      Paired evaluator keep registry invalidated full pruned → ∀ roots,
        (∀ after results, Evaluates registry full roots after (.ok results) →
          (∀ afterOther others,
            Evaluates registry pruned roots afterOther (.ok others) → others = results) ∧
          (registry.Patient → pruned.interrupted = false →
            ∃ bound, (pruned.evaluate registry bound roots).2 = .ok results)) ∧
        (∀ after results, Evaluates registry pruned roots after (.ok results) →
          registry.Patient → full.interrupted = false →
            ∃ bound, (full.evaluate registry bound roots).2 = .ok results) := by
  refine ⟨reachable.tidy.pruned_prune keep, fun registry invalidated full pruned paired roots => ?_⟩
  obtain ⟨informed, informedPruned⟩ := paired.informed
  have same := paired.input?_eq
  exact ⟨fun _ _ evaluates => informed.same_answers informedPruned same evaluates,
    fun _ _ evaluates =>
      (informedPruned.same_answers informed (fun key => (same key).symm) evaluates).2⟩

/-- The upper keys are dropped; once the value at the bottom is replaced, they are
computed afresh to what they would have become. -/
theorem pruning_is_invisible_ladder :
    ∃ (evaluator full pruned after afterOther : Evaluator Nat Nat Empty)
      (results others : Results Nat Nat Empty), Reachable evaluator ∧
      Paired evaluator [1, 9] ladder [] full pruned ∧
      (evaluator.prune [1, 9]).1.graph.keys = [0, 1] ∧ (evaluator.prune [1, 9]).2 = 2 ∧
      full.graph.contains 3 = true ∧ pruned.graph.contains 3 = false ∧
      Evaluates ladder full [3] after (.ok results) ∧
      Evaluates ladder pruned [3] afterOther (.ok others) ∧
      results.value? 3 = some 11 ∧ others = results := by
  let first : Evaluator Nat Nat Empty := (({ settings := {} } : Evaluator Nat Nat Empty).inject 0 7).1
  let used := (first.evaluate ladder 20 [3]).1
  have begun : Reachable first := Reachable.turn ⟨{}, .refl⟩ (.inject _ 0 7)
  have reachable : Reachable used := begun.turn (.evaluate ladder (evaluate_evaluates ladder 20 _ [3]))
  have informed : Informed ladder [] used :=
    .evaluate (.inject (.new strict_ladder {}) 0 7 (.inr rfl))
      (evaluate_evaluates ladder 20 first [3])
  have paired : Paired used [1, 9] ladder [] (used.inject 0 8).1
      ((used.prune [1, 9]).1.inject 0 8).1 :=
    .inject (.prune informed) 0 8 (.inr (by decide +kernel)) (.inr (by decide +kernel))
  have evaluates := evaluate_evaluates ladder 20 (used.inject 0 8).1 [3]
  have evaluatesPruned := evaluate_evaluates ladder 20 ((used.prune [1, 9]).1.inject 0 8).1 [3]
  have entries : ((used.inject 0 8).1.evaluate ladder 20 [3]).2.toOption.map Results.entries =
      some [(3, .ok 11)] := by decide +kernel
  have entriesPruned : (((used.prune [1, 9]).1.inject 0 8).1.evaluate ladder 20 [3]).2.isOk =
      true := by decide +kernel
  generalize ((used.inject 0 8).1.evaluate ladder 20 [3]).1 = after at evaluates
  generalize ((used.inject 0 8).1.evaluate ladder 20 [3]).2 = answer at evaluates entries
  generalize (((used.prune [1, 9]).1.inject 0 8).1.evaluate ladder 20 [3]).1 = afterOther
    at evaluatesPruned
  generalize (((used.prune [1, 9]).1.inject 0 8).1.evaluate ladder 20 [3]).2 = answerOther
    at evaluatesPruned entriesPruned
  cases answer with
  | error stop => cases entries
  | ok results =>
  cases answerOther with
  | error stop => cases entriesPruned
  | ok others =>
  have listed : results = ⟨[(3, .ok 11)]⟩ := congrArg Results.mk (Option.some.inj entries)
  have same := ((pruning_is_invisible reachable [1, 9]).2 _ _ _ _ paired [3]).1 _ _ evaluates
  exact ⟨used, _, _, _, _, _, _, reachable, paired, by decide +kernel, by decide +kernel,
    by decide +kernel, by decide +kernel, evaluates, evaluatesPruned, by rw [listed]; rfl,
    same.1 _ _ evaluatesPruned⟩

end MemoGraph.Evaluator
