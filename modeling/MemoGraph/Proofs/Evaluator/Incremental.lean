import MemoGraph.Proofs.Evaluator.Trust
import MemoGraph.Proofs.Round.Termination

namespace MemoGraph

/-- The registries differ at most in the functions of the given keys. -/
def Registry.SameBut {κ ν φ : Type} (registry later : Registry κ ν φ) (keys : List κ) : Prop :=
  ∀ key, key ∉ keys →
    later.function? key = registry.function? key ∧ later.kindName key = registry.kindName key

namespace Evaluator

variable {κ ν φ : Type} [Key κ] {evaluator after : Evaluator κ ν φ}
  {registry later : Registry κ ν φ} {invalidated roots : List κ} {key : κ}

/-- The value of the key, if it was set from outside. -/
def input? (evaluator : Evaluator κ ν φ) (key : κ) : Option ν :=
  if (evaluator.graph.nodeAt key).injected then evaluator.graph.value? key else none

section Inputs

theorem input?_of_not_mem (unknown : key ∉ evaluator.graph.keys) : evaluator.input? key = none := by
  unfold input?
  rw [Graph.nodeAt_of_not_mem unknown]
  rfl

theorem Trusted.input?_eq_some_iff (trusted : Trusted registry evaluator) {value : ν} :
    evaluator.input? key = some value ↔
      evaluator.Injected key ∧ evaluator.graph.result? key = some (.ok value) := by
  unfold input? Injected
  cases injected : (evaluator.graph.nodeAt key).injected with
  | false => simp
  | true =>
      obtain ⟨_, held, found⟩ := trusted.rootless key injected
      rw [← Graph.result?_eq] at found
      simp [Graph.value?, found]

theorem Trusted.exists_input? (trusted : Trusted registry evaluator)
    (injected : evaluator.Injected key) : ∃ value, evaluator.input? key = some value := by
  obtain ⟨_, value, found⟩ := trusted.rootless key injected
  rw [← Graph.result?_eq] at found
  exact ⟨value, trusted.input?_eq_some_iff.mpr ⟨injected, found⟩⟩

/-- Evaluators with the same values from outside begin rounds alongside. -/
theorem Trusted.alongside {other : Evaluator κ ν φ} (trusted : Trusted registry evaluator)
    (noted : Noted evaluator) (trustedOther : Trusted registry other) (notedOther : Noted other)
    (same : ∀ key, evaluator.input? key = other.input? key) (roots : List κ) :
    Round.Alongside registry evaluator.Injected evaluator.Injected (evaluator.opening roots)
      (other.opening roots) := by
  have held : ∀ key, evaluator.Injected key → other.Injected key ∧
      evaluator.graph.result? key = other.graph.result? key := by
    intro key injected
    obtain ⟨value, isInput⟩ := trusted.exists_input? injected
    obtain ⟨_, found⟩ := trusted.input?_eq_some_iff.mp isInput
    rw [same] at isInput
    obtain ⟨injectedOther, foundOther⟩ := trustedOther.input?_eq_some_iff.mp isInput
    exact ⟨injectedOther, found.trans foundOther.symm⟩
  have injected : evaluator.Injected = other.Injected := by
    funext key
    refine propext ⟨fun injected => (held key injected).1, fun injected => ?_⟩
    obtain ⟨value, isInput⟩ := trustedOther.exists_input? injected
    rw [← same] at isInput
    exact (trusted.input?_eq_some_iff.mp isInput).1
  refine ⟨trusted.opening noted roots, ?_, fun key isGiven => ?_⟩
  · rw [injected]
    exact trustedOther.opening notedOther roots
  · obtain ⟨isOther, equal⟩ := held key isGiven
    exact (trusted.result?_retryTransient isGiven).trans
      (equal.trans (trustedOther.result?_retryTransient isOther).symm)

end Inputs

/-- What is computed afresh before it is used may be computed in another way. -/
theorem Trusted.change (trusted : Trusted registry evaluator)
    (same : ∀ key result, (evaluator.graph.nodeAt key).memo = .valid result ∨
        (evaluator.graph.nodeAt key).memo = .dirty result → evaluator.Injected key ∨
      (later.function? key = registry.function? key ∧
        later.kindName key = registry.kindName key)) : Trusted later evaluator := by
  have kept : ∀ {key result results}, (evaluator.graph.nodeAt key).memo = .valid result ∨
      (evaluator.graph.nodeAt key).memo = .dirty result →
        (registry.backing evaluator.Injected).holds key result
          (evaluator.graph.nodeAt key).dependencies results →
        (later.backing evaluator.Injected).holds key result
          (evaluator.graph.nodeAt key).dependencies results := by
    intro key result results memo holds
    rcases same key result memo with injected | ⟨function, kind⟩
    · exact .inl injected
    · exact holds.imp_right fun derives => derives.change function kind
  refine ⟨trusted.tidy, trusted.grounded.rebase id (fun key result results found => ?_)
    (fun key result results memo holds => .inr (kept (.inr memo) holds)), trusted.founded,
    trusted.rootless⟩
  exact kept (.inl (Node.result?_eq_some_iff.mp found).2)

variable [BEq ν]

/-- What can become of a new evaluator that is told of everything that happens
outside: how its functions work now, and which keys were invalidated since the
last evaluation. Only the functions of these may come to work differently. A
value may be set from outside where none was computed, and also where one was if
it differs from that. -/
inductive Informed : Registry κ ν φ → List κ → Evaluator κ ν φ → Prop
  | new {registry : Registry κ ν φ} (strict : registry.Strict) (settings : Settings) :
      Informed registry [] { settings }
  | inject {registry : Registry κ ν φ} {invalidated : List κ} {evaluator : Evaluator κ ν φ}
      (informed : Informed registry invalidated evaluator) (key : κ) (value : ν)
      (fresh : evaluator.Injected key ∨
        (evaluator.graph.value? key).any (· == value) = false) :
      Informed registry invalidated (evaluator.inject key value).1
  | invalidate {registry : Registry κ ν φ} {invalidated : List κ} {evaluator : Evaluator κ ν φ}
      (informed : Informed registry invalidated evaluator) (keys : List κ) :
      Informed registry (keys ++ invalidated) (evaluator.invalidate keys).1
  | change {registry later : Registry κ ν φ} {invalidated : List κ} {evaluator : Evaluator κ ν φ}
      (informed : Informed registry invalidated evaluator) (strict : later.Strict)
      (same : registry.SameBut later invalidated) : Informed later invalidated evaluator
  | prune {registry : Registry κ ν φ} {invalidated : List κ} {evaluator : Evaluator κ ν φ}
      (informed : Informed registry invalidated evaluator) (keep : List κ) :
      Informed registry invalidated (evaluator.prune keep).1
  | interrupt {registry : Registry κ ν φ} {invalidated : List κ} {evaluator : Evaluator κ ν φ}
      (informed : Informed registry invalidated evaluator) :
      Informed registry invalidated evaluator.interrupt
  | evaluate {registry : Registry κ ν φ} {invalidated : List κ} {evaluator after : Evaluator κ ν φ}
      {roots : List κ} {answer : Except Stop (Results κ ν φ)}
      (informed : Informed registry invalidated evaluator)
      (evaluates : Evaluates registry evaluator roots after answer) : Informed registry [] after

/-- Whatever an evaluator remembers of the keys, they are computed afresh before
they are used, unless their values were set from outside. -/
def Renews (evaluator : Evaluator κ ν φ) (keys : List κ) : Prop :=
  ∀ key ∈ keys, evaluator.Injected key ∨
    Node.firstPhase? (evaluator.graph.nodeAt key).memo = some .computing

section Renews

omit [BEq ν]

theorem Renews.invalidate (renews : Renews evaluator invalidated)
    (tidy : Tidy evaluator) (keys : List κ) :
    Renews (evaluator.invalidate keys).1 (keys ++ invalidated) := by
  obtain ⟨marked, computing⟩ := Graph.invalidate_spec evaluator.graph keys .manual
  have injected : (evaluator.invalidate keys).1.Injected = evaluator.Injected :=
    injected_invalidateFor .manual keys
  intro key member
  rw [injected]
  by_cases isInjected : evaluator.Injected key
  · exact .inl isInjected
  · refine .inr ?_
    rcases List.mem_append.mp member with isNew | isOld
    · exact computing key isNew (eq_false_of_ne_true isInjected) (tidy.rested key)
    · exact (marked.nodes key).computing ((renews key isOld).resolve_left isInjected)

theorem Renews.prune (renews : Renews evaluator invalidated) (tidy : Tidy evaluator)
    (keep : List κ) : Renews (evaluator.prune keep).1 invalidated := by
  intro key member
  rw [injected_prune tidy, nodeAt_prune]
  refine (renews key member).imp_right fun computing => ?_
  split
  · exact computing
  · rfl

variable [BEq ν]

theorem Renews.inject (renews : Renews evaluator invalidated) (tidy : Tidy evaluator) (key : κ)
    (value : ν) : Renews (evaluator.inject key value).1 invalidated := by
  intro other member
  unfold Injected
  cases equal : (evaluator.graph.value? key).any (· == value) with
  | true =>
      rw [nodeAt_inject_of_equal equal]
      split
      · exact .inl rfl
      · exact renews other member
  | false =>
      have replaced := inject_replaced tidy equal
      by_cases same : other = key
      · subst same
        exact .inl replaced.self.injected
      · rcases replaced.others other same with alike | ⟨result, valid, alike⟩
        · rw [alike.injected, alike.memo]
          exact renews other member
        · rw [alike.injected]
          refine (renews other member).imp_right fun computing => ?_
          rw [(Node.result?_eq_some_iff.mp valid).2] at computing
          cases computing

omit [BEq ν] in
theorem Trusted.change_of_renews (trusted : Trusted registry evaluator)
    (renews : Renews evaluator invalidated) (same : registry.SameBut later invalidated) :
    Trusted later evaluator := by
  refine trusted.change fun key result memo => ?_
  by_cases member : key ∈ invalidated
  · refine .inl ((renews key member).resolve_right fun computing => ?_)
    rcases memo with memo | memo <;> rw [memo] at computing <;> cases computing
  · exact .inr (same key member)

end Renews

variable [LawfulBEq ν]

theorem Informed.trusted (informed : Informed registry invalidated evaluator) :
    registry.Strict ∧ Trusted registry evaluator ∧ Noted evaluator ∧
      Renews evaluator invalidated := by
  induction informed with
  | new strict settings => exact ⟨strict, .empty _ settings, .empty settings, by simp [Renews]⟩
  | inject informed key value fresh ih =>
      obtain ⟨strict, trusted, noted, renews⟩ := ih
      exact ⟨strict, trusted.inject key value fresh, noted.inject trusted.tidy key value,
        renews.inject trusted.tidy key value⟩
  | invalidate informed keys ih =>
      obtain ⟨strict, trusted, noted, renews⟩ := ih
      exact ⟨strict, trusted.invalidateFor .manual keys, noted.invalidateFor .manual keys,
        renews.invalidate trusted.tidy keys⟩
  | change informed strict same ih =>
      obtain ⟨_, trusted, noted, renews⟩ := ih
      exact ⟨strict, trusted.change_of_renews renews same, noted, renews⟩
  | prune informed keep ih =>
      obtain ⟨strict, trusted, noted, renews⟩ := ih
      exact ⟨strict, trusted.prune keep, noted.prune keep, renews.prune trusted.tidy keep⟩
  | interrupt informed ih =>
      obtain ⟨strict, trusted, noted, renews⟩ := ih
      exact ⟨strict, ⟨⟨trusted.tidy.rested, trusted.tidy.linked⟩, trusted.grounded,
        trusted.founded, trusted.rootless⟩, noted, renews⟩
  | evaluate informed evaluates ih =>
      obtain ⟨strict, trusted, noted, _⟩ := ih
      exact ⟨strict, trusted.evaluates noted strict evaluates,
        noted.evaluates trusted.tidy evaluates, by simp [Renews]⟩

section Build

omit [LawfulBEq ν]

/-- An evaluator that has been told nothing but values from outside. -/
structure Bare (registry : Registry κ ν φ) (evaluator : Evaluator κ ν φ) : Prop where
  trusted : Trusted registry evaluator
  noted : Noted evaluator
  injected : ∀ key, (evaluator.graph.nodeAt key).isSettled = true → evaluator.Injected key
  going : evaluator.interrupted = false

theorem Bare.inject (bare : Bare registry evaluator) (key : κ) (value : ν) :
    Bare registry (evaluator.inject key value).1 := by
  have fresh : evaluator.Injected key ∨
      (evaluator.graph.value? key).any (· == value) = false := by
    cases equal : (evaluator.graph.value? key).any (· == value) with
    | false => exact .inr rfl
    | true =>
        refine .inl (bare.injected key ?_)
        unfold Node.isSettled
        rw [← Graph.result?_eq]
        unfold Graph.value? at equal
        cases found : evaluator.graph.result? key with
        | none => simp [found] at equal
        | some result => rfl
  refine ⟨bare.trusted.inject key value fresh, bare.noted.inject bare.trusted.tidy key value, ?_, ?_⟩
  all_goals cases equal : (evaluator.graph.value? key).any (· == value)
  · have replaced := inject_replaced bare.trusted.tidy equal
    intro other settled
    by_cases same : other = key
    · exact same ▸ replaced.self.injected
    · unfold Injected
      rcases replaced.others other same with alike | ⟨_, _, alike⟩
      · rw [alike.injected]
        exact bare.injected other (alike.isSettled ▸ settled)
      · rw [alike.isSettled, Node.isSettled, Node.result?_dirty] at settled
        cases settled
  · intro other settled
    unfold Injected
    rw [nodeAt_inject_of_equal equal] at settled ⊢
    by_cases same : other = key
    · rw [if_pos same]
    · rw [if_neg same] at settled ⊢
      exact bare.injected other settled
  · exact (inject_replaced bare.trusted.tidy equal).interrupted.trans bare.going
  · rw [inject_of_equal equal]
    exact bare.going

theorem bare_build (registry : Registry κ ν φ) (settings : Settings)
    (injections : List (κ × ν)) : Bare registry (build settings injections) := by
  have start : Bare registry ({ settings } : Evaluator κ ν φ) :=
    { trusted := .empty registry settings
      noted := .empty settings
      injected := fun _ settled => nomatch settled
      going := rfl }
  unfold build
  generalize ({ settings } : Evaluator κ ν φ) = evaluator at start
  induction injections generalizing evaluator with
  | nil => exact start
  | cons injection rest ih => exact ih _ (start.inject injection.1 injection.2)

end Build

omit [BEq ν] [LawfulBEq ν] in
theorem interrupted_retryTransient :
    evaluator.retryTransient.interrupted = evaluator.interrupted := by
  unfold Evaluator.retryTransient
  split <;> rfl

omit [LawfulBEq ν] in
theorem exists_results_of_run {bound : Nat} (complete :
    ((evaluator.opening roots).run registry bound (distinct roots)).2 = .complete) :
    ∃ results, (evaluator.evaluate registry bound roots).2 = .ok results := by
  unfold opening at complete
  unfold evaluate
  simp only
  generalize (evaluator.retryTransient.openRound.tell (.round (distinct roots))).run registry bound
    (distinct roots) = ended at complete ⊢
  obtain ⟨final, halt⟩ := ended
  simp only at complete
  subst complete
  exact ⟨_, rfl⟩

section Answers

variable {other : Evaluator κ ν φ} {results : Results κ ν φ} (strict : registry.Strict)
  (trusted : Trusted registry evaluator) (noted : Noted evaluator)
  (trustedOther : Trusted registry other) (notedOther : Noted other)
  (same : ∀ key, evaluator.input? key = other.input? key)
  (evaluates : Evaluates registry evaluator roots after (.ok results))
include strict trusted noted trustedOther notedOther same evaluates

theorem Trusted.same_results {afterOther : Evaluator κ ν φ} {others : Results κ ν φ}
    (evaluatesOther : Evaluates registry other roots afterOther (.ok others)) :
    others = results := by
  obtain ⟨final, ends, _, rfl⟩ := evaluates.complete
  obtain ⟨finalOther, endsOther, _, rfl⟩ := evaluatesOther.complete
  have alongside := trusted.alongside noted trustedOther notedOther same roots
  congr 1
  refine List.map_congr_left fun root isRoot => ?_
  unfold resultOf
  rw [ends.same_results strict (nodup_distinct roots) (trusted.tidy.rested_opening roots)
    (trustedOther.tidy.rested_opening roots) alongside endsOther isRoot]

/-- Where one of them gives results, the other one does. -/
theorem Trusted.exists_results (patient : registry.Patient) (clear : other.interrupted = false) :
    ∃ bound others, (other.evaluate registry bound roots).2 = .ok others := by
  obtain ⟨final, ends, _⟩ := evaluates.complete
  have alongside := trusted.alongside noted trustedOther notedOther same roots
  have going : (other.opening roots).interrupted = false := interrupted_retryTransient.trans clear
  obtain ⟨bound, complete⟩ := ends.exists_run strict patient (nodup_distinct roots)
    (trusted.tidy.rested_opening roots) (trustedOther.tidy.rested_opening roots) going alongside
  exact ⟨bound, exists_results_of_run complete⟩

/-- Evaluators with the same values from outside give the same results. The other
does give them, unless its functions cancel the round. -/
theorem Trusted.same_answers :
    (∀ afterOther others,
      Evaluates registry other roots afterOther (.ok others) → others = results) ∧
    (registry.Patient → other.interrupted = false →
      ∃ bound, (other.evaluate registry bound roots).2 = .ok results) := by
  have agree : ∀ afterOther others,
      Evaluates registry other roots afterOther (.ok others) → others = results :=
    fun _ _ => trusted.same_results strict noted trustedOther notedOther same evaluates
  refine ⟨agree, fun patient clear => ?_⟩
  obtain ⟨bound, others, answered⟩ :=
    trusted.exists_results strict noted trustedOther notedOther same evaluates patient clear
  have evaluatesOther := evaluate_evaluates registry bound other roots
  rw [answered] at evaluatesOther
  exact ⟨bound, by rw [answered, agree _ _ evaluatesOther]⟩

end Answers

/-- After any history of which it was told, an evaluation with strict functions
gives for all its roots what a new evaluator gives that has the same values from
outside, in whatever order the two step their keys: the same values, and
failures of the same kind at the same keys with the same causes. The new one does
give results, unless its functions cancel the round. -/
theorem evaluates_as_from_scratch (informed : Informed registry invalidated evaluator)
    (settings : Settings) (injections : List (κ × ν))
    (same : ∀ key, (build settings injections : Evaluator κ ν φ).input? key = evaluator.input? key)
    {results : Results κ ν φ} (evaluates : Evaluates registry evaluator roots after (.ok results)) :
    (∀ scratch others,
      Evaluates registry (build settings injections) roots scratch (.ok others) →
        others = results) ∧
    (registry.Patient → ∃ bound,
      ((build settings injections).evaluate registry bound roots).2 = .ok results) := by
  obtain ⟨strict, trusted, noted, _⟩ := informed.trusted
  have bare := bare_build registry settings injections
  obtain ⟨agree, answers⟩ := trusted.same_answers strict noted bare.trusted bare.noted
    (fun key => (same key).symm) evaluates
  exact ⟨agree, fun patient => answers patient bare.going⟩

/-- Every key but the first, whose value is set from outside, adds one to the key
below it. -/
def ladder : Registry Nat Nat Empty where
  kindName _ := "ladder"
  function? key :=
    match key with
    | 0 => none
    | below + 1 => some fun _ => .request [below] none fun answers => .check <|
        match answers with
        | [.value value] => .finish (.value (value + 1))
        | _ => .finish (.refused .incomplete)

theorem strict_ladder : ladder.Strict := by
  rintro key function registered run
  match key with
  | 0 => cases registered
  | below + 1 =>
      cases registered
      refine ⟨rfl, .request fun answers _ => ?_⟩
      split <;> exact .finish _

/-- Once the value at the bottom is replaced, the next evaluation gives what one
from scratch gives. -/
theorem evaluates_as_from_scratch_ladder :
    ∃ evaluator after results, Informed ladder [] evaluator ∧
      evaluator.graph.value? 2 = none ∧ evaluator.graph.contains 2 = true ∧
      Evaluates ladder evaluator [2] after (.ok results) ∧
      results.value? 2 = some 10 ∧
      ∃ bound, ((build {} [(0, 8)]).evaluate ladder bound [2]).2 = .ok results := by
  let first : Evaluator Nat Nat Empty := (({ settings := {} } : Evaluator Nat Nat Empty).inject 0 7).1
  let used := (first.evaluate ladder 20 [2]).1
  let changed := (used.inject 0 8).1
  have informed : Informed ladder [] changed :=
    .inject (.evaluate (.inject (.new strict_ladder {}) 0 7 (.inr rfl))
      (evaluate_evaluates ladder 20 first [2])) 0 8 (.inr (by decide +kernel))
  have evaluates := evaluate_evaluates ladder 20 changed [2]
  have entries : (changed.evaluate ladder 20 [2]).2.toOption.map Results.entries =
      some [(2, .ok 10)] := by decide +kernel
  generalize (changed.evaluate ladder 20 [2]).1 = after at evaluates
  generalize (changed.evaluate ladder 20 [2]).2 = answer at evaluates entries
  cases answer with
  | error stop => cases entries
  | ok results =>
  have listed : results = ⟨[(2, .ok 10)]⟩ := congrArg Results.mk (Option.some.inj entries)
  have same : ∀ key, (build {} [(0, 8)] : Evaluator Nat Nat Empty).input? key =
      changed.input? key := by
    intro key
    match key with
    | 0 => decide +kernel
    | 1 => decide +kernel
    | 2 => decide +kernel
    | key + 3 =>
        have keys : changed.graph.keys = [0, 1, 2] := by decide +kernel
        have keysOther : (build {} [(0, 8)] : Evaluator Nat Nat Empty).graph.keys = [0] := by
          decide +kernel
        rw [input?_of_not_mem (by rw [keysOther]; simp), input?_of_not_mem (by rw [keys]; simp)]
  have patient : ladder.Patient := by
    rintro key function registered run
    match key with
    | 0 => cases registered
    | below + 1 =>
        cases registered
        refine .request fun answers => .inspect fun short => ?_
        cases short with
        | true => exact .finish _
        | false =>
            simp only [Bool.false_eq_true, if_false]
            split <;> exact .finish _
  exact ⟨changed, _, _, informed, by decide +kernel, by decide +kernel, evaluates,
    by rw [listed]; rfl,
    (evaluates_as_from_scratch informed {} [(0, 8)] same evaluates).2 patient⟩

end Evaluator

end MemoGraph
