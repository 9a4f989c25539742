import MemoGraph.Proofs.Evaluator.Incremental
import MemoGraph.Proofs.Evaluator.Stories
import MemoGraph.Proofs.Round.Coverage

namespace MemoGraph.Evaluator

variable {κ ν φ : Type} [Key κ] [BEq ν] [LawfulBEq ν] {evaluator after : Evaluator κ ν φ}
  {registry : Registry κ ν φ} {invalidated roots : List κ} {key : κ}

omit [BEq ν] [LawfulBEq ν] in
theorem settled_of_opening (settled : (evaluator.opening roots).isSettled key = true) :
    (evaluator.graph.nodeAt key).isSettled = true := by
  have spared : ∀ key, (evaluator.retryTransient.graph.nodeAt key).isSettled = true →
      (evaluator.graph.nodeAt key).isSettled = true := by
    refine retryTransient_kept (fun retried => ∀ key, (retried.graph.nodeAt key).isSettled = true →
      (evaluator.graph.nodeAt key).isSettled = true) (fun _ settled => settled) ?_
    intro keys key settled
    have marked := ({ evaluator with retries := [] } : Evaluator κ ν φ).invalidateFor_marked
      .transientRetry keys
    rw [(marked.nodes key).eq_of_settled settled] at settled
    exact settled
  exact spared key settled

omit [BEq ν] [LawfulBEq ν] in
/-- A new evaluator has no results but the values that were set from outside. -/
theorem Bare.injected_of_busy (bare : Bare registry evaluator)
    (busy : (evaluator.opening roots).isIdle key = false) : evaluator.Injected key := by
  have free := bare.trusted.tidy.rested_opening roots key
  rcases Node.isIdle_eq_false_iff.mp busy with taken | settled
  · rw [free] at taken
    cases taken
  · have opened : (evaluator.opening roots).isSettled key = true := settled
    exact bare.injected key (settled_of_opening opened)

/-- After any history of which it was told, an evaluation with strict functions
takes up no key that a new evaluator with the same values from outside does not
take up as well when it evaluates the same roots, in whatever order the two step
their keys. The new one does come to an end, unless its functions cancel the
round. -/
theorem takes_up_only_needed_keys (informed : Informed registry invalidated evaluator)
    (settings : Settings) (injections : List (κ × ν))
    (same : ∀ key, (build settings injections : Evaluator κ ν φ).input? key = evaluator.input? key)
    {results : Results κ ν φ} (evaluates : Evaluates registry evaluator roots after (.ok results)) :
    (∀ scratch others,
      Evaluates registry (build settings injections) roots scratch (.ok others) →
        ∀ key, .start key ∈ evaluator.news roots after.log →
          .start key ∈ (build settings injections).news roots scratch.log) ∧
    (registry.Patient → ∃ bound others,
      ((build settings injections).evaluate registry bound roots).2 = .ok others ∧
        ∀ key, .start key ∈ evaluator.news roots after.log →
          .start key ∈ (build settings injections).news roots
            ((build settings injections).evaluate registry bound roots).1.log) := by
  obtain ⟨strict, trusted, noted, _⟩ := informed.trusted
  have bare := bare_build registry settings injections
  have unique := nodup_distinct roots
  have rested := trusted.tidy.rested_opening roots
  have restedOther := bare.trusted.tidy.rested_opening roots
  have alongside :=
    trusted.alongside noted bare.trusted bare.noted (fun key => (same key).symm) roots
  obtain ⟨final, ends, rfl, _, fate⟩ := evaluates.fate trusted.tidy
  have needed : ∀ scratch others,
      Evaluates registry (build settings injections) roots scratch (.ok others) →
        ∀ key, .start key ∈ evaluator.news roots final.log →
          .start key ∈ (build settings injections).news roots scratch.log := by
    intro scratch others evaluatesOther key started
    obtain ⟨finalOther, endsOther, rfl, _, fateOther⟩ := evaluatesOther.fate bare.trusted.tidy
    obtain ⟨idle, busy⟩ := (start_mem_news_iff (fate key)).mp started
    refine (start_mem_news_iff (fateOther key)).mpr ⟨?_,
      ends.covers strict unique rested restedOther alongside endsOther key idle busy⟩
    by_contra held
    obtain ⟨value, isInput⟩ :=
      bare.trusted.exists_input? (bare.injected_of_busy (eq_false_of_ne_true held))
    rw [same] at isInput
    obtain ⟨injected, _⟩ := trusted.input?_eq_some_iff.mp isInput
    obtain ⟨result, found, _⟩ := alongside.honest.passing key injected
    rw [Round.isIdle, Node.not_idle_of_settled (Node.isSettled_of_result? found)] at idle
    cases idle
  refine ⟨needed, fun patient => ?_⟩
  obtain ⟨bound, others, answered⟩ := trusted.exists_results strict noted bare.trusted bare.noted
    (fun key => (same key).symm) evaluates patient bare.going
  have evaluatesOther := evaluate_evaluates registry bound (build settings injections) roots
  rw [answered] at evaluatesOther
  exact ⟨bound, others, answered, needed _ _ evaluatesOther⟩

/-- A computation that repeats the value of a key. -/
def repeating (key : Nat) : Computation Nat Nat Empty :=
  .request [key] none fun answers => .check <|
    match answers with
    | [.value value] => .finish (.value value)
    | _ => .finish (.refused .incomplete)

theorem strict_repeating (key : Nat) : (repeating key).Strict := by
  refine .request fun answers _ => ?_
  split <;> exact .finish _

theorem patient_repeating (key : Nat) : (repeating key).Patient := by
  refine .request fun answers => .inspect fun short => ?_
  cases short with
  | true => exact .finish _
  | false =>
      simp only [Bool.false_eq_true, if_false]
      split <;> exact .finish _

/-- The first two keys take their values from outside, and the last one repeats
the second. The third key needs the last one while the value of the first is
zero. -/
def detour : Registry Nat Nat Empty where
  kindName _ := "detour"
  function? key :=
    match key with
    | 0 | 1 => none
    | 2 => some fun _ => .request [0] none fun answers => .check <|
        if answers = [.value 0] then repeating 3 else .finish (.value 0)
    | _ => some fun _ => repeating 1

theorem strict_detour : detour.Strict := by
  rintro key function registered run
  match key with
  | 0 | 1 => cases registered
  | 2 =>
      cases registered
      refine ⟨rfl, .request fun answers _ => ?_⟩
      split
      · exact strict_repeating 3
      · exact .finish _
  | key + 3 =>
      cases registered
      exact ⟨rfl, strict_repeating 1⟩

theorem patient_detour : detour.Patient := by
  rintro key function registered run
  match key with
  | 0 | 1 => cases registered
  | 2 =>
      cases registered
      refine .request fun answers => .inspect fun short => ?_
      cases short with
      | true => exact .finish _
      | false =>
          simp only [Bool.false_eq_true, if_false]
          split
          · exact patient_repeating 3
          · exact .finish _
  | key + 3 =>
      cases registered
      exact patient_repeating 1

/-- Once both values are replaced, the third key can do without the last one. So
that is not taken up, although the third was computed from it and it has to be
checked itself. -/
theorem takes_up_only_needed_keys_detour :
    ∃ evaluator after results, Informed detour [] evaluator ∧
      evaluator.graph.state? 3 = some .dirty ∧ 3 ∈ (evaluator.graph.nodeAt 2).dependencies ∧
      Evaluates detour evaluator [2] after (.ok results) ∧
      .start 3 ∉ evaluator.news [2] after.log ∧
      ∃ bound others, ((build {} [(0, 3), (1, 6)]).evaluate detour bound [2]).2 = .ok others := by
  let new : Evaluator Nat Nat Empty := { settings := {} }
  let first := (new.inject 0 0).1
  let ready := (first.inject 1 5).1
  let used := (ready.evaluate detour 20 [2]).1
  let middle := (used.inject 0 3).1
  let changed := (middle.inject 1 6).1
  have informedReady : Informed detour [] ready :=
    .inject (.inject (.new strict_detour {}) 0 0 (.inr rfl)) 1 5 (.inr (by decide +kernel))
  have informedUsed : Informed detour [] used :=
    .evaluate informedReady (evaluate_evaluates detour 20 ready [2])
  have informed : Informed detour [] changed :=
    .inject (.inject informedUsed 0 3 (.inr (by decide +kernel))) 1 6 (.inr (by decide +kernel))
  obtain ⟨results, evaluates⟩ := exists_evaluates detour 20 changed [2] (by decide +kernel)
  obtain ⟨others, scratch⟩ := exists_evaluates detour 20
    (build {} [(0, 3), (1, 6)] : Evaluator Nat Nat Empty) [2] (by decide +kernel)
  have same : ∀ key, (build {} [(0, 3), (1, 6)] : Evaluator Nat Nat Empty).input? key =
      changed.input? key := by
    intro key
    match key with
    | 0 | 1 | 2 | 3 => decide +kernel
    | key + 4 =>
        have keys : changed.graph.keys = [0, 1, 2, 3] := by decide +kernel
        have keysOther : (build {} [(0, 3), (1, 6)] : Evaluator Nat Nat Empty).graph.keys =
          [0, 1] := by decide +kernel
        rw [input?_of_not_mem (by rw [keysOther]; simp), input?_of_not_mem (by rw [keys]; simp)]
  obtain ⟨needed, ends⟩ := takes_up_only_needed_keys informed {} [(0, 3), (1, 6)] same evaluates
  have unneeded : Signal.start 3 ∉ (build {} [(0, 3), (1, 6)] : Evaluator Nat Nat Empty).news [2]
      ((build {} [(0, 3), (1, 6)] : Evaluator Nat Nat Empty).evaluate detour 20 [2]).1.log := by
    decide +kernel
  obtain ⟨bound, answers, answered, _⟩ := ends patient_detour
  exact ⟨changed, _, results, informed, by decide +kernel, by decide +kernel, evaluates,
    fun started => unneeded (needed _ others scratch 3 started), bound, answers, answered⟩

end MemoGraph.Evaluator
