import MemoGraph.Proofs.Evaluator.Interruption

namespace MemoGraph

theorem Memo.eq_dirty {κ ν φ : Type} {memo : Memo κ ν φ} {result : Result κ ν φ}
    (state : memo.state = .dirty) (remembered : memo.result? = some result) :
    memo = .dirty result := by
  cases memo with
  | dirty old => exact congrArg Memo.dirty (Option.some.inj remembered)
  | blank | changed => cases state
  | valid given => cases given <;> cases state

namespace Evaluator

variable {κ ν φ : Type} [Key κ] [BEq ν] {evaluator after : Evaluator κ ν φ}
  {registry : Registry κ ν φ} {roots : List κ} {final : Round κ ν φ} {key : κ}

/-- The node of a key right before the round of an evaluation. -/
def earlier (evaluator : Evaluator κ ν φ) (key : κ) : Node κ ν φ :=
  evaluator.retryTransient.graph.nodeAt key

/-- The evaluation gave the key the result by computing it: so the observer was
told, the node took the result over, and at some time of the evaluation the key
was ready and a computation left it as it is. -/
structure Recomputed (registry : Registry κ ν φ) (evaluator : Evaluator κ ν φ) (roots : List κ)
    (after : Evaluator κ ν φ) (key : κ) (result : Result κ ν φ) : Prop where
  told : ∃ runs, story key (evaluator.news roots after.log) = Round.attemptStory key runs ++
      [.finish key (.ofResult ((evaluator.earlier key).keeps result) result)] ∧
    (runs = [] → registry.function? key = none)
  node : ∃ dependencies, (after.graph.nodeAt key).Alike
    ((evaluator.earlier key).commit after.version result dependencies)
  moment : ∃ (moment : Round κ ν φ) (ready : List κ) (work : Work κ φ),
    ComesTo registry evaluator roots (moment, ready) ∧ key ∈ ready ∧
      (moment.graph.nodeAt key).work = some work ∧ work.phase = .computing ∧
      (after.graph.nodeAt key).Alike ((moment.compute registry key work).1.graph.nodeAt key)

/-- The evaluation found that the earlier result of the key still holds: all
that the observer was told of the key is this, and all that changed in the node
is that the result holds as of this version. -/
structure Revalidated (evaluator : Evaluator κ ν φ) (roots : List κ) (after : Evaluator κ ν φ)
    (key : κ) (result : Result κ ν φ) : Prop where
  told : story key (evaluator.news roots after.log) = [.start key, .finish key .revalidated]
  node : after.graph.nodeAt key = { evaluator.earlier key with
    memo := .valid result
    lastEvaluated := after.version
    dependents := (after.graph.nodeAt key).dependents }

/-- A key is not both computed and found to hold. -/
theorem Recomputed.not_revalidated {result old : Result κ ν φ}
    (recomputed : Recomputed registry evaluator roots after key result) :
    ¬ Revalidated evaluator roots after key old := by
  intro revalidated
  obtain ⟨runs, told, _⟩ := recomputed.told
  rw [revalidated.told] at told
  have listed : Signal.finish key .revalidated ∈ Round.attemptStory key runs ++
      [.finish key (.ofResult ((evaluator.earlier key).keeps result) result)] := by
    rw [← told]
    simp
  rcases List.mem_append.mp listed with opened | last
  · exact Round.finish_not_mem_attemptStory _ _ opened
  · exact Ending.ofResult_ne_revalidated _ _ (Signal.finish.inj (List.mem_singleton.mp last)).2.symm

/-- What became of a key that was taken up in an evaluation that was not cut
short, unless it failed with a component. -/
theorem recomputed_or_revalidated (fate : Fate registry evaluator roots final key)
    (ends : Round.Ends registry (distinct roots) (evaluator.opening roots) final .complete)
    (tidy : Tidy evaluator) (started : .start key ∈ evaluator.news roots final.log)
    (apart : ∀ component, .cycle component ∈ evaluator.news roots final.log → key ∉ component) :
    (evaluator.earlier key).isIdle = true ∧
    ((∃ result, Recomputed registry evaluator roots
          (evaluator.retryTransient.closeRound final .complete) key result ∧
        ∀ old, (evaluator.earlier key).memo = .dirty old → final.graph.Overtakes
          (evaluator.earlier key).dependencies (evaluator.earlier key).lastEvaluated) ∨
      ∃ old, (evaluator.earlier key).memo = .dirty old ∧
        Revalidated evaluator roots (evaluator.retryTransient.closeRound final .complete) key old ∧
        final.graph.Confirms (evaluator.earlier key).dependencies
          (evaluator.earlier key).lastEvaluated) := by
  have unique := nodup_distinct roots
  have rested := tidy.rested_opening roots
  rw [← start_mem_story] at started
  unfold Fate at fate
  generalize told : story key (evaluator.news roots final.log) = given at fate started
  cases fate with
  | aside => cases started
  | cached => simp at started
  | underway _ work found =>
      have idle := (ends.settled unique rested).1 key
      rw [Round.isEvaluating_eq, found] at idle
      cases idle
  | revalidated idle old memo same confirmed =>
      refine ⟨idle, .inr ⟨old, memo, ⟨told, ?_⟩, confirmed⟩⟩
      have dirty : (evaluator.earlier key).memo = .dirty old := memo
      have free : (evaluator.earlier key).work = none := rested key
      have equal := Node.eq_of_bare same.bare (ends.rested unique rested key) rfl
      refine equal.trans ?_
      change { (evaluator.earlier key).revalidate (evaluator.opening roots).version with
        dependents := (final.graph.nodeAt key).dependents } = _
      unfold Node.revalidate
      rw [dirty, ← free]
      rfl
  | computed idle result dependencies same overtaken moment _ runs absent =>
      exact ⟨idle, .inl ⟨result, ⟨⟨runs, told, absent⟩, ⟨dependencies, same⟩, moment⟩, overtaken⟩⟩
  | broken _ _ _ _ _ component member =>
      refine absurd member (apart component ((cycle_mem_story member).mp ?_))
      rw [told]
      simp

theorem Recomputed.kept {result : Result κ ν φ}
    (recomputed : Recomputed registry evaluator roots after key result)
    (kept : (evaluator.earlier key).keeps result = true) :
    after.graph.result? key = (evaluator.earlier key).memo.result? ∧
      (after.graph.nodeAt key).lastChanged = (evaluator.earlier key).lastChanged := by
  obtain ⟨dependencies, same⟩ := recomputed.node
  rw [Graph.result?_eq, same.result?, same.lastChanged, Node.commit_result?,
    Node.result?_of_keeps kept, Node.commit_eq, if_pos kept]
  exact ⟨rfl, rfl⟩

/-- Where nothing ends but as it was, nothing changed. -/
theorem lastChanged_of_quiet (fate : Fate registry evaluator roots final key)
    (quiet : ∀ ending, .finish key ending ∈ evaluator.news roots final.log →
      ending = .cacheHit ∨ ending = .revalidated ∨ ending = .unchanged) :
    (final.graph.nodeAt key).lastChanged = (evaluator.earlier key).lastChanged := by
  have ended : ∀ ending, .finish key ending ∈ story key (evaluator.news roots final.log) →
      ending = .cacheHit ∨ ending = .revalidated ∨ ending = .unchanged :=
    fun ending told => quiet ending (finish_mem_story.mp told)
  unfold Fate at fate
  generalize story key (evaluator.news roots final.log) = told at fate ended
  cases fate with
  | aside same | cached same => exact same.lastChanged
  | underway _ _ _ same => exact (Node.mk.inj same).2.2.2.1
  | revalidated _ _ _ same => exact same.lastChanged
  | computed _ result dependencies same =>
      have ending := ended _ (List.mem_append_right _ List.mem_cons_self)
      have kept : (evaluator.earlier key).keeps result = true := by
        rcases ending with cached | revalidated | unchanged
        · exact absurd cached (Ending.ofResult_ne_cacheHit _ _)
        · exact absurd revalidated (Ending.ofResult_ne_revalidated _ _)
        · exact Ending.ofResult_eq_unchanged unchanged
      refine same.lastChanged.trans ?_
      change ((evaluator.earlier key).commit _ result dependencies).lastChanged = _
      rw [Node.commit_eq, if_pos kept]
  | broken => rcases ended .cycleDetected (by simp) with other | other | other <;> cases other

/-- Where moreover nothing that is to be checked was overtaken before, only keys
are run that had no result or one that was known not to hold. -/
theorem memo_of_compute {attempt : Nat}
    (fates : ∀ key, Fate registry evaluator roots final key)
    (ends : Round.Ends registry (distinct roots) (evaluator.opening roots) final .complete)
    (tidy : Tidy evaluator)
    (older : ∀ key old, (evaluator.earlier key).memo = .dirty old →
      ∀ dependency ∈ (evaluator.earlier key).dependencies,
        (evaluator.earlier dependency).lastChanged ≤ (evaluator.earlier key).lastEvaluated)
    (quiet : ∀ key ending, .finish key ending ∈ evaluator.news roots final.log →
      ending = .cacheHit ∨ ending = .revalidated ∨ ending = .unchanged)
    (run : .compute key attempt ∈ evaluator.news roots final.log) :
    (evaluator.earlier key).memo = .blank ∨ ∃ old, (evaluator.earlier key).memo = .changed old := by
  have fate := fates key
  have ended : ∀ ending, .finish key ending ∈ story key (evaluator.news roots final.log) →
      ending = .cacheHit ∨ ending = .revalidated ∨ ending = .unchanged :=
    fun ending told => quiet key ending (finish_mem_story.mp told)
  rw [← compute_mem_story] at run
  unfold Fate at fate
  generalize story key (evaluator.news roots final.log) = told at fate ended run
  cases fate with
  | aside => cases run
  | cached | revalidated => simp at run
  | underway _ work found =>
      have idle := (ends.settled (nodup_distinct roots) (tidy.rested_opening roots)).1 key
      rw [Round.isEvaluating_eq, found] at idle
      cases idle
  | computed idle result dependencies same overtaken =>
      have unsettled : (evaluator.earlier key).result? = none := (Node.isIdle_iff.mp idle).2
      have free : (evaluator.earlier key).work = none := (Node.isIdle_iff.mp idle).1
      cases memo : (evaluator.earlier key).memo with
      | blank => exact .inl rfl
      | changed old => exact .inr ⟨old, rfl⟩
      | valid old => simp [Node.result?, free, memo] at unsettled
      | dirty old =>
          obtain ⟨group, others, found, _, dependency, member, newer⟩ := overtaken old memo
          rw [lastChanged_of_quiet (fates dependency) (quiet dependency)] at newer
          exact absurd newer (Nat.not_lt_of_le
            (older key old memo dependency (Grouping.mem_of_group? found member)))
  | broken => rcases ended .cycleDetected (by simp) with other | other | other <;> cases other

/-- Take any evaluation that is not cut short, after any history. A key that was
taken up, and did not fail with a component, is computed if it had no result or
one that was known not to hold. If its result may still hold, then it is
computed if a recorded dependency turned out to have changed after the key was
evaluated last, and only then; else it keeps its result and all that was
recorded with it, but that the result now holds as of this version. A value
equal to the one before leaves that in place, so that the key does not count as
changed. So where nothing was overtaken before and all that ends is as it was,
the functions that run are those of keys which had no result or one that was
known not to hold. -/
theorem change_pruning_is_exact (reachable : Reachable evaluator)
    {results : Results κ ν φ}
    (evaluates : Evaluates registry evaluator roots after (.ok results)) :
    (∀ key, .start key ∈ evaluator.news roots after.log →
      (∀ component, .cycle component ∈ evaluator.news roots after.log → key ∉ component) →
        (evaluator.earlier key).isIdle = true ∧
        ((∀ old, (evaluator.earlier key).memo ≠ .dirty old) →
          ∃ result, Recomputed registry evaluator roots after key result) ∧
        ∀ old, (evaluator.earlier key).memo = .dirty old →
          ((∃ result, Recomputed registry evaluator roots after key result) ↔
            after.graph.Overtakes (evaluator.earlier key).dependencies
              (evaluator.earlier key).lastEvaluated) ∧
          (¬ after.graph.Overtakes (evaluator.earlier key).dependencies
              (evaluator.earlier key).lastEvaluated →
            Revalidated evaluator roots after key old)) ∧
    (∀ key value old, Recomputed registry evaluator roots after key (.ok value) →
      (evaluator.earlier key).memo.result? = some (.ok old) → (old == value) = true →
        after.graph.result? key = some (.ok old) ∧
          (after.graph.nodeAt key).lastChanged = (evaluator.earlier key).lastChanged ∧
          .finish key .unchanged ∈ evaluator.news roots after.log) ∧
    ((∀ key old, (evaluator.earlier key).memo = .dirty old →
        ∀ dependency ∈ (evaluator.earlier key).dependencies,
          (evaluator.earlier dependency).lastChanged ≤ (evaluator.earlier key).lastEvaluated) →
      (∀ key ending, .finish key ending ∈ evaluator.news roots after.log →
        ending = .cacheHit ∨ ending = .revalidated ∨ ending = .unchanged) →
      ∀ key attempt, .compute key attempt ∈ evaluator.news roots after.log →
        (evaluator.earlier key).memo = .blank ∨
          ∃ old, (evaluator.earlier key).memo = .changed old) := by
  obtain ⟨final, ends, rfl, _, fates⟩ := evaluates.fate reachable.tidy
  refine ⟨fun key started apart => ?taken, fun key value old recomputed memo equal => ?equal,
    fun older quiet key attempt run => memo_of_compute fates ends reachable.tidy older quiet run⟩
  case taken =>
    obtain ⟨idle, outcome⟩ :=
      recomputed_or_revalidated (fates key) ends reachable.tidy started apart
    rcases outcome with ⟨result, recomputed, overtaken⟩ | ⟨old, dirty, revalidated, confirmed⟩
    · refine ⟨idle, fun _ => ⟨result, recomputed⟩, fun old dirty => ?_⟩
      have overtakes := overtaken old dirty
      exact ⟨⟨fun _ => overtakes, fun _ => ⟨result, recomputed⟩⟩, absurd overtakes⟩
    · refine ⟨idle, fun other => absurd dirty (other old), fun other isOther => ?_⟩
      obtain rfl : old = other := Memo.dirty.inj (dirty.symm.trans isOther)
      refine ⟨⟨?_, fun overtakes => absurd overtakes confirmed.not_overtakes⟩, fun _ => revalidated⟩
      rintro ⟨result, recomputed⟩
      exact absurd revalidated recomputed.not_revalidated
  case equal =>
    have keeps : (evaluator.earlier key).keeps (.ok value) = true := by
      unfold Node.keeps
      rw [memo]
      exact equal
    obtain ⟨same, unchanged⟩ := recomputed.kept keeps
    refine ⟨same.trans memo, unchanged, ?_⟩
    obtain ⟨runs, told, _⟩ := recomputed.told
    rw [← finish_mem_story, told, keeps]
    exact List.mem_append_right _ List.mem_cons_self

/-- The first key takes its values from outside. The second tells whether that
of the first is odd, and the third repeats the second. -/
def parity : Registry Nat Nat Empty where
  kindName _ := "parity"
  function? key :=
    match key with
    | 0 => none
    | 1 => some fun _ => .request [0] none fun answers => .check <|
        match answers with
        | [.value value] => .finish (.value (value % 2))
        | _ => .finish (.refused .incomplete)
    | _ => some fun _ => .request [1] none fun answers => .check <|
        match answers with
        | [.value value] => .finish (.value value)
        | _ => .finish (.refused .incomplete)

/-- Once another odd value is set, the second key is computed again and keeps
its value, and the result of the third is found to hold. If after that the
second key is invalidated, no other function runs. -/
theorem change_pruning_is_exact_parity :
    ∃ changed after again : Evaluator Nat Nat Empty,
      after = (changed.evaluate parity 20 [2]).1 ∧
      (changed.earlier 1).memo = .dirty (.ok 1) ∧ (changed.earlier 2).memo = .dirty (.ok 1) ∧
      Recomputed parity changed [2] after 1 (.ok 1) ∧
      after.graph.result? 1 = some (.ok 1) ∧
      (after.graph.nodeAt 1).lastChanged = (changed.earlier 1).lastChanged ∧
      Revalidated changed [2] after 2 (.ok 1) ∧
      again = (after.invalidate [1]).1 ∧
      ∀ key attempt, .compute key attempt ∈ again.news [2] (again.evaluate parity 20 [2]).1.log →
        (again.earlier key).memo = .blank ∨ ∃ old, (again.earlier key).memo = .changed old := by
  let changed := (((build {} [(0, 1)] : Evaluator Nat Nat Empty).evaluate parity 20 [2]).1.inject
    0 3).1
  let after := (changed.evaluate parity 20 [2]).1
  let again := (after.invalidate [1]).1
  have built : Reachable (build {} [(0, 1)] : Evaluator Nat Nat Empty) := .build ..
  have reachable : Reachable changed :=
    (built.turn (.evaluate parity (evaluate_evaluates parity 20 _ [2]))).turn (.inject _ 0 3)
  obtain ⟨results, evaluates⟩ := exists_evaluates parity 20 changed [2] (by decide +kernel)
  obtain ⟨taken, equal, _⟩ := change_pruning_is_exact reachable evaluates
  have dirty : (changed.earlier 1).memo = .dirty (.ok 1) :=
    Memo.eq_dirty (by decide +kernel) (by decide +kernel)
  have alsoDirty : (changed.earlier 2).memo = .dirty (.ok 1) :=
    Memo.eq_dirty (by decide +kernel) (by decide +kernel)
  have told : story 1 (changed.news [2] after.log) =
      [.start 1, .compute 1 0, .finish 1 .unchanged] := by decide +kernel
  have alsoTold : story 2 (changed.news [2] after.log) = [.start 2, .finish 2 .revalidated] := by
    decide +kernel
  have overtakes : after.graph.Overtakes (changed.earlier 1).dependencies
      (changed.earlier 1).lastEvaluated := by decide +kernel
  have confirms : ¬ after.graph.Overtakes (changed.earlier 2).dependencies
      (changed.earlier 2).lastEvaluated := by decide +kernel
  have recomputed : Recomputed parity changed [2] after 1 (.ok 1) := by
    obtain ⟨result, recomputed⟩ := ((taken 1 (by decide +kernel) fun component cycle member => by
      rw [← cycle_mem_story member, told] at cycle
      simp at cycle).2.2 _ dirty).1.mpr overtakes
    obtain ⟨runs, isStory, _⟩ := recomputed.told
    have last := congrArg List.getLast? (told.symm.trans isStory)
    rw [List.getLast?_concat] at last
    have kept := Ending.ofResult_eq_unchanged (Signal.finish.inj (Option.some.inj last)).2.symm
    cases result with
    | error failure => cases kept
    | ok value =>
        unfold Node.keeps at kept
        rw [dirty] at kept
        obtain rfl : 1 = value := beq_iff_eq.mp kept
        exact recomputed
  have revalidated : Revalidated changed [2] after 2 (.ok 1) :=
    ((taken 2 (by decide +kernel) fun component cycle member => by
      rw [← cycle_mem_story member, alsoTold] at cycle
      simp at cycle).2.2 _ alsoDirty).2 confirms
  obtain ⟨same, unchanged, _⟩ := equal 1 1 1 recomputed (by rw [dirty]; rfl) rfl
  obtain ⟨more, evaluatesAgain⟩ := exists_evaluates parity 20 again [2] (by decide +kernel)
  have toldAgain : again.news [2] (again.evaluate parity 20 [2]).1.log = [.start 2, .start 1,
      .compute 1 0, .cutoff 1 false, .finish 1 .unchanged, .dirtyCheck 2 false,
      .finish 2 .revalidated] := by decide +kernel
  have keys : again.retryTransient.graph.keys = [0, 1, 2] := by decide +kernel
  have others : ∀ key ∈ [0, 1], (again.earlier key).memo.state ≠ .dirty := by decide +kernel
  have recorded : (again.earlier 2).dependencies = Grouping.empty.push [1] := by decide +kernel
  have old : (again.earlier 1).lastChanged ≤ (again.earlier 2).lastEvaluated := by decide +kernel
  have reachableAgain : Reachable again :=
    (reachable.turn (.evaluate parity evaluates)).turn (.invalidate _ [1])
  have quiet := (change_pruning_is_exact reachableAgain evaluatesAgain).2.2
  refine ⟨changed, after, again, rfl, dirty, alsoDirty, recomputed, same, unchanged, revalidated,
    rfl, quiet ?_ ?_⟩
  · clear_value again
    intro key result dirty dependency member
    have state : (again.earlier key).memo.state = .dirty := by
      rw [dirty]
      rfl
    by_cases third : key = 2
    · rw [third, recorded, Grouping.mem_push] at member
      obtain rfl := List.mem_singleton.mp (member.resolve_left List.not_mem_nil)
      rw [third]
      exact old
    · by_cases listed : key ∈ [0, 1]
      · exact absurd state (others key listed)
      · have unknown : key ∉ again.retryTransient.graph.keys := by
          rw [keys]
          simp_all
        rw [earlier, Graph.nodeAt_of_not_mem unknown] at dirty
        cases dirty
  · intro key ending told
    rw [toldAgain] at told
    simp at told
    rcases told with ⟨_, rfl⟩ | ⟨_, rfl⟩ <;> simp

end Evaluator

end MemoGraph
