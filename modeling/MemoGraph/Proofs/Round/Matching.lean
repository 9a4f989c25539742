import MemoGraph.Proofs.Round.Tracking

namespace MemoGraph.Round

variable {κ ν φ : Type} [Key κ] [BEq ν] {round left right final finalOther : Round κ ν φ}
  {inputs given : κ → Prop} {roots : List κ} {key : κ} {registry : Registry κ ν φ}

section Break

variable (strict : registry.Strict) (matched : Matched registry inputs given left right)
  (resting : Sound registry left []) (restingOther : Sound registry right [])
include strict matched resting restingOther

variable (roots) in
theorem Matched.mem_cycleFailuresAt (failure : Failure κ φ) :
    failure ∈ left.cycleFailuresAt roots ↔ failure ∈ right.cycleFailuresAt roots := by
  have evaluating := matched.evaluating strict resting restingOther
  have awaited := matched.awaited strict resting restingOther
  constructor
  · exact mem_cycleFailuresAt_of_awaited roots resting.waiting restingOther.waiting evaluating awaited
  · exact mem_cycleFailuresAt_of_awaited roots restingOther.waiting resting.waiting
      (fun key => (evaluating key).symm) fun key => (awaited key).symm

variable (roots) in
theorem Matched.mem_broken (key : κ) : key ∈ left.broken roots ↔ key ∈ right.broken roots :=
  mem_broken_congr roots (matched.mem_cycleFailuresAt roots strict resting restingOther) key

variable (roots) in
theorem Matched.evaluating_breakDeadlock (key : κ) :
    (left.breakDeadlock roots).1.isEvaluating key =
      (right.breakDeadlock roots).1.isEvaluating key := by
  rw [isEvaluating_breakDeadlock resting.waiting, isEvaluating_breakDeadlock restingOther.waiting,
    matched.evaluating strict resting restingOther]
  simp only [matched.mem_broken roots strict resting restingOther]

variable (roots) in
/-- After a break of deadlocks, one round still tracks the other. -/
theorem Matched.tracks_breakDeadlock :
    Tracks registry inputs (fun key => given key ∨ key ∈ left.broken roots)
      (left.breakDeadlock roots).1 (right.breakDeadlock roots).1 := by
  have failed := failed_breakDeadlock resting.waiting roots
  have failedOther := failed_breakDeadlock restingOther.waiting roots
  have extended := failed.extends fun _ => evaluating_of_cycleFailuresAt resting.waiting
  have extendedOther := failedOther.extends fun _ => evaluating_of_cycleFailuresAt restingOther.waiting
  constructor
  case toAlongside =>
    have honestOther := matched.forth.honestOther.breakDeadlock restingOther.waiting roots
    simp only [← matched.mem_broken roots strict resting restingOther] at honestOther
    refine ⟨matched.forth.honest.breakDeadlock resting.waiting roots, honestOther, ?_⟩
    rintro key (isGiven | isBroken)
    · obtain ⟨result, found, _⟩ := matched.forth.honest.passing key isGiven
      obtain ⟨other, foundOther, _⟩ := matched.forth.honestOther.passing key isGiven
      have same := matched.forth.same key isGiven
      rw [Graph.result?_eq, Graph.result?_eq, found, foundOther] at same
      rw [Graph.result?_eq, Graph.result?_eq, extended.result? found,
        extendedOther.result? foundOther, same]
    · obtain ⟨path, isFailure⟩ := exists_cycleFailureAt isBroken
      have isOther := (matched.mem_cycleFailuresAt roots strict resting restingOther _).mp isFailure
      rw [Graph.result?_eq, Graph.result?_eq]
      exact (failed.self _ isFailure).result?.trans (failedOther.self _ isOther).result?.symm
  case within =>
    intro key evaluating
    rw [matched.evaluating_breakDeadlock roots strict resting restingOther] at evaluating
    exact not_isIdle_of_evaluating evaluating

variable (roots) in
theorem Matched.breakDeadlock :
    Matched registry inputs (fun key => given key ∨ key ∈ left.broken roots)
      (left.breakDeadlock roots).1 (right.breakDeadlock roots).1 := by
  have back := matched.symm.tracks_breakDeadlock roots strict restingOther resting
  simp only [← matched.mem_broken roots strict resting restingOther] at back
  exact ⟨matched.tracks_breakDeadlock roots strict resting restingOther, back⟩

end Break

section Ends

variable [LawfulBEq ν] {other : Round κ ν φ}

omit [BEq ν] [LawfulBEq ν] in
/-- When a round begins, it tracks every other one with the same roots. -/
theorem Alongside.begin (alongside : Alongside registry inputs given round other)
    (unique : roots.Nodup) (rested : Rested round.graph) :
    Tracks registry inputs given (round.begin roots).1 (other.begin roots).1 := by
  have begun := round.begin_spec unique
  have begunOther := other.begin_spec unique
  have kept : ∀ {before after : Round κ ν φ} {ready : List κ}, Begun before roots after ready →
      ∀ {key result}, before.graph.result? key = some result →
        after.graph.result? key = some result := by
    intro before after ready begun key result found
    rw [Graph.result?_eq] at found ⊢
    rw [begun.nodes, Node.taken_of_not_idle
      (Node.not_idle_of_settled (Node.isSettled_of_result? found)), ite_self]
    exact found
  refine ⟨⟨alongside.honest.begin begun, alongside.honestOther.begin begunOther,
    fun key isGiven => ?_⟩, fun key evaluating => ?_⟩
  · obtain ⟨result, found, _⟩ := alongside.honest.passing key isGiven
    rw [← Graph.result?_eq] at found
    rw [kept begun found, kept begunOther (alongside.same key isGiven ▸ found)]
  · have isReady := (begun.mem_ready rested key).mpr evaluating
    rw [begun.ready, List.mem_filter] at isReady
    unfold isIdle
    rw [begunOther.nodes, if_pos isReady.1]
    exact Node.not_idle_taken

/-- Rounds with the same roots and the same given results stay matched from phase
to phase, and whatever else every phase keeps of them holds in the end. -/
theorem Ends.related (strict : registry.Strict) (unique : roots.Nodup)
    (rested : Rested round.graph) (restedOther : Rested other.graph)
    (alongside : Alongside registry inputs given round other)
    (ends : Ends registry roots round final .complete)
    (endsOther : Ends registry roots other finalOther .complete)
    (related : Round κ ν φ → Round κ ν φ → Prop)
    (phase : ∀ {later : κ → Prop} {base otherBase left right : Round κ ν φ}
      {ready readyOther : List κ}, Matched registry inputs later base otherBase →
        related base otherBase → Sound registry base ready → Sound registry otherBase readyOther →
          Works registry roots (base, ready) (left, []) →
            Works registry roots (otherBase, readyOther) (right, []) →
              related (left.breakDeadlock roots).1 (right.breakDeadlock roots).1)
    (start : related (round.begin roots).1 (other.begin roots).1) :
    ∃ later, Matched registry inputs later final finalOther ∧ related final finalOther := by
  obtain ⟨ready, last, order, phased, finished, rfl⟩ := ends.phased unique rested
  obtain ⟨_, _, orderOther, phasedOther, finishedOther, rfl⟩ := endsOther.phased unique restedOther
  refine phased.related strict phasedOther
    (fun left right => ∃ later, Matched registry inputs later left right ∧ related left right) ?_
    ⟨given, ⟨alongside.begin unique rested, alongside.symm.begin unique restedOther⟩, start⟩
    (.begin unique rested order) (.begin unique restedOther orderOther) finished finishedOther
  rintro base otherBase left right ready readyOther ⟨later, matched, held⟩ sound soundOther works
    worksOther
  have resting := (sound.since strict works).1
  have restingOther := (soundOther.since strict worksOther).1
  have atRest := matched.works strict sound soundOther works worksOther
  exact ⟨⟨_, atRest.breakDeadlock roots strict resting restingOther,
    phase matched held sound soundOther works worksOther⟩,
    atRest.evaluating_breakDeadlock roots strict resting restingOther⟩

/-- So they end with the same results, wherever both have some. -/
theorem Ends.matched (strict : registry.Strict) (unique : roots.Nodup)
    (rested : Rested round.graph) (restedOther : Rested other.graph)
    (alongside : Alongside registry inputs given round other)
    (ends : Ends registry roots round final .complete)
    (endsOther : Ends registry roots other finalOther .complete) :
    ∃ later, Matched registry inputs later final finalOther := by
  obtain ⟨later, matched, _⟩ := ends.related strict unique rested restedOther alongside endsOther
    (fun _ _ => True) (fun _ _ _ _ _ _ => trivial) trivial
  exact ⟨later, matched⟩

/-- In particular they end with the same results for their roots. -/
theorem Ends.same_results (strict : registry.Strict) (unique : roots.Nodup)
    (rested : Rested round.graph) (restedOther : Rested other.graph)
    (alongside : Alongside registry inputs given round other)
    (ends : Ends registry roots round final .complete)
    (endsOther : Ends registry roots other finalOther .complete) {root : κ}
    (isRoot : root ∈ roots) : final.graph.result? root = finalOther.graph.result? root := by
  obtain ⟨later, matched⟩ := ends.matched strict unique rested restedOther alongside endsOther
  exact matched.forth.agree ((ends.settled unique rested).2 root isRoot)
    ((endsOther.settled unique restedOther).2 root isRoot)

end Ends

end MemoGraph.Round
