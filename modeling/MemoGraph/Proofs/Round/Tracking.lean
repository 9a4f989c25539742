import MemoGraph.Proofs.Round.Confluence
import MemoGraph.Proofs.Round.Honesty

namespace MemoGraph.Round

/-! Rounds that begin with different results, and come to the same.

Both have been given the same results, and derive all others from these with the
same functions. One of them may have results from earlier on that the other
still has to work out, and it may check results that the other computes.
-/

variable {κ ν φ : Type} [Key κ] {round left right base before after : Round κ ν φ}
  {inputs given : κ → Prop} {roots ready : List κ} {key : κ} {registry : Registry κ ν φ}

section Waits

variable [BEq ν] (strict : registry.Strict)
include strict

/-- What a key has to wait for is what its function misses. -/
theorem Honest.missing_of_waits (honest : Honest registry inputs given round)
    (unsettled : round.isSettled key = false) {version : Version} {recorded : Grouping κ}
    {keys : List κ}
    (waits : round.graph.outlook registry version key (round.graph.nodeAt key).bare =
      .waits recorded keys) :
    ∃ function, registry.function? key = some function ∧
      (Attempt.run round.graph.result? key (function 0) {}).1.missing = keys := by
  unfold Graph.outlook at waits
  split at waits
  · rename_i result memo
    have memo : (round.graph.nodeAt key).memo = .dirty result := memo
    rcases honest.grounded.dirty key result memo (honest.lasting key result memo) with
      ⟨never, _⟩ | ⟨results, remembered, isInput | derives⟩
    · exact never.elim
    · exact absurd (honest.includes key isInput) (honest.not_given unsettled)
    · have derives : registry.Derives key result (round.graph.nodeAt key).bare.dependencies
          results := derives
      refine Graph.missing_of_checking strict derives remembered List.drop_zero ?_ waits
      exact fun earlier never => absurd never (Nat.not_lt_zero earlier)
  · exact Graph.missing_of_computing (Outlook.waits_of_map waits)

variable (honest : Honest registry inputs given round) (resting : Sound registry round [])
include honest resting

/-- When nothing is ready, a key that is worked on waits for what its function misses. -/
theorem Honest.missing_at_rest (evaluating : round.isEvaluating key = true) :
    ∃ function, registry.function? key = some function ∧
      (Attempt.run round.graph.result? key (function 0) {}).1.missing = round.awaited key :=
  honest.missing_of_waits strict (not_isSettled_of_evaluating evaluating)
    (resting.toInOrder.waits strict resting.establishes evaluating)

/-- Whatever the function of a key asks for then is worked on or has a result. -/
theorem Honest.busy_of_requested (own : ¬ given key) (busy : round.isIdle key = false)
    {function : Nat → Computation κ ν φ} (registered : registry.function? key = some function)
    {dependency : κ} (asked : dependency ∈
      (Attempt.run round.graph.result? key (function 0) {}).1.requested) :
    round.isIdle dependency = false := by
  cases found : round.graph.result? dependency with
  | some result =>
      rw [Graph.result?_eq] at found
      exact Node.not_idle_of_settled (Node.isSettled_of_result? found)
  | none =>
      have missing := ((Attempt.faithful_run round.graph.result? key (function 0)).mem_missing
        dependency).mpr ⟨asked, found⟩
      cases settled : round.isSettled key with
      | true =>
          obtain ⟨result, isResult⟩ := Node.exists_result? settled
          rw [((honest.derives key result isResult own).run function registered).1] at missing
          cases missing
      | false =>
          have evaluating : round.isEvaluating key = true := by
            rw [isEvaluating_eq_busy, busy, settled]
            rfl
          obtain ⟨other, isOther, awaited⟩ := honest.missing_at_rest strict resting evaluating
          rw [registered, Option.some.injEq] at isOther
          subst isOther
          rw [awaited] at missing
          exact not_isIdle_of_evaluating (mem_awaited.mp missing).2

end Waits

/-- The rounds have been given the same results, and each derives all others. -/
structure Alongside (registry : Registry κ ν φ) (inputs given : κ → Prop)
    (left right : Round κ ν φ) : Prop where
  honest : Honest registry inputs given left
  honestOther : Honest registry inputs given right
  same : ∀ key, given key → left.graph.result? key = right.graph.result? key

section Alongside

variable (alongside : Alongside registry inputs given left right)
include alongside

theorem Alongside.symm : Alongside registry inputs given right left :=
  ⟨alongside.honestOther, alongside.honest, fun key isGiven => (alongside.same key isGiven).symm⟩

theorem Alongside.agree (settled : left.isSettled key = true)
    (settledOther : right.isSettled key = true) :
    left.graph.result? key = right.graph.result? key := by
  induction key using alongside.honest.founded.induction with
  | _ key ih =>
      by_cases own : given key
      · exact alongside.same key own
      obtain ⟨result, found⟩ := Node.exists_result? settled
      obtain ⟨other, foundOther⟩ := Node.exists_result? settledOther
      have derives := alongside.honest.derives key result found own
      have derivesOther := alongside.honestOther.derives key other foundOther own
      have agree : ∀ dependency ∈ (left.graph.nodeAt key).dependencies,
          dependency ∈ (right.graph.nodeAt key).dependencies →
            left.graph.result? dependency = right.graph.result? dependency := by
        intro dependency needed neededOther
        have needs : left.Needs given dependency key := ⟨settled, own, needed⟩
        have needsOther : right.Needs given dependency key := ⟨settledOther, own, neededOther⟩
        exact ih dependency needs (alongside.honest.settled needs) (alongside.honestOther.settled needsOther)
      have dependencies : (left.graph.nodeAt key).dependencies =
          (right.graph.nodeAt key).dependencies := by
        cases registered : registry.function? key with
        | none =>
            rw [derives.unregistered registered, derivesOther.unregistered registered]
        | some function =>
            obtain ⟨_, requested⟩ := derives.run function registered
            obtain ⟨_, requestedOther⟩ := derivesOther.run function registered
            have equal : Attempt.run left.graph.result? key (function 0) {} =
                Attempt.run right.graph.result? key (function 0) {} :=
              Attempt.run_eq_of_agree fun dependency asked askedOther =>
                agree dependency (requested ▸ asked) (requestedOther ▸ askedOther)
            rw [← requested, ← requestedOther, equal]
      have settles := derives.computing left.graph fun _ _ => rfl
      rw [derivesOther.computing left.graph fun dependency needed =>
        agree dependency (dependencies ▸ needed) needed] at settles
      have equal := (Prod.mk.inj (Outlook.settles.inj settles)).1
      rw [Graph.result?_eq, Graph.result?_eq, found, foundOther, equal]

variable [BEq ν] (strict : registry.Strict) (resting : Sound registry right [])
include strict resting

/-- What has a result in one round and is worked on in the other gets a result
there before nothing is ready. -/
theorem Alongside.settled_of_busy (settled : left.isSettled key = true)
    (busy : right.isIdle key = false) : right.isSettled key = true := by
  induction key using alongside.honest.founded.induction with
  | _ key ih =>
      by_cases own : given key
      · exact alongside.honestOther.settled_of_given own
      by_contra unsettled
      have evaluating : right.isEvaluating key = true := by
        rw [isEvaluating_eq_busy, busy, eq_false_of_ne_true unsettled]
        rfl
      obtain ⟨function, registered, missing⟩ :=
        alongside.honestOther.missing_at_rest strict resting evaluating
      obtain ⟨result, found⟩ := Node.exists_result? settled
      obtain ⟨nothing, requested⟩ :=
        (alongside.honest.derives key result found own).run function registered
      have equal : Attempt.run left.graph.result? key (function 0) {} =
          Attempt.run right.graph.result? key (function 0) {} := by
        refine Attempt.run_eq_of_agree fun dependency asked askedOther => ?_
        have needs : left.Needs given dependency key := ⟨settled, own, requested ▸ asked⟩
        have present := alongside.honest.settled needs
        exact alongside.agree present (ih dependency needs present
          (alongside.honestOther.busy_of_requested strict resting own busy registered askedOther))
      obtain ⟨dependency, edge⟩ := exists_awaited resting.waiting evaluating
      rw [← missing, ← equal, nothing] at edge
      cases edge

/-- Whatever a key has to wait for in one round is worked on in the other by the
time when nothing is ready there. -/
theorem Alongside.busy_of_waits (unsettled : left.isSettled key = false)
    (busy : right.isIdle key = false) {version : Version} {recorded : Grouping κ} {keys : List κ}
    (waits : left.graph.outlook registry version key (left.graph.nodeAt key).bare =
      .waits recorded keys) {dependency : κ} (listed : dependency ∈ keys) :
    right.isIdle dependency = false := by
  obtain ⟨function, registered, missing⟩ :=
    alongside.honest.missing_of_waits strict unsettled waits
  have own := alongside.honest.not_given unsettled
  have asked : dependency ∈
      (Attempt.run left.graph.result? key (function 0) {}).1.requested :=
    (((Attempt.faithful_run left.graph.result? key (function 0)).mem_missing dependency).mp
      (missing ▸ listed)).1
  have requested := @Honest.busy_of_requested _ _ _ _ right inputs given key registry _ strict
    alongside.honestOther resting own busy function registered
  let joint : κ → Option (Result κ ν φ) := fun other =>
    (left.graph.result? other).or (right.graph.result? other)
  have further : dependency ∈ (Attempt.run joint key (function 0) {}).1.requested := by
    refine (Attempt.resumes_run (strict.computation registered) ?_ key).requested dependency asked
    intro other result found
    show (left.graph.result? other).or _ = some result
    rw [found]
    rfl
  have equal : Attempt.run joint key (function 0) {} =
      Attempt.run right.graph.result? key (function 0) {} := by
    refine Attempt.run_eq_of_agree fun other _ askedOther => ?_
    show (left.graph.result? other).or _ = right.graph.result? other
    cases found : left.graph.result? other with
    | none => rfl
    | some result =>
        rw [Graph.result?_eq] at found
        have settled := Node.isSettled_of_result? found
        have settledOther :=
          alongside.settled_of_busy strict resting settled (requested askedOther)
        rw [← alongside.agree settled settledOther, Graph.result?_eq, found]
        rfl
  exact requested (equal ▸ further)

end Alongside

/-- Whatever one round works on is worked on or has a result in the other. -/
structure Tracks (registry : Registry κ ν φ) (inputs given : κ → Prop)
    (left right : Round κ ν φ) : Prop extends Alongside registry inputs given left right where
  within : ∀ key, left.isEvaluating key = true → right.isIdle key = false

section Tracks

variable [BEq ν] [LawfulBEq ν] (strict : registry.Strict)
include strict

/-- No step goes beyond what the other round has come to when nothing is ready there. -/
theorem Tracks.step {work : Work κ φ} {effect : Effect κ ν φ}
    (tracks : Tracks registry inputs given before right) (resting : Sound registry right [])
    (sound : Sound registry before ready) (member : key ∈ ready)
    (found : (before.graph.nodeAt key).work = some work)
    (progress : Progress registry before key work effect)
    (moved : Moved before after key effect) : Tracks registry inputs given after right := by
  have taken : (before.graph.nodeAt key).work.isSome = true := by simp [found]
  have busy : right.isIdle key = false :=
    tracks.within key ((isEvaluating_eq key).trans taken)
  refine ⟨⟨tracks.honest.step strict sound member found progress moved, tracks.honestOther,
    fun other isGiven => ?_⟩, fun other evaluating => ?_⟩
  · obtain ⟨result, isResult, _⟩ := tracks.honest.passing other isGiven
    rw [← tracks.same other isGiven, Graph.result?_eq, Graph.result?_eq, isResult,
      (moved.extends found).result? isResult]
  · by_cases isKey : other = key
    · exact isKey ▸ busy
    · rcases moved.other isKey with alike | ⟨asked, idle, _⟩
      · refine tracks.within other ?_
        rw [isEvaluating_eq] at evaluating ⊢
        rw [← alike.work_isSome]
        exact evaluating
      · have lacks : before.graph.lacks other = true := by
          rw [Graph.lacks_eq, Node.isSettled, (Node.isIdle_iff.mp idle).2]
          rfl
        obtain ⟨recorded, keys, waits, listed⟩ := progress.asks strict found (sound.underway key)
          (sound.establishes key work found) asked lacks
        exact tracks.busy_of_waits strict resting (Node.not_settled_of_work taken) busy waits listed

theorem Tracks.works {now : Round κ ν φ × List κ}
    (tracks : Tracks registry inputs given base right) (resting : Sound registry right [])
    (sound : Sound registry base ready) (works : Works registry roots (base, ready) now) :
    Tracks registry inputs given now.1 right :=
  (sound.throughout (Tracks registry inputs given · right) works
    (fun order member found progress moved tracks =>
      tracks.step strict resting order member found progress moved) tracks).2

theorem Tracks.ahead {now : Round κ ν φ × List κ}
    (tracks : Tracks registry inputs given left base) (sound : Sound registry base ready)
    (works : Works registry roots (base, ready) now) : Tracks registry inputs given left now.1 := by
  have since := (sound.since strict works).2
  refine ⟨⟨tracks.honest, (sound.throughout (Honest registry inputs given) works
    (fun order member found progress moved honest =>
      honest.step strict order member found progress moved) tracks.honestOther).2,
    fun key isGiven => ?_⟩, fun key evaluating => since.busy key (tracks.within key evaluating)⟩
  obtain ⟨result, isResult, _⟩ := tracks.honestOther.passing key isGiven
  rw [tracks.same key isGiven, Graph.result?_eq, Graph.result?_eq, isResult,
    since.kept.result? isResult]

end Tracks

/-- Neither round works on anything that the other one leaves alone. -/
structure Matched (registry : Registry κ ν φ) (inputs given : κ → Prop)
    (left right : Round κ ν φ) : Prop where
  forth : Tracks registry inputs given left right
  back : Tracks registry inputs given right left

theorem Matched.symm (matched : Matched registry inputs given left right) :
    Matched registry inputs given right left := ⟨matched.back, matched.forth⟩

section Matched

variable [BEq ν] (strict : registry.Strict)
include strict

/-- Rounds that are matched when a phase begins are matched when it ends. -/
theorem Matched.works [LawfulBEq ν] {otherBase : Round κ ν φ} {otherReady : List κ}
    (matched : Matched registry inputs given base otherBase) (sound : Sound registry base ready)
    (soundOther : Sound registry otherBase otherReady)
    (works : Works registry roots (base, ready) (left, []))
    (worksOther : Works registry roots (otherBase, otherReady) (right, [])) :
    Matched registry inputs given left right := by
  have resting := (sound.since strict works).1
  have restingOther := (soundOther.since strict worksOther).1
  constructor
  · exact (matched.forth.ahead strict soundOther worksOther).works strict restingOther sound works
  · exact (matched.back.ahead strict sound works).works strict resting soundOther worksOther

variable (matched : Matched registry inputs given left right)
  (resting : Sound registry left []) (restingOther : Sound registry right [])
include matched resting

theorem Matched.evaluating_of_evaluating (evaluating : left.isEvaluating key = true) :
    right.isEvaluating key = true := by
  have busy := matched.forth.within key evaluating
  cases settled : right.isSettled key with
  | false =>
      rw [isEvaluating_eq_busy, busy, settled]
      rfl
  | true =>
      have settledToo := matched.back.settled_of_busy strict resting settled
        (not_isIdle_of_evaluating evaluating)
      rw [not_isSettled_of_evaluating evaluating] at settledToo
      cases settledToo

include restingOther

/-- When nothing is ready, matched rounds work on the same. -/
theorem Matched.evaluating (key : κ) : left.isEvaluating key = right.isEvaluating key :=
  Bool.eq_iff_iff.mpr ⟨matched.evaluating_of_evaluating strict resting,
    matched.symm.evaluating_of_evaluating strict restingOther⟩

/-- What is worked on or has a result in both rounds has the same result in both, or none. -/
theorem Matched.same_result (busy : left.isIdle key = false) (busyOther : right.isIdle key = false) :
    left.graph.result? key = right.graph.result? key := by
  have settled : left.isSettled key = right.isSettled key := Bool.eq_iff_iff.mpr
    ⟨fun settled => matched.forth.settled_of_busy strict restingOther settled busyOther,
      fun settled => matched.back.settled_of_busy strict resting settled busy⟩
  cases present : left.isSettled key with
  | true => exact matched.forth.agree present (settled.symm.trans present)
  | false =>
      rw [Graph.result?_of_unsettled present,
        Graph.result?_of_unsettled (settled.symm.trans present)]

/-- When nothing is ready, matched rounds wait for the same. -/
theorem Matched.awaited (key : κ) : left.awaited key = right.awaited key := by
  have same := matched.evaluating strict resting restingOther key
  cases evaluating : left.isEvaluating key with
  | false =>
      rw [awaited_of_not_evaluating evaluating,
        awaited_of_not_evaluating (same.symm.trans evaluating)]
  | true =>
      have evaluatingOther := same.symm.trans evaluating
      have own := matched.forth.honest.not_given (not_isSettled_of_evaluating evaluating)
      obtain ⟨function, registered, missing⟩ :=
        matched.forth.honest.missing_at_rest strict resting evaluating
      obtain ⟨other, isOther, missingOther⟩ :=
        matched.back.honest.missing_at_rest strict restingOther evaluatingOther
      rw [registered, Option.some.injEq] at isOther
      subst isOther
      have equal : Attempt.run left.graph.result? key (function 0) {} =
          Attempt.run right.graph.result? key (function 0) {} :=
        Attempt.run_eq_of_agree fun dependency asked askedOther =>
          matched.same_result strict resting restingOther
            (matched.forth.honest.busy_of_requested strict resting own
              (not_isIdle_of_evaluating evaluating) registered asked)
            (matched.back.honest.busy_of_requested strict restingOther own
              (not_isIdle_of_evaluating evaluatingOther) registered askedOther)
      rw [← missing, ← missingOther, equal]

end Matched

end MemoGraph.Round
