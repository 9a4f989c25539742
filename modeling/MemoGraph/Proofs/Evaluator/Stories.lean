import MemoGraph.Proofs.Evaluator.Histories
import MemoGraph.Proofs.Round.Courses
import MemoGraph.Proofs.Round.Fates

namespace MemoGraph.Evaluator

variable {κ ν φ : Type} [Key κ] {evaluator after : Evaluator κ ν φ} {registry : Registry κ ν φ}
  {roots : List κ} {now : Round κ ν φ}

/-- What the observer was told since the round of an evaluation opened. -/
def news (evaluator : Evaluator κ ν φ) (roots : List κ) (log : Array (Signal κ φ)) :
    List (Signal κ φ) :=
  log.toList.drop (evaluator.opening roots).log.size

theorem news_eq {log : Array (Signal κ φ)} {signals : List (Signal κ φ)}
    (told : log.toList = (evaluator.opening roots).log.toList ++ signals) :
    evaluator.news roots log = signals := by
  rw [news, told, ← Array.length_toList, List.drop_left]

theorem log_eq {stories : κ → List (Signal κ φ)}
    (tells : Round.Tells (evaluator.opening roots) now stories) :
    now.log.toList = (evaluator.opening roots).log.toList ++ evaluator.news roots now.log ∧
      ∀ key, story key (evaluator.news roots now.log) = stories key := by
  obtain ⟨signals, told, same⟩ := tells
  rw [news_eq told]
  exact ⟨told, same⟩

section Announces

/-- The observer was told of invalidations and of nothing else. -/
def Announces (before after : Array (Signal κ φ)) : Prop :=
  ∃ records : List (Invalidation κ), after.toList =
    before.toList ++ records.map fun record => .invalidated record.key record.reason

omit [Key κ] in
theorem Announces.refl (log : Array (Signal κ φ)) : Announces log log :=
  ⟨[], (List.append_nil _).symm⟩

omit [Key κ] in
theorem announces_invalidated (log : Array (Signal κ φ)) (records : List (Invalidation κ)) :
    Announces log
      (log.appendList (records.map fun record => .invalidated record.key record.reason)) :=
  ⟨records, Array.toList_appendList ..⟩

theorem announces_inject [BEq ν] (key : κ) (value : ν) :
    Announces evaluator.log (evaluator.inject key value).1.log := by
  unfold inject
  simp only
  split
  · exact .refl _
  · exact announces_invalidated evaluator.log _

theorem announces_retryTransient : Announces evaluator.log evaluator.retryTransient.log :=
  retryTransient_kept (fun after => Announces evaluator.log after.log) (.refl _)
    fun _ => announces_invalidated evaluator.log _

end Announces

variable [BEq ν]

/-- What has become of a key since the evaluation opened. -/
abbrev Fate (registry : Registry κ ν φ) (evaluator : Evaluator κ ν φ) (roots : List κ)
    (now : Round κ ν φ) (key : κ) : Prop :=
  Round.Fate registry (distinct roots) (evaluator.opening roots) now key
    (story key (evaluator.news roots now.log))

theorem fate_of_recounted
    (recounted : Round.Recounted registry (distinct roots) (evaluator.opening roots) now)
    (key : κ) : Fate registry evaluator roots now key := by
  obtain ⟨stories, tells, fates⟩ := recounted.told
  unfold Fate
  rw [(log_eq tells).2]
  exact fates key

/-- A key was taken up if it had no result then and has one now or is worked on. -/
theorem start_mem_news_iff {key : κ} (fate : Fate registry evaluator roots now key) :
    .start key ∈ evaluator.news roots now.log ↔
      (evaluator.opening roots).isIdle key = true ∧ now.isIdle key = false := by
  rw [← start_mem_story]
  unfold Fate at fate
  generalize story key (evaluator.news roots now.log) = told at fate
  constructor
  · intro started
    have busy : now.isIdle key = false := by
      by_contra idle
      obtain ⟨rfl, _⟩ := fate.of_idle (eq_true_of_ne_false idle)
      cases started
    refine ⟨?_, busy⟩
    cases fate with
    | aside => cases started
    | cached => simp at started
    | underway idle | revalidated idle | computed idle | broken idle => exact idle
  · rintro ⟨idle, busy⟩
    cases fate with
    | aside same =>
        rw [Round.isIdle, same.isIdle, ← Round.isIdle, idle] at busy
        cases busy
    | cached same settled =>
        rw [Round.isIdle, Node.not_idle_of_settled settled] at idle
        cases idle
    | underway | revalidated | computed | broken => simp [Round.attemptStory]

variable (tidy : Tidy evaluator)
include tidy

theorem ComesTo.sound {left : List κ} (comes : ComesTo registry evaluator roots (now, left)) :
    Round.Sound registry now left :=
  (Round.ComesTo.recounted comes (nodup_distinct roots) (tidy.rested_opening roots)).1

/-- Cutting an evaluation short takes no result from any key. -/
theorem ComesTo.result?_rollBack {left : List κ}
    (comes : ComesTo registry evaluator roots (now, left)) (key : κ) :
    now.rollBack.graph.result? key = now.graph.result? key := by
  have sound := ComesTo.sound tidy comes
  rw [Graph.result?_eq, Graph.result?_eq, Round.nodeAt_rollBack_of_waiting sound.waiting,
    Round.result?_rollBack sound.toInOrder]

theorem ComesTo.fate {left : List κ} (comes : ComesTo registry evaluator roots (now, left))
    (key : κ) : Fate registry evaluator roots now key :=
  fate_of_recounted
    (Round.ComesTo.recounted comes (nodup_distinct roots) (tidy.rested_opening roots)).2 key

theorem Evaluates.fate {results : Results κ ν φ}
    (evaluates : Evaluates registry evaluator roots after (.ok results)) :
    ∃ final, Round.Ends registry (distinct roots) (evaluator.opening roots) final .complete ∧
      after = evaluator.retryTransient.closeRound final .complete ∧
      results = ⟨(distinct roots).map fun root => (root, resultOf final.graph root)⟩ ∧
      ∀ key, Fate registry evaluator roots final key := by
  obtain ⟨final, ends, isAfter, answers⟩ := evaluates.complete
  exact ⟨final, ends, isAfter, answers, fate_of_recounted
    (ends.recounted (nodup_distinct roots) (tidy.rested_opening roots))⟩

omit tidy in
theorem Evaluates.closes {answer : Except Stop (Results κ ν φ)}
    (evaluates : Evaluates registry evaluator roots after answer) :
    ∃ moves final halt,
      Round.Closes registry (distinct roots) (evaluator.opening roots) moves final halt ∧
        after = evaluator.retryTransient.closeRound final halt := by
  obtain ⟨ends⟩ := evaluates
  obtain ⟨moves, closes⟩ := ends.closes
  exact ⟨moves, _, _, closes, rfl⟩

omit tidy in
/-- An evaluation that is cut short leaves what it had come to, rolled back. -/
theorem Evaluates.cut {stop : Stop}
    (evaluates : Evaluates registry evaluator roots after (.error stop)) :
    ∃ last left halt, ComesTo registry evaluator roots (last, left) ∧
      after = evaluator.retryTransient.closeRound last.rollBack halt ∧
      (stop = .interrupted → halt = .interrupted) := by
  generalize answered : Except.error stop = given at evaluates
  obtain ⟨ends⟩ := evaluates
  rename_i final halt
  have short : halt ≠ .complete := by
    rintro rfl
    cases answered
  obtain ⟨last, left, comes, rfl⟩ := ends.rolledBack short
  refine ⟨last, left, halt, comes, rfl, ?_⟩
  rintro rfl
  cases halt with
  | interrupted => rfl
  | complete | exhausted => cases answered

end MemoGraph.Evaluator
