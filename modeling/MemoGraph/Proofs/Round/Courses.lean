import MemoGraph.Proofs.Round.Commits

namespace MemoGraph

/-- A move of a round: a ready key is stepped, or deadlocks are broken. It is
noted with the round as it was before. -/
inductive Move (κ ν φ : Type) [Key κ] where
  | step (before : Round κ ν φ) (key : κ)
  | unblock (before : Round κ ν φ)

namespace Round

variable {κ ν φ : Type} [Key κ] [BEq ν]

/-- The moves of a round from the start to where it is now. -/
inductive Course (registry : Registry κ ν φ) (roots : List κ) (start : Round κ ν φ × List κ) :
    List (Move κ ν φ) → Round κ ν φ × List κ → Prop
  | start : Course registry roots start [] start
  | step {moves : List (Move κ ν φ)} {round : Round κ ν φ} {key : κ} {ready rest later : List κ}
      (course : Course registry roots start moves (round, ready))
      (going : round.interrupted = false) (chosen : ready.Perm (key :: rest))
      (order : later.Perm (rest ++ (round.step registry key).2)) :
      Course registry roots start (moves ++ [.step round key])
        ((round.step registry key).1, later)
  | unblock {moves : List (Move κ ν φ)} {round : Round κ ν φ} {later : List κ}
      (course : Course registry roots start moves (round, []))
      (going : round.interrupted = false) (blocked : (round.breakDeadlock roots).2 ≠ [])
      (order : later.Perm (round.breakDeadlock roots).2) :
      Course registry roots start (moves ++ [.unblock round])
        ((round.breakDeadlock roots).1, later)

/-- The course of a round that is not cut short, up to its end. The last break of
deadlocks makes no key ready. -/
inductive Completes (registry : Registry κ ν φ) (roots : List κ) (round : Round κ ν φ) :
    List (Move κ ν φ) → Round κ ν φ → Prop
  | cached (nothing : (round.begin roots).2 = []) :
      Completes registry roots round [] (round.begin roots).1
  | unblocked {moves : List (Move κ ν φ)} {ready : List κ} {last : Round κ ν φ}
      (order : ready.Perm (round.begin roots).2)
      (course : Course registry roots ((round.begin roots).1, ready) moves (last, []))
      (going : last.interrupted = false) (finished : (last.breakDeadlock roots).2 = []) :
      Completes registry roots round (moves ++ [.unblock last]) (last.breakDeadlock roots).1

/-- The course of a round up to its end. A round may be cut short at any time. -/
inductive Closes (registry : Registry κ ν φ) (roots : List κ) (round : Round κ ν φ) :
    List (Move κ ν φ) → Round κ ν φ → Halt → Prop
  | complete {moves : List (Move κ ν φ)} {final : Round κ ν φ}
      (completes : Completes registry roots round moves final) :
      Closes registry roots round moves final .complete
  | cut {moves : List (Move κ ν φ)} {ready left : List κ} {last : Round κ ν φ} {halt : Halt}
      (order : ready.Perm (round.begin roots).2)
      (course : Course registry roots ((round.begin roots).1, ready) moves (last, left))
      (short : halt ≠ .complete) : Closes registry roots round moves last.rollBack halt

variable {registry : Registry κ ν φ} {roots ready later : List κ} {round last final : Round κ ν φ}
  {halt : Halt} {start now : Round κ ν φ × List κ} {moves : List (Move κ ν φ)}

theorem Course.advances (course : Course registry roots start moves now) :
    Advances registry roots start now := by
  induction course with
  | start => exact .refl
  | step _ going chosen order ih => exact ih.tail (.step going chosen order)
  | unblock _ going blocked order ih => exact ih.tail (.unblock going blocked order)

theorem Advances.course (advances : Advances registry roots start now) :
    ∃ moves, Course registry roots start moves now := by
  induction advances with
  | refl => exact ⟨[], .start⟩
  | tail _ move ih =>
      obtain ⟨moves, course⟩ := ih
      cases move with
      | step going chosen order => exact ⟨_, course.step going chosen order⟩
      | unblock going blocked order => exact ⟨_, course.unblock going blocked order⟩

theorem Completes.ends (completes : Completes registry roots round moves final) :
    Ends registry roots round final .complete := by
  cases completes with
  | cached nothing => exact .cached nothing
  | unblocked order course going finished => exact .complete order course.advances going finished

theorem Ends.completes (ends : Ends registry roots round final .complete) :
    ∃ moves, Completes registry roots round moves final := by
  cases ends with
  | cached nothing => exact ⟨[], .cached nothing⟩
  | complete order advances going finished =>
      obtain ⟨moves, course⟩ := advances.course
      exact ⟨_, .unblocked order course going finished⟩
  | cut _ _ short => exact absurd rfl short

theorem Closes.ends (closes : Closes registry roots round moves final halt) :
    Ends registry roots round final halt := by
  cases closes with
  | complete completes => exact completes.ends
  | cut order course short => exact .cut order course.advances short

theorem Ends.closes (ends : Ends registry roots round final halt) :
    ∃ moves, Closes registry roots round moves final halt := by
  cases ends with
  | cached nothing => exact ⟨[], .complete (.cached nothing)⟩
  | complete order advances going finished =>
      obtain ⟨moves, course⟩ := advances.course
      exact ⟨_, .complete (.unblocked order course going finished)⟩
  | cut order advances short =>
      obtain ⟨moves, course⟩ := advances.course
      exact ⟨moves, .cut order course short⟩

section Invariant

variable (holds : List (Move κ ν φ) → Round κ ν φ → Prop)
  (step : ∀ {moves : List (Move κ ν φ)} {before : Round κ ν φ} {ready : List κ} {key : κ}
    {work : Work κ φ} {effect : Effect κ ν φ}, Sound registry before ready → key ∈ ready →
      (before.graph.nodeAt key).work = some work → Progress registry before key work effect →
        Moved before (before.step registry key).1 key effect → holds moves before →
          holds (moves ++ [.step before key]) (before.step registry key).1)
  (unblock : ∀ {moves : List (Move κ ν φ)} {before : Round κ ν φ}, Sound registry before [] →
    holds moves before → holds (moves ++ [.unblock before]) (before.breakDeadlock roots).1)
include step unblock

/-- What every move keeps, together with the moves so far, holds at any time. -/
theorem Course.invariant (course : Course registry roots (round, ready) moves now)
    (sound : Sound registry round ready) (start : holds [] round) :
    Sound registry now.1 now.2 ∧ holds moves now.1 := by
  induction course with
  | start => exact ⟨sound, start⟩
  | step _ going chosen order ih =>
      obtain ⟨sound, held⟩ := ih
      have member := chosen.mem_iff.mpr List.mem_cons_self
      obtain ⟨work, effect, found, _, progress, moved⟩ := sound.moved member registry
      have move : Advance registry roots _ _ := .step going chosen order
      exact ⟨sound.advance move, step sound member found progress moved held⟩
  | unblock _ going blocked order ih =>
      obtain ⟨sound, held⟩ := ih
      exact ⟨sound.unblock order, unblock sound held⟩

theorem Completes.invariant (completes : Completes registry roots round moves final)
    (unique : roots.Nodup) (rested : Rested round.graph)
    (begin : ∀ {after : Round κ ν φ} {ready : List κ}, Begun round roots after ready →
      holds [] after) : holds moves final := by
  have begun := begin (round.begin_spec unique)
  cases completes with
  | cached nothing => exact begun
  | unblocked order course going finished =>
      obtain ⟨sound, held⟩ := course.invariant holds step unblock (.begin unique rested order) begun
      exact unblock sound held

/-- What every move keeps holds in the end, or before the round is rolled back. -/
theorem Closes.invariant (closes : Closes registry roots round moves final halt)
    (unique : roots.Nodup) (rested : Rested round.graph)
    (begin : holds [] (round.begin roots).1) :
    holds moves final ∨ ∃ last left, Sound registry last left ∧ holds moves last ∧
      final = last.rollBack := by
  have reached : ∀ {moves : List (Move κ ν φ)} {ready : List κ} {now : Round κ ν φ × List κ},
      ready.Perm (round.begin roots).2 →
        Course registry roots ((round.begin roots).1, ready) moves now →
          Sound registry now.1 now.2 ∧ holds moves now.1 := fun order course =>
    course.invariant holds step unblock (.begin unique rested order) begin
  cases closes with
  | complete completes =>
      cases completes with
      | cached nothing => exact .inl begin
      | unblocked order course going finished =>
          obtain ⟨sound, held⟩ := reached order course
          exact .inl (unblock sound held)
  | cut order course short =>
      obtain ⟨sound, held⟩ := reached order course
      exact .inr ⟨_, _, sound, held, rfl⟩

end Invariant

omit [Key κ] [BEq ν] in
theorem eq_or_exists_of_append_cons_eq {α : Type} {earlier rest items : List α} {item last : α}
    (same : earlier ++ item :: rest = items ++ [last]) :
    (earlier = items ∧ item = last) ∨ ∃ others, items = earlier ++ item :: others := by
  rcases List.eq_nil_or_concat rest with rfl | ⟨others, final, rfl⟩
  · obtain ⟨isItems, isLast⟩ := List.append_inj' same rfl
    exact .inl ⟨isItems, List.singleton_inj.mp isLast⟩
  · rw [List.concat_eq_append, ← List.cons_append, ← List.append_assoc] at same
    exact .inr ⟨others, (List.append_inj' same rfl).1.symm⟩

theorem Course.before_unblock {earlier rest : List (Move κ ν φ)} {moment : Round κ ν φ}
    (course : Course registry roots start (earlier ++ .unblock moment :: rest) now) :
    Course registry roots start earlier (moment, []) := by
  generalize isMoves : earlier ++ .unblock moment :: rest = moves at course
  induction course generalizing rest with
  | start => simp at isMoves
  | step _ _ _ _ ih =>
      rcases eq_or_exists_of_append_cons_eq isMoves with ⟨_, same⟩ | ⟨others, rfl⟩
      · cases same
      · exact ih rfl
  | unblock course _ _ _ ih =>
      rcases eq_or_exists_of_append_cons_eq isMoves with ⟨rfl, same⟩ | ⟨others, rfl⟩
      · cases same
        exact course
      · exact ih rfl

theorem Completes.before_unblock {earlier rest : List (Move κ ν φ)} {moment : Round κ ν φ}
    (completes : Completes registry roots round (earlier ++ .unblock moment :: rest) final) :
    ∃ ready : List κ, ready.Perm (round.begin roots).2 ∧
      Course registry roots ((round.begin roots).1, ready) earlier (moment, []) := by
  generalize isMoves : earlier ++ .unblock moment :: rest = moves at completes
  cases completes with
  | cached => simp at isMoves
  | unblocked order course going finished =>
      refine ⟨_, order, ?_⟩
      rcases eq_or_exists_of_append_cons_eq isMoves with ⟨rfl, same⟩ | ⟨others, rfl⟩
      · cases same
        exact course
      · exact course.before_unblock

end Round

end MemoGraph
