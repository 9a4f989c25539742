import MemoGraph.Proofs.Round.Matching

namespace MemoGraph.Round

variable {κ ν φ : Type} [Key κ] [BEq ν] {round other left right base before after final
  finalOther : Round κ ν φ} {inputs given : κ → Prop} {roots ready : List κ} {key : κ}
  {registry : Registry κ ν φ}

/-- Whatever was taken up on the left since a round opened is worked on or has a
result on the right. -/
def Covers (opening left right : Round κ ν φ) : Prop :=
  ∀ key, opening.isIdle key = true → left.isIdle key = false → right.isIdle key = false

omit [BEq ν] in
theorem Covers.ahead (covers : Covers round left before)
    (busy : ∀ key, before.isIdle key = false → after.isIdle key = false) :
    Covers round left after :=
  fun key idle taken => busy key (covers key idle taken)

omit [BEq ν] in
theorem Moved.evaluating {work : Work κ φ} {effect : Effect κ ν φ} {next : κ}
    (moved : Moved before after key effect) (found : (before.graph.nodeAt key).work = some work)
    (idle : before.isIdle next = true) (busy : after.isIdle next = false) :
    after.isEvaluating next = true := by
  have different : next ≠ key := by
    rintro rfl
    rw [isIdle, Node.not_idle_of_work (by simp [found])] at idle
    cases idle
  rcases moved.other different with alike | ⟨_, _, phase, _, alike⟩
  · rw [isIdle, alike.isIdle, ← isIdle, idle] at busy
    cases busy
  · rw [isEvaluating_eq, alike.work_isSome]
    rfl

/-- What fails when deadlocks are broken was worked on, so nothing is taken up. -/
theorem Failed.idle {failures : List (Failure κ φ)} (failed : Failed before failures after)
    (evaluating : ∀ failure ∈ failures, before.isEvaluating failure.key = true)
    (idle : before.isIdle key = true) : after.isIdle key = true := by
  have spared : key ∉ failures.map Failure.key := by
    intro member
    obtain ⟨failure, isFailure, rfl⟩ := List.mem_map.mp member
    rw [not_isIdle_of_evaluating (evaluating failure isFailure)] at idle
    cases idle
  rw [isIdle, (failed.others key spared).isIdle]
  exact idle

variable (strict : registry.Strict)

section Phase

variable [LawfulBEq ν]
include strict

/-- A round that covers another one when a phase of that begins covers it to the
end of the phase, if it has come to where nothing is ready. -/
theorem Covers.works {now : Round κ ν φ × List κ} (covers : Covers round base right)
    (tracks : Tracks registry inputs given base right) (resting : Sound registry right [])
    (sound : Sound registry base ready) (works : Works registry roots (base, ready) now) :
    Covers round now.1 right := by
  refine (sound.throughout (fun now => Tracks registry inputs given now right ∧
    Covers round now right) works ?_ ⟨tracks, covers⟩).2.2
  rintro before after ready key work effect order member found progress moved ⟨tracks, covers⟩
  have tracksAfter := tracks.step strict resting order member found progress moved
  refine ⟨tracksAfter, fun next idle busy => ?_⟩
  cases earlier : before.isIdle next with
  | false => exact covers next idle earlier
  | true => exact tracksAfter.within next (moved.evaluating found earlier busy)

omit strict [LawfulBEq ν] in
theorem Covers.breakDeadlock (covers : Covers round left right) (resting : Sound registry left [])
    (restingOther : Sound registry right []) :
    Covers round (left.breakDeadlock roots).1 (right.breakDeadlock roots).1 := by
  intro key idle busy
  refine (failed_breakDeadlock restingOther.waiting roots).busy (covers key idle ?_)
  by_contra stillIdle
  rw [(failed_breakDeadlock resting.waiting roots).idle
    (fun _ => evaluating_of_cycleFailuresAt resting.waiting)
    ((Bool.not_eq_false _).mp stillIdle)] at busy
  cases busy

/-- In the end a round has taken up whatever another one took up that began with
the same given results. -/
theorem Ends.covers (unique : roots.Nodup) (rested : Rested round.graph)
    (restedOther : Rested other.graph)
    (alongside : Alongside registry inputs given round other)
    (ends : Ends registry roots round final .complete)
    (endsOther : Ends registry roots other finalOther .complete) :
    Covers round final finalOther := by
  have begun := round.begin_spec unique
  have tracks : Tracks registry inputs given (round.begin roots).1 (other.begin roots).1 :=
    alongside.begin unique rested
  refine (ends.related strict unique rested restedOther alongside endsOther (Covers round) ?phase
    ?start).choose_spec.2
  case phase =>
    intro later base otherBase left right ready readyOther matched covers sound soundOther works
      worksOther
    have resting := (sound.since strict works).1
    obtain ⟨restingOther, sinceOther⟩ := soundOther.since strict worksOther
    have covered : Covers round left right := (covers.ahead sinceOther.busy).works strict
      (matched.forth.ahead strict soundOther worksOther) restingOther sound works
    exact covered.breakDeadlock resting restingOther
  case start =>
    intro key idle busy
    refine tracks.within key ?_
    rw [isIdle, begun.nodes] at busy
    split at busy
    · rename_i isRoot
      obtain ⟨phase, _, taken⟩ := Node.taken_of_idle idle
      rw [isEvaluating_eq, begun.nodes, if_pos isRoot, taken]
      rfl
    · rw [← isIdle, idle] at busy
      cases busy

end Phase

end MemoGraph.Round
