import MemoGraph.Proofs.Round.Phases

namespace MemoGraph.Round

variable {κ ν φ γ : Type} [Key κ] [BEq ν]

/-- The moves of a round, with the note as every step changes it. -/
inductive Traced (note : Round κ ν φ → κ → γ → γ) (registry : Registry κ ν φ) (roots : List κ)
    (start : Round κ ν φ × List κ) (first : γ) : Round κ ν φ × List κ → γ → Prop
  | refl : Traced note registry roots start first start first
  | step {round : Round κ ν φ} {key : κ} {ready rest later : List κ} {noted : γ}
      (traced : Traced note registry roots start first (round, ready) noted)
      (going : round.interrupted = false) (chosen : ready.Perm (key :: rest))
      (order : later.Perm (rest ++ (round.step registry key).2)) :
      Traced note registry roots start first ((round.step registry key).1, later)
        (note round key noted)
  | unblock {round : Round κ ν φ} {later : List κ} {noted : γ}
      (traced : Traced note registry roots start first (round, []) noted)
      (going : round.interrupted = false) (blocked : (round.breakDeadlock roots).2 ≠ [])
      (order : later.Perm (round.breakDeadlock roots).2) :
      Traced note registry roots start first ((round.breakDeadlock roots).1, later) noted

/-- How a round can end, with what was noted of it. -/
inductive EndsTraced (note : Round κ ν φ → κ → γ → γ) (registry : Registry κ ν φ)
    (roots : List κ) (round : Round κ ν φ) (first : γ) : Round κ ν φ → Halt → γ → Prop
  | cached (nothing : (round.begin roots).2 = []) :
      EndsTraced note registry roots round first (round.begin roots).1 .complete first
  | complete {ready : List κ} {last : Round κ ν φ} {noted : γ}
      (order : ready.Perm (round.begin roots).2)
      (traced : Traced note registry roots ((round.begin roots).1, ready) first (last, []) noted)
      (going : last.interrupted = false) (finished : (last.breakDeadlock roots).2 = []) :
      EndsTraced note registry roots round first (last.breakDeadlock roots).1 .complete noted
  | cut {ready left : List κ} {last : Round κ ν φ} {noted : γ} {halt : Halt}
      (order : ready.Perm (round.begin roots).2)
      (traced : Traced note registry roots ((round.begin roots).1, ready) first (last, left) noted)
      (short : halt ≠ .complete) :
      EndsTraced note registry roots round first last.rollBack halt noted

variable {note : Round κ ν φ → κ → γ → γ} {registry : Registry κ ν φ} {roots : List κ}
  {round final : Round κ ν φ} {start now : Round κ ν φ × List κ} {first noted : γ} {halt : Halt}

theorem Traced.advances (traced : Traced note registry roots start first now noted) :
    Advances registry roots start now := by
  induction traced with
  | refl => exact .refl
  | step _ going chosen order ih => exact ih.tail (.step going chosen order)
  | unblock _ going blocked order ih => exact ih.tail (.unblock going blocked order)

theorem Advances.traced (moves : Advances registry roots start now)
    (note : Round κ ν φ → κ → γ → γ) (first : γ) :
    ∃ noted, Traced note registry roots start first now noted := by
  induction moves with
  | refl => exact ⟨first, .refl⟩
  | tail _ move ih =>
      obtain ⟨noted, traced⟩ := ih
      cases move with
      | step going chosen order => exact ⟨_, traced.step going chosen order⟩
      | unblock going blocked order => exact ⟨_, traced.unblock going blocked order⟩

theorem EndsTraced.ends (traced : EndsTraced note registry roots round first final halt noted) :
    Ends registry roots round final halt := by
  cases traced with
  | cached nothing => exact .cached nothing
  | complete order traced going finished => exact .complete order traced.advances going finished
  | cut order traced short => exact .cut order traced.advances short

theorem Ends.traced (ends : Ends registry roots round final halt)
    (note : Round κ ν φ → κ → γ → γ) (first : γ) :
    ∃ noted, EndsTraced note registry roots round first final halt noted := by
  cases ends with
  | cached nothing => exact ⟨first, .cached nothing⟩
  | complete order moves going finished =>
      obtain ⟨noted, traced⟩ := Advances.traced moves note first
      exact ⟨noted, .complete order traced going finished⟩
  | cut order moves short =>
      obtain ⟨noted, traced⟩ := Advances.traced moves note first
      exact ⟨noted, .cut order traced short⟩

section Invariant

variable (holds : Round κ ν φ → γ → Prop)
  (step : ∀ {before : Round κ ν φ} {ready : List κ} {key : κ} {work : Work κ φ}
    {effect : Effect κ ν φ} {noted : γ}, Sound registry before ready → key ∈ ready →
      (before.graph.nodeAt key).work = some work → Progress registry before key work effect →
        Moved before (before.step registry key).1 key effect → holds before noted →
          holds (before.step registry key).1 (note before key noted))
  (unblock : ∀ {before : Round κ ν φ} {noted : γ}, Sound registry before [] →
    holds before noted → holds (before.breakDeadlock roots).1 noted)
include step unblock

theorem Traced.invariant {ready : List κ} (sound : Sound registry round ready)
    (traced : Traced note registry roots (round, ready) first now noted)
    (held : holds round first) : Sound registry now.1 now.2 ∧ holds now.1 noted := by
  induction traced with
  | refl => exact ⟨sound, held⟩
  | step _ going chosen order ih =>
      obtain ⟨sound, held⟩ := ih
      have member := chosen.mem_iff.mpr List.mem_cons_self
      obtain ⟨work, effect, found, _, progress, moved⟩ := sound.moved member registry
      have move : Advance registry roots _ _ := .step going chosen order
      exact ⟨sound.advance move, step sound member found progress moved held⟩
  | unblock _ going blocked order ih =>
      obtain ⟨sound, held⟩ := ih
      exact ⟨sound.unblock order, unblock sound held⟩

theorem EndsTraced.invariant
    (traced : EndsTraced note registry roots round first final halt noted) (unique : roots.Nodup)
    (rested : Rested round.graph)
    (begin : ∀ {after : Round κ ν φ} {ready : List κ}, Begun round roots after ready →
      holds round first → holds after first)
    (rollBack : ∀ {before : Round κ ν φ} {ready : List κ} {noted : γ},
      Sound registry before ready → holds before noted → holds before.rollBack noted)
    (held : holds round first) : holds final noted := by
  have opened := begin (round.begin_spec unique) held
  cases traced with
  | cached => exact opened
  | complete order traced =>
      obtain ⟨sound, held⟩ := Traced.invariant holds step unblock
        (.begin unique rested order) traced opened
      exact unblock sound held
  | cut order traced =>
      obtain ⟨sound, held⟩ := Traced.invariant holds step unblock
        (.begin unique rested order) traced opened
      exact rollBack sound held

end Invariant

end MemoGraph.Round
