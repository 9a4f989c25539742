import MemoGraph.Proofs.Round.Invariants

namespace MemoGraph.Round

variable {κ ν φ : Type} [Key κ] {round final before after : Round κ ν φ} {key : κ}
  {work : Work κ φ} {effect : Effect κ ν φ} {roots ready : List κ}

/-- Computed results that may still hold and are not to last have been noted. -/
def Noted (round : Round κ ν φ) : Prop :=
  ∀ key result, (round.graph.nodeAt key).injected = false →
    (round.graph.nodeAt key).memo = .valid result ∨ (round.graph.nodeAt key).memo = .dirty result →
      isTransient result = true → key ∈ round.transient.toList

theorem Noted.of_bare (noted : before.Noted)
    (bare : ∀ key, (after.graph.nodeAt key).bare = (before.graph.nodeAt key).bare)
    (transient : after.transient = before.transient) : after.Noted := by
  intro key result own memo passes
  rw [Node.injected_of_bare (bare key)] at own
  rw [Node.memo_of_bare (bare key)] at memo
  rw [transient]
  exact noted key result own memo passes

variable [BEq ν] {registry : Registry κ ν φ} {halt : Halt}

/-- A result that is not to last was there before the step, or the step notes it. -/
theorem Progress.notes (progress : Progress registry before key work effect)
    (found : (before.graph.nodeAt key).work = some work)
    (underway : (before.graph.nodeAt key).Underway) {result : Result κ ν φ}
    (memo : effect.own.memo = .valid result ∨ effect.own.memo = .dirty result)
    (passes : isTransient result = true) :
    effect.failed = true ∨ (before.graph.nodeAt key).memo = .valid result ∨
      (before.graph.nodeAt key).memo = .dirty result := by
  cases progress with
  | await | compare | restart => exact .inr memo
  | revalidate group awaiting phase finished =>
      obtain ⟨old, dirty⟩ := (underway work found).2 group awaiting phase
      have same : old = result := by simpa [Node.revalidate, dirty, Memo.result?] using memo
      exact .inr (.inr (same ▸ dirty))
  | fail dependency cause =>
      have same : Except.error (.dependency key dependency cause) = result := by
        simpa [Node.commit_eq, Node.committed_error] using memo
      rw [← same] at passes
      exact .inl passes
  | refuse =>
      have same : Except.error (unregistered registry key) = result := by
        simpa [Node.commit_eq, Node.committed_error] using memo
      rw [← same] at passes
      cases passes
  | finish function attempt outcome given =>
      have same : (before.graph.nodeAt key).committed given = result := by
        simpa [Node.commit_eq] using memo
      rw [← same, Node.not_transient_committed] at passes
      exact .inl passes

theorem Noted.step (noted : before.Noted) (sound : Sound registry before ready)
    (found : (before.graph.nodeAt key).work = some work)
    (progress : Progress registry before key work effect)
    (moved : Moved before after key effect) : after.Noted := by
  intro other result own memo passes
  rw [moved.transient]
  by_cases same : other = key
  · subst same
    rw [moved.self.injected, progress.injected] at own
    rw [moved.self.memo] at memo
    rcases progress.notes found (sound.underway other) memo passes with failed | earlier
    · exact .inr ⟨rfl, failed⟩
    · exact .inl (noted other result own earlier passes)
  · have bare := (moved.other_bare same).1
    rw [Node.injected_of_bare bare] at own
    rw [Node.memo_of_bare bare] at memo
    exact .inl (noted other result own memo passes)

theorem Noted.breakDeadlock (noted : before.Noted) (waiting : Waiting before [])
    (roots : List κ) : (before.breakDeadlock roots).1.Noted := by
  have failed := failed_breakDeadlock waiting roots
  intro key result own memo passes
  rw [failed.transient]
  cases unblocked_breakDeadlock waiting roots key with
  | failed _ _ isFailure _ => exact .inr ⟨_, isFailure, rfl, rfl⟩
  | spared _ alike =>
      exact .inl (noted key result (alike.injected ▸ own) (alike.memo ▸ memo) passes)

/-- However a round ends, what failed transiently in it has been noted. -/
theorem Ends.noted (ends : Ends registry roots round final halt) (unique : roots.Nodup)
    (rested : Rested round.graph) (noted : round.Noted) : final.Noted :=
  ends.invariant Noted unique rested
    (fun begun noted => noted.of_bare begun.bare begun.context.transient)
    (fun sound _ found progress moved noted => noted.step sound found progress moved)
    (fun sound noted => noted.breakDeadlock sound.waiting roots)
    (fun sound noted => noted.of_bare (bare_rollBack sound.toInOrder) rfl) noted

theorem Ends.injected (ends : Ends registry roots round final halt) (unique : roots.Nodup)
    (rested : Rested round.graph) (key : κ) :
    (final.graph.nodeAt key).injected = (round.graph.nodeAt key).injected := by
  have stays : Node.Stays round.version
      fun node : Node κ ν φ => node.injected = (round.graph.nodeAt key).injected :=
    ⟨fun bare held => (Node.injected_of_bare bare).trans held, fun _ _ held => held,
      fun _ held => held⟩
  exact ends.stays unique rested stays rfl

end MemoGraph.Round
