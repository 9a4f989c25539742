import MemoGraph.Proofs.Round.Reports

namespace MemoGraph.Round

variable {κ ν φ : Type} [Key κ] [BEq ν] {registry : Registry κ ν φ} {round : Round κ ν φ}
  {key : κ} {work : Work κ φ}

/-- What a step of a key comes to, and what it adds to the story of the key. -/
inductive Account (registry : Registry κ ν φ) (round : Round κ ν φ) (key : κ) (work : Work κ φ) :
    Effect κ ν φ → List (Signal κ φ) → Prop
  /-- The recorded dependencies are compared with the last evaluation. -/
  | check (group : Nat) (awaiting : Bool) (phase : work.phase = .checking group awaiting)
      (asked : List κ) (change : Work κ φ → Work κ φ)
      (requested : ∀ work, (change work).requested = work.requested) :
      Account registry round key work
        { asked, own := (round.graph.nodeAt key).updateWork change } []
  /-- None of them changed. -/
  | revalidate (group : Nat) (awaiting : Bool) (phase : work.phase = .checking group awaiting)
      (finished : (round.graph.nodeAt key).dependencies.group? group = none) :
      Account registry round key work
        { own := (round.graph.nodeAt key).revalidate round.version } [.finish key .revalidated]
  /-- The function was run, and has to run again. -/
  | restart (phase : work.phase = .computing) (asked : List κ) (change : Work κ φ → Work κ φ)
      (samePhase : ∀ work, (change work).phase = work.phase) (attempt : Attempt κ φ) :
      Account registry round key work
        { asked, own := (round.graph.nodeAt key).updateWork change, attempt := some attempt }
        [.compute key work.attempts]
  /-- The key got a result, from its function unless there is none or the last
  run of it has decided already. -/
  | compute (phase : work.phase = .computing) (result : Result κ ν φ) (dependencies : Grouping κ)
      (run : Option (Attempt κ φ))
      (ran : run.isSome = true ∨ work.requested ≠ .empty ∨ registry.function? key = none) :
      Account registry round key work
        { own := (round.graph.nodeAt key).commit round.version result dependencies
          failed := isTransient result
          attempt := run }
        ((run.map fun _ => .compute key work.attempts).toList ++
          [.finish key (.ofResult ((round.graph.nodeAt key).keeps result) result)])

omit [BEq ν] in
theorem requested_ne_empty {requested : Grouping κ} {handlers : List (κ × Handler φ)}
    {blamed : κ × Failure κ φ}
    (unhandled : firstUnhandled? round.graph requested handlers = some blamed) :
    requested ≠ .empty := by
  rintro rfl
  cases unhandled

theorem step_of_computing (found : (round.graph.nodeAt key).work = some work)
    (free : work.pending = 0) (phase : work.phase = .computing) :
    round.step registry key = round.compute registry key work := by
  have taken : (round.graph.nodeAt key).work.isSome = true := by simp [found]
  unfold step
  rw [Graph.node?_of_mem (Graph.mem_keys_of_work taken)]
  simp [found, free, phase]

omit [BEq ν] in
/-- Of each key that a step asks for it is told that it is taken up. -/
theorem story_starts {asked : List κ} (unique : asked.Nodup) (other : κ) :
    story other (round.starts asked : List (Signal κ φ)) =
      if other ∈ asked.filter round.isIdle then [.start other] else [] :=
  story_map (fun _ _ => rfl) (unique.filter _)

/-- The story of the key is what its account adds, and of other keys it is only
told that they are taken up. -/
theorem Report.accounted {effect : Effect κ ν φ} {signals : List (Signal κ φ)}
    (report : Report registry round key work effect signals) (busy : round.isIdle key = false) :
    ∃ own, Account registry round key work effect own ∧ ∀ other, story other signals =
      if other = key then own
      else if other ∈ effect.asked.filter round.isIdle then [.start other] else [] := by
  have unique := report.unique
  cases report with
  | await group dependencies phase recorded =>
      refine ⟨_, .check group false phase dependencies _ fun _ => rfl, fun other => ?_⟩
      rw [story_starts unique]
      by_cases same : other = key <;> simp [same, busy]
  | confirm group phase =>
      refine ⟨_, .check group true phase [] _ fun _ => rfl, fun other => ?_⟩
      simp [story]
  | differ group phase =>
      refine ⟨_, .check group true phase [] _ fun _ => rfl, fun other => ?_⟩
      simp [story, Signal.concerns]
  | revalidate group awaiting phase finished =>
      refine ⟨_, .revalidate group awaiting phase finished, fun other => ?_⟩
      simp [story, Signal.concerns, List.filter_cons, eq_comm]
  | fail dependency cause phase unhandled =>
      refine ⟨_, .compute phase _ _ none (.inr (.inl (requested_ne_empty unhandled))),
        fun other => ?_⟩
      simp [story, Signal.concerns, List.filter_cons, Ending.ofResult, eq_comm]
  | refuse phase handled absent =>
      refine ⟨_, .compute phase _ _ none (.inr (.inr absent)), fun other => ?_⟩
      simp [story, Signal.concerns, List.filter_cons, Ending.ofResult, eq_comm]
  | finish function attempt outcome result dependencies events phase registered run verdict =>
      refine ⟨_, .compute phase result dependencies (some attempt) (.inl rfl), fun other => ?_⟩
      rw [story_cons, story_commitSignals]
      by_cases same : other = key
      · subst same
        simp [Signal.concerns]
      · have different : ¬ key = other := fun equal => same equal.symm
        simp [same, different, Signal.concerns]
  | restart function attempt outcome phase registered run verdict =>
      refine ⟨_, .restart phase attempt.missing _ ?samePhase attempt, fun other => ?_⟩
      case samePhase => exact fun _ => rfl
      rw [story_cons, story_cons, story_starts unique]
      by_cases same : other = key
      · subst same
        simp [Signal.concerns, busy]
      · have different : ¬ key = other := fun equal => same equal.symm
        simp [same, different, Signal.concerns]

theorem step_accounted (registry : Registry κ ν φ)
    (found : (round.graph.nodeAt key).work = some work) (free : work.pending = 0) :
    ∃ effect own, Account registry round key work effect own ∧
      Moved round (round.step registry key).1 key effect ∧
      Tells round (round.step registry key).1 fun other =>
        if other = key then own
        else if other ∈ effect.asked.filter round.isIdle then [.start other] else [] := by
  obtain ⟨effect, signals, report, logged⟩ := step_reported registry found free
  obtain ⟨own, account, stories⟩ := report.accounted (Node.not_idle_of_work (by simp [found]))
  exact ⟨effect, own, account, logged.toMoved, (Tells.of_signals logged.log).congr stories⟩

end MemoGraph.Round
