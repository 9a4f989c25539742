import Mathlib.Logic.Function.Basic
import MemoGraph.Proofs.Round.Traces

namespace MemoGraph

/-- For every key the run of its function that gave it its last result, if one
did. No state of the engine holds this. -/
abbrev Commits (κ φ : Type) := κ → Option (Attempt κ φ)

namespace Round

variable {κ ν φ : Type} [Key κ]

/-- A value was given, or a run gave it whose requests are the recorded
dependencies, and which offered to handle the failure of each that failed. -/
def Backed (commit : Option (Attempt κ φ)) (given : Prop) (result : Result κ ν φ)
    (dependencies : Grouping κ) (results : κ → Option (Result κ ν φ)) : Prop :=
  ∀ value, result = .ok value → (commit = none → given ∧ dependencies = .empty) ∧
    ∀ attempt, commit = some attempt → dependencies = attempt.requested ∧
      Attempt.Covered results dependencies attempt.handlers

theorem Backed.mono {commit : Option (Attempt κ φ)} {before after : Prop}
    {result : Result κ ν φ} {dependencies : Grouping κ} {results : κ → Option (Result κ ν φ)}
    (backed : Backed commit before result dependencies results) (stays : before → after) :
    Backed commit after result dependencies results :=
  fun value isValue => (backed value isValue).imp_left fun fromOutside none =>
    (fromOutside none).imp_left stays

def commitBacking (noted : Commits κ φ) (given : κ → Prop) : Backing κ ν φ where
  holds key := Backed (noted key) (given key)
  fleeting := True
  congr := by
    intro key result dependencies results others same backed value isValue
    refine (backed value isValue).imp_right fun recorded attempt isNoted => ?_
    obtain ⟨requested, covered⟩ := recorded attempt isNoted
    refine ⟨requested, fun dependency needed failure failed => ?_⟩
    exact covered dependency needed failure ((same dependency needed).trans failed)

section Recommit

variable {registry : Registry κ ν φ} {before : Round κ ν φ} {key : κ} {work : Work κ φ}
  {ready : List κ} {noted : Commits κ φ} {given : κ → Prop}

theorem Grounded.recommit (grounded : Grounded (commitBacking noted given) before)
    (sound : Sound registry before ready) (found : (before.graph.nodeAt key).work = some work)
    (phase : work.phase = .computing) (attempt : Attempt κ φ) :
    Grounded (commitBacking (Function.update noted key (some attempt)) given) before := by
  have others : ∀ (other : κ) (result : Result κ ν φ) (results : κ → Option (Result κ ν φ)),
      other ≠ key →
      Backed (noted other) (given other) result (before.graph.nodeAt other).dependencies results →
      Backed (Function.update noted key (some attempt) other) (given other) result
        (before.graph.nodeAt other).dependencies results := by
    intro other result results different backed
    rwa [Function.update_of_ne different]
  refine grounded.rebase id (fun other result results isResult => others other result results ?_)
    fun other result results memo backed => ?_
  · rintro rfl
    rw [Node.result?_of_work (by simp [found])] at isResult
    cases isResult
  · by_cases same : other = key
    · -- A function only runs anew once what the key remembers is known to be outdated.
      subst same
      exact .inl ⟨trivial, outdated_of_refuted
        ((sound.establishes other work found).refuted result phase memo)⟩
    · exact .inr (others other result results same backed)

end Recommit

variable [BEq ν]

/-- The run of a function that a step carries out, if it carries one out. -/
def ran? (registry : Registry κ ν φ) (round : Round κ ν φ) (key : κ) : Option (Attempt κ φ) :=
  if (round.step registry key).1.runs = round.runs then none
  else (registry.function? key).map fun function =>
    (Attempt.run round.graph.result? key (function round.runs) {}).1

/-- What is noted of a step: a run that gives its key a result. -/
def commits (registry : Registry κ ν φ) (round : Round κ ν φ) (key : κ)
    (noted : Commits κ φ) : Commits κ φ :=
  match (round.ran? registry key).filter fun _ => (round.step registry key).1.isSettled key with
  | some attempt => Function.update noted key (some attempt)
  | none => noted

variable {registry : Registry κ ν φ} {round final before after : Round κ ν φ} {key : κ}
  {work : Work κ φ} {effect : Effect κ ν φ} {roots ready : List κ} {noted later : Commits κ φ}
  {given : κ → Prop} {halt : Halt}

theorem Progress.computing (progress : Progress registry before key work effect)
    {attempt : Attempt κ φ} (ran : effect.attempt = some attempt) : work.phase = .computing := by
  cases progress with
  | finish _ _ _ _ _ _ phase => exact phase
  | restart _ _ _ phase => exact phase
  | _ => cases ran

theorem ran?_eq (progress : Progress registry before key work effect)
    (moved : Moved before (before.step registry key).1 key effect) :
    before.ran? registry key = effect.attempt := by
  unfold ran?
  rw [moved.runs]
  cases ran : effect.attempt with
  | none => simp
  | some attempt =>
      obtain ⟨function, registered, rfl⟩ := progress.attempt ran
      simp [registered]

theorem commits_of_quiet (progress : Progress registry before key work effect)
    (moved : Moved before (before.step registry key).1 key effect)
    (quiet : effect.attempt = none ∨ effect.own.isSettled = false) :
    before.commits registry key noted = noted := by
  unfold commits isSettled
  rw [ran?_eq progress moved, moved.self.isSettled]
  rcases quiet with quiet | unsettled
  · simp [quiet]
  · simp [unsettled]

theorem commits_of_ran (progress : Progress registry before key work effect)
    (moved : Moved before (before.step registry key).1 key effect) {attempt : Attempt κ φ}
    (ran : effect.attempt = some attempt) (settled : effect.own.isSettled = true) :
    before.commits registry key noted = Function.update noted key (some attempt) := by
  unfold commits isSettled
  rw [ran?_eq progress moved, moved.self.isSettled]
  simp [ran, settled, Option.filter]

/-- A value that a run gives is backed by that run. -/
theorem Progress.backs (progress : Progress registry before key work effect)
    (moved : Moved before (before.step registry key).1 key effect)
    (found : (before.graph.nodeAt key).work = some work) (phase : work.phase = .computing)
    {result : Result κ ν φ} (isResult : effect.own.result? = some result) :
    Backed (before.commits registry key noted key) (given key) result effect.own.dependencies
      fun dependency => (before.graph.nodeAt dependency).result? := by
  rintro value rfl
  have settled := Node.isSettled_of_result? isResult
  cases progress with
  | await | compare | restart =>
      rw [Node.updateWork_result?, Node.result?_of_work (by simp [found])] at isResult
      cases isResult
  | revalidate group awaiting checking =>
      rw [phase] at checking
      cases checking
  | fail | refuse =>
      rw [Node.commit_result?, Node.committed_error] at isResult
      cases isResult
  | finish function attempt outcome made dependencies events phase handled registered run
      verdict =>
      rw [commits_of_ran (.finish function attempt outcome made dependencies events phase handled
        registered run verdict) moved rfl settled, Function.update_self]
      refine ⟨nofun, fun other isOther => ?_⟩
      obtain rfl := Option.some.inj isOther
      cases made with
      | ok own =>
          obtain ⟨requested, covered⟩ := covered_of_verdict run verdict
          refine ⟨requested, fun dependency needed failure failed => ?_⟩
          exact covered dependency needed failure ((Graph.result?_eq dependency).trans failed)
      | error failure =>
          rw [Node.commit_result?, Node.committed_error] at isResult
          cases isResult

theorem Grounded.commit (grounded : Grounded (commitBacking noted given) before)
    (sound : Sound registry before ready) (member : key ∈ ready)
    (found : (before.graph.nodeAt key).work = some work)
    (progress : Progress registry before key work effect)
    (moved : Moved before (before.step registry key).1 key effect) :
    Grounded (commitBacking (before.commits registry key noted) given)
      (before.step registry key).1 := by
  have regrounded : Grounded (commitBacking (before.commits registry key noted) given) before := by
    cases ran : effect.attempt with
    | none => rwa [commits_of_quiet progress moved (.inl ran)]
    | some attempt =>
        cases settled : effect.own.isSettled with
        | false => rwa [commits_of_quiet progress moved (.inr settled)]
        | true =>
            rw [commits_of_ran progress moved ran settled]
            exact grounded.recommit sound found (progress.computing ran) attempt
  exact regrounded.step progress moved found (sound.underway key)
    (sound.establishes key work found) (sound.settled_of_batch member found)
    fun result phase isResult _ => progress.backs moved found phase isResult

theorem EndsTraced.grounded
    (traced : EndsTraced (commits registry) registry roots round noted final halt later)
    (unique : roots.Nodup) (rested : Rested round.graph)
    (grounded : Grounded (commitBacking noted given) round) :
    Grounded (commitBacking later given) final :=
  traced.invariant (fun now noted => Grounded (commitBacking noted given) now)
    (fun sound member found progress moved grounded =>
      grounded.commit sound member found progress moved)
    (fun sound grounded => grounded.breakDeadlock sound.waiting) unique rested
    (fun begun grounded => grounded.begin begun)
    (fun sound grounded => grounded.rollBack sound.toInOrder) grounded

end Round

end MemoGraph
