import MemoGraph.Proofs.Round.Ledgers

namespace MemoGraph

variable {κ ν φ : Type} [Key κ] [BEq ν]

/-- The run of a function that a step carries out, if it carries one out. -/
def Round.trial? (registry : Registry κ ν φ) (round : Round κ ν φ) (key : κ) :
    Option (Trial κ ν φ) :=
  if (round.step registry key).1.runs = round.runs then none
  else (registry.function? key).map fun function =>
    let (attempt, outcome) := Attempt.run round.graph.result? key (function round.runs) {}
    ⟨round.runs, attempt, outcome⟩

/-- What a move commits: a step the key that it leaves with a result, a break of
deadlocks all keys that fail. -/
def Move.commits (registry : Registry κ ν φ) (roots : List κ) : Move κ ν φ → List (Commit κ ν φ)
  | .step before key =>
      if (before.step registry key).1.isSettled key then [⟨key, before.trial? registry key⟩] else []
  | .unblock before => (before.broken roots).map fun key => { key }

namespace Round

def commitsOf (registry : Registry κ ν φ) (roots : List κ) (moves : List (Move κ ν φ)) :
    List (Commit κ ν φ) :=
  moves.flatMap (Move.commits registry roots)

variable {registry : Registry κ ν φ} {roots ready : List κ} {round before after : Round κ ν φ}
  {key : κ} {work : Work κ φ} {effect : Effect κ ν φ} {signals : List (Signal κ φ)}
  {moves : List (Move κ ν φ)}

omit [Key κ] [BEq ν] in
theorem ledger_commitSignals {commit : Commit κ ν φ} (kept : Bool) (events : List (Event κ))
    (result : Result κ ν φ) (settles : commit.Settles (.ofResult kept result) events)
    (own : ∀ event ∈ events, event.key = commit.key) :
    Ledger [commit] (commitSignals commit.key kept events result) := by
  have ended := Ledger.one settles own
  cases result with
  | ok value => exact .quiet rfl rfl ended
  | error failure => exact ended

omit [BEq ν] in
theorem ledger_starts (asked : List κ) :
    Ledger ([] : List (Commit κ ν φ)) (before.starts asked) := by
  refine .of_quiet fun signal listed => ?_
  obtain ⟨key, _, rfl⟩ := List.mem_map.mp listed
  exact ⟨rfl, rfl⟩

section Step

variable (moved : Moved before (before.step registry key).1 key effect)
include moved

theorem commits_of_unsettled (unsettled : effect.own.isSettled = false) :
    (Move.step before key).commits registry roots = [] := by
  have notSettled : (before.step registry key).1.isSettled key = false :=
    moved.self.isSettled.trans unsettled
  rw [Move.commits, notSettled, if_neg Bool.false_ne_true]

theorem commits_of_settled (settled : effect.own.isSettled = true) :
    (Move.step before key).commits registry roots = [⟨key, before.trial? registry key⟩] :=
  if_pos (moved.self.isSettled.trans settled)

theorem trial?_of_not_run (notRun : effect.attempt = none) :
    before.trial? registry key = none := by
  have runs := moved.runs
  rw [notRun] at runs
  exact if_pos runs

theorem Report.ledger (report : Report registry before key work effect signals)
    (underway : (before.graph.nodeAt key).Underway)
    (found : (before.graph.nodeAt key).work = some work) :
    Ledger ((Move.step before key).commits registry roots) signals ∧
      Numbered before.runs (before.step registry key).1.runs
        ((Move.step before key).commits registry roots) := by
  have le : before.runs ≤ (before.step registry key).1.runs := moved.runs ▸ Nat.le_add_right _ _
  have open' : effect.own.isSettled = false → Ledger ([] : List (Commit κ ν φ)) signals →
      Ledger ((Move.step before key).commits registry roots) signals ∧
        Numbered before.runs (before.step registry key).1.runs
          ((Move.step before key).commits registry roots) := by
    intro unsettled ledger
    rw [commits_of_unsettled moved unsettled]
    exact ⟨ledger, .of_silent le (by simp)⟩
  have closed : effect.own.isSettled = true → effect.attempt = none →
      Ledger [({ key } : Commit κ ν φ)] signals →
        Ledger ((Move.step before key).commits registry roots) signals ∧
          Numbered before.runs (before.step registry key).1.runs
            ((Move.step before key).commits registry roots) := by
    intro settled notRun ledger
    rw [commits_of_settled moved settled, trial?_of_not_run moved notRun]
    exact ⟨ledger, .of_silent le (by simp)⟩
  have worked : ∀ change, ((before.graph.nodeAt key).updateWork change).isSettled = false :=
    fun change => Node.not_settled_of_work (by rw [Node.updateWork_work, found]; rfl)
  cases report with
  | await => exact open' (worked _) (ledger_starts _)
  | confirm => exact open' (worked _) .nil
  | differ => exact open' (worked _) (.quiet rfl rfl .nil)
  | restart =>
      exact open' (worked _) (.quiet rfl rfl (.quiet rfl rfl (ledger_starts _)))
  | revalidate group awaiting phase finished =>
      obtain ⟨result, memo⟩ := (underway work found).2 group awaiting phase
      have settled : ((before.graph.nodeAt key).revalidate before.version).isSettled = true := by
        simp [Node.revalidate, Node.isSettled, Node.result?, memo, Memo.result?]
      exact closed settled rfl (.quiet rfl rfl (.one (.revalidated key) (by simp)))
  | fail dependency cause =>
      exact closed rfl rfl (.one (.blamed key dependency cause) (by simp))
  | refuse => exact closed rfl rfl (.one (.unregistered key _) (by simp))
  | finish function attempt outcome result dependencies events phase registered run verdict =>
      have runs : (before.step registry key).1.runs = before.runs + 1 := moved.runs
      have trial : before.trial? registry key = some ⟨before.runs, attempt, outcome⟩ := by
        rw [trial?, if_neg (by simp [runs]), registered, Option.map_some, run]
      have settles := settles_of_verdict verdict before.runs ((before.graph.nodeAt key).keeps result)
      have own : ∀ event ∈ events, event.key = key := by
        intro event isEvent
        have reported := @Attempt.events_run κ ν φ _ {} before.graph.result? key
          (function before.runs) (by simp) event
        rw [run] at reported
        exact reported (settles.mem_events isEvent)
      rw [commits_of_settled moved rfl, trial, runs]
      refine ⟨.quiet rfl rfl (ledger_commitSignals _ events result settles own), ?_⟩
      exact ⟨Nat.le_succ _, List.pairwise_singleton _ _, by simp [numbers]⟩

end Step

omit [Key κ] [BEq ν] in
theorem ledger_breakSignals (component : List κ) :
    Ledger (component.map fun key => ({ key } : Commit κ ν φ)) (breakSignals component) := by
  have ended : Ledger (component.map fun key => ({ key } : Commit κ ν φ))
      (component.map (.finish · .cycleDetected)) := by
    induction component with
    | nil => exact .nil
    | cons key rest ih => exact Ledger.append (.one (.stuck key) (by simp)) ih
  exact .quiet rfl rfl ended

omit [Key κ] [BEq ν] in
theorem ledger_broken (components : List (List κ)) :
    Ledger (components.flatten.map fun key => ({ key } : Commit κ ν φ))
      (components.flatMap breakSignals) := by
  induction components with
  | nil => exact .nil
  | cons component rest ih =>
      rw [List.flatten_cons, List.map_append, List.flatMap_cons]
      exact (ledger_breakSignals component).append ih

/-- What was told since a round opened is what its moves commit. -/
structure Delivers (registry : Registry κ ν φ) (roots : List κ) (round : Round κ ν φ)
    (moves : List (Move κ ν φ)) (now : Round κ ν φ) : Prop where
  ledger : ∃ signals, now.log.toList = round.log.toList ++ signals ∧
    Ledger (commitsOf registry roots moves) signals
  numbered : Numbered round.runs now.runs (commitsOf registry roots moves)
  /-- A step that leaves its key without a result delivers nothing. -/
  silent : ∀ before key, .step before key ∈ moves →
    (before.step registry key).1.isSettled key = false →
      received (before.step registry key).1.log.toList = received before.log.toList

section Delivers

theorem Delivers.begin (registry : Registry κ ν φ) (round : Round κ ν φ) (unique : roots.Nodup) :
    Delivers registry roots round [] (round.begin roots).1 := by
  refine ⟨⟨_, round.log_begin unique, .of_quiet fun signal listed => ?_⟩, ?_, by simp⟩
  · obtain ⟨root, _, rfl⟩ := List.mem_map.mp listed
    split <;> exact ⟨rfl, rfl⟩
  · have runs := (round.begin_spec unique).context.runs
    exact .of_silent (Nat.le_of_eq runs.symm) (by simp [commitsOf])

theorem Delivers.move {move : Move κ ν φ} (delivers : Delivers registry roots round moves before)
    (log : after.log.toList = before.log.toList ++ signals)
    (ledger : Ledger (move.commits registry roots) signals)
    (numbered : Numbered before.runs after.runs (move.commits registry roots))
    (silent : ∀ moment key, move = .step moment key →
      (moment.step registry key).1.isSettled key = false →
        received (moment.step registry key).1.log.toList = received moment.log.toList) :
    Delivers registry roots round (moves ++ [move]) after := by
  obtain ⟨⟨told, earlier, commits⟩, inOrder, silentBefore⟩ := delivers
  have extended : commitsOf registry roots (moves ++ [move]) =
      commitsOf registry roots moves ++ move.commits registry roots := by
    rw [commitsOf, List.flatMap_append, List.flatMap_singleton]
    rfl
  constructor
  · refine ⟨told ++ signals, by rw [log, earlier, List.append_assoc], ?_⟩
    rw [extended]
    exact commits.append ledger
  · rw [extended]
    exact inOrder.append numbered
  · intro moment key isMove unsettled
    rcases List.mem_append.mp isMove with isOld | isNew
    · exact silentBefore moment key isOld unsettled
    · exact silent moment key (List.mem_singleton.mp isNew).symm unsettled

theorem Delivers.step (delivers : Delivers registry roots round moves before)
    (sound : Sound registry before ready) (member : key ∈ ready) :
    Delivers registry roots round (moves ++ [.step before key]) (before.step registry key).1 := by
  obtain ⟨work, effect, signals, found, report, logged⟩ := sound.reported member
  obtain ⟨ledger, numbered⟩ := report.ledger logged.toMoved (sound.underway key) found
  refine delivers.move logged.log ledger numbered ?_
  rintro _ _ ⟨⟩ unsettled
  rw [Move.commits, unsettled, if_neg Bool.false_ne_true] at ledger
  rw [logged.log, received, List.filterMap_append, ← received, ← received, ledger.silent,
    List.append_nil]

theorem Delivers.unblock (delivers : Delivers registry roots round moves before)
    (waiting : Waiting before []) :
    Delivers registry roots round (moves ++ [.unblock before]) (before.breakDeadlock roots).1 := by
  refine delivers.move (before.log_breakDeadlock waiting roots) (ledger_broken _) ?_ (by simp)
  have runs := (failed_breakDeadlock waiting roots).runs
  exact .of_silent (Nat.le_of_eq runs.symm) (by simp [Move.commits])

theorem Closes.delivers {final : Round κ ν φ} {halt : Halt}
    (closes : Closes registry roots round moves final halt) (unique : roots.Nodup)
    (rested : Rested round.graph) : Delivers registry roots round moves final := by
  have delivered := closes.invariant (Delivers registry roots round)
    (fun sound member _ _ _ delivers => delivers.step sound member)
    (fun sound delivers => delivers.unblock sound.waiting) unique rested
    (.begin registry round unique)
  rcases delivered with delivers | ⟨last, left, _, delivers, rfl⟩
  · exact delivers
  · exact ⟨delivers.ledger, delivers.numbered, delivers.silent⟩

end Delivers

end Round

end MemoGraph
