import MemoGraph.Proofs.Computation.Plans
import MemoGraph.Proofs.Round.Callbacks
import MemoGraph.Proofs.Round.Wakeups

namespace MemoGraph

/-! Runs of functions that have to be repeated.

Whatever a run missed has a result when the function runs again, and keeps it.
So no key is missed twice in a round.
-/

variable {κ ν φ : Type}

/-- What the run missed that is repeated. -/
def Signal.missing? : Signal κ φ → Option (List κ)
  | .restart _ missing => some missing
  | _ => none

def Signal.isRun : Signal κ φ → Bool
  | .compute _ _ => true
  | _ => false

section Signals

variable [DecidableEq κ] {key : κ} {signals more : List (Signal κ φ)}

/-- What the repeated runs of the key's function missed. -/
def restarts (key : κ) (signals : List (Signal κ φ)) : List (List κ) :=
  (callbacks key signals).filterMap Signal.missing?

def computes (key : κ) (signals : List (Signal κ φ)) : Nat :=
  (callbacks key signals).countP Signal.isRun

theorem restarts_append :
    restarts key (signals ++ more) = restarts key signals ++ restarts key more := by
  simp [restarts]

theorem computes_append :
    computes key (signals ++ more) = computes key signals + computes key more := by
  simp [computes]

end Signals

variable [Key κ]

namespace Round

variable {registry : Registry κ ν φ} {key stepped : κ} {round now before after : Round κ ν φ}
  {attempt latest : Attempt κ φ} {cut last : List (Attempt κ φ)} {roots ready : List κ}

section Repeats

theorem result?_ne_none (settled : now.isSettled key = true) : now.graph.result? key ≠ none := by
  obtain ⟨result, isResult⟩ := Node.exists_result? settled
  rw [Graph.result?_eq, isResult]
  exact Option.some_ne_none result

/-- Each of the runs gave up the plan at a group of its own, all of which the
latest of them had asked for. -/
structure Grouped (now : Round κ ν φ) (plan : Plan κ ν φ) (cut : List (Attempt κ φ))
    (latest : Attempt κ φ) : Prop where
  stopped : ∃ earlier : Graph κ ν φ, earlier.Grows now.graph ∧
    latest.Faithful earlier.result? ∧ plan.Stops earlier.result? .empty latest.requested latest.missing
  groups : ∃ groups, groups.Sublist latest.requested.groups ∧
    List.Forall₂ (· ⊆ ·) (cut.map Attempt.missing) groups

/-- The first of these runs of the key's function were cut short, and the last
one gave it a result. -/
structure Repeats (registry : Registry κ ν φ) (key : κ) (now : Round κ ν φ)
    (cut last : List (Attempt κ φ)) : Prop where
  lacking : ∀ attempt ∈ cut, attempt.missing ≠ []
  unique : (cut.flatMap Attempt.missing).Nodup
  requested : ∀ attempt ∈ cut, attempt.missing ⊆ attempt.requested.keys
  single : last.length ≤ 1
  final : last ≠ [] → now.isSettled key = true
  planned : ∀ plan, registry.Follows key plan → cut = [] ∨ ∃ latest ∈ cut, Grouped now plan cut latest

theorem Repeats.keep (repeats : Repeats registry key before cut last)
    (extended : before.graph.Extends after.graph) : Repeats registry key after cut last := by
  refine { repeats with
    final := fun some => (extended key (repeats.final some)).isSettled.trans (repeats.final some)
    planned := fun plan follows => (repeats.planned plan follows).imp_right ?_ }
  rintro ⟨latest, isCut, ⟨earlier, grows, stopped⟩, groups⟩
  refine ⟨latest, isCut, ⟨earlier, fun dependency result found => ?_, stopped⟩, groups⟩
  exact extended.grows dependency result (grows dependency result found)

theorem Repeats.finish (repeats : Repeats registry key before cut [])
    (extended : before.graph.Extends after.graph) (settled : after.isSettled key = true)
    (attempt : Attempt κ φ) : Repeats registry key after cut [attempt] :=
  { repeats.keep extended with
    single := Nat.le_refl 1
    final := fun _ => settled }

/-- What an earlier run asked for has a result once what it missed has one. -/
theorem Grouped.present {plan : Plan κ ν φ} (grouped : Grouped before plan cut latest)
    (supplied : ∀ dependency ∈ latest.missing, before.isSettled dependency = true) :
    ∀ dependency ∈ latest.requested, before.graph.result? dependency ≠ none := by
  intro dependency asked
  obtain ⟨earlier, grows, faithful, _⟩ := grouped.stopped
  cases found : earlier.result? dependency with
  | some result =>
      rw [grows dependency result found]
      exact Option.some_ne_none result
  | none =>
      exact result?_ne_none
        (supplied dependency ((faithful.mem_missing dependency).mpr ⟨asked, found⟩))

section Run

variable {function : Nat → Computation κ ν φ} {outcome : Outcome ν φ}
  (run : Attempt.run before.graph.result? key (function before.runs) {} = (attempt, outcome))
  (repeats : Repeats registry key before cut [])
  (registered : registry.function? key = some function)
  (supplied : ∀ earlier ∈ cut, ∀ dependency ∈ earlier.missing, before.isSettled dependency = true)
  (lacking : attempt.missing ≠ []) (extended : before.graph.Extends after.graph)
include run repeats registered supplied lacking extended

/-- A run that misses something gives up the plan at a group that no run gave it
up at before. -/
theorem Repeats.grouped {plan : Plan κ ν φ} (follows : registry.Follows key plan) :
    Grouped after plan (cut ++ [attempt]) attempt := by
  have stops : plan.Stops before.graph.result? .empty attempt.requested attempt.missing := by
    have stops := (follows function registered before.runs).stops key
      (show ({} : Attempt κ φ).isShort = false from rfl) (by rwa [run])
    rwa [run] at stops
  refine ⟨⟨before.graph, extended.grows, Attempt.faithful_of_run run, stops⟩, ?_⟩
  rw [List.map_append]
  rcases repeats.planned plan follows with rfl | ⟨latest, isCut, grouped⟩
  · obtain ⟨earlier, group, isAsked, inGroup⟩ :=
      stops.last_group fun dependency member => absurd member (Grouping.not_mem_empty dependency)
    exact ⟨[group], isAsked ▸ List.sublist_append_right earlier [group], .cons inGroup .nil⟩
  · -- All groups that the latest run asked for come before the one where this run stops.
    obtain ⟨earlier, grows, _, stopped⟩ := grouped.stopped
    obtain ⟨groups, sublist, each⟩ := grouped.groups
    obtain ⟨others, group, isAsked, inGroup, isPrefix⟩ :=
      stopped.advances stops grows lacking (grouped.present (supplied latest isCut))
    refine ⟨groups ++ [group], ?_, List.rel_append each (.cons inGroup .nil)⟩
    rw [isAsked]
    exact (sublist.trans isPrefix.sublist).append_right [group]

theorem Repeats.restart : Repeats registry key after (cut ++ [attempt]) [] := by
  have faithful := Attempt.faithful_of_run run
  have fresh : ∀ dependency ∈ cut.flatMap Attempt.missing, dependency ∉ attempt.missing := by
    intro dependency missed misses
    obtain ⟨earlier, isCut, lacked⟩ := List.mem_flatMap.mp missed
    have absent := ((faithful.mem_missing dependency).mp misses).2
    exact result?_ne_none (supplied earlier isCut dependency lacked) absent
  constructor
  case lacking => exact List.forall_mem_append.mpr ⟨repeats.lacking, by simpa using lacking⟩
  case unique =>
    rw [List.flatMap_append, List.flatMap_singleton, List.nodup_append]
    refine ⟨repeats.unique, faithful.unique, ?_⟩
    rintro dependency missed _ misses rfl
    exact fresh dependency missed misses
  case requested =>
    have own : attempt.missing ⊆ attempt.requested.keys :=
      fun dependency lacks => ((faithful.mem_missing dependency).mp lacks).1
    exact List.forall_mem_append.mpr ⟨repeats.requested, by simpa using own⟩
  case single => exact Nat.zero_le 1
  case final => exact fun some => absurd rfl some
  case planned =>
    exact fun plan follows => .inr ⟨attempt, by simp,
      Repeats.grouped run repeats registered supplied lacking extended follows⟩

end Run

theorem Repeats.length_le (repeats : Repeats registry key now cut last) :
    (cut ++ last).length ≤
      1 + (distinct ((cut ++ last).flatMap fun attempt => attempt.requested.keys)).length := by
  have each : cut.length ≤ (cut.flatMap Attempt.missing).length := by
    rw [List.length_flatMap]
    have positive := List.length_le_sum_of_one_le (cut.map fun attempt => attempt.missing.length)
    rw [List.length_map] at positive
    refine positive fun length isLength => ?_
    obtain ⟨attempt, isCut, rfl⟩ := List.mem_map.mp isLength
    exact List.length_pos_iff.mpr (repeats.lacking attempt isCut)
  have requested : cut.flatMap Attempt.missing ⊆
      distinct ((cut ++ last).flatMap fun attempt => attempt.requested.keys) := by
    intro dependency missed
    obtain ⟨attempt, isCut, lacks⟩ := List.mem_flatMap.mp missed
    rw [mem_distinct, List.mem_flatMap]
    exact ⟨attempt, List.mem_append_left last isCut, repeats.requested attempt isCut lacks⟩
  have once := (List.subperm_of_subset repeats.unique requested).length_le
  have single := repeats.single
  rw [List.length_append]
  omega

end Repeats

section Told

variable {signals : List (Signal κ φ)}

/-- Nothing is told of runs of the key's function. -/
def Silent (key : κ) (signals : List (Signal κ φ)) : Prop :=
  restarts key signals = [] ∧ computes key signals = 0

theorem silent_of_callbacks (told : callbacks key signals = [] ∨
    ∃ signal, callbacks key signals = [signal] ∧ signal.missing? = none ∧ signal.isRun = false) :
    Silent key signals := by
  unfold Silent restarts computes
  rcases told with none | ⟨signal, told, missing, notRun⟩
  · rw [none]
    exact ⟨rfl, rfl⟩
  · rw [told, List.filterMap_cons_none missing, List.countP_cons_of_neg (by simp [notRun])]
    exact ⟨rfl, rfl⟩

omit [Key κ] in
theorem Closing.quiet {result : Result κ ν φ} (closing : Closing key result signals) :
    signals.filterMap Signal.missing? = [] ∧ signals.countP Signal.isRun = 0 := by
  cases closing <;> exact ⟨rfl, rfl⟩

end Told

end Round

variable [BEq ν]

/-- The run of the key's function in a move, if there is one. -/
def Move.run? (registry : Registry κ ν φ) (key : κ) : Move κ ν φ → Option (Attempt κ φ)
  | .step before other => if other = key then before.ran? registry key else none
  | .unblock _ => none

namespace Round

/-- The runs of the key's function, in order. -/
def runsOf (registry : Registry κ ν φ) (key : κ) (moves : List (Move κ ν φ)) :
    List (Attempt κ φ) :=
  moves.filterMap (Move.run? registry key)

variable {registry : Registry κ ν φ} {key stepped : κ} {moves : List (Move κ ν φ)}
  {round now before after : Round κ ν φ} {attempt : Attempt κ φ} {cut last : List (Attempt κ φ)}
  {signals : List (Signal κ φ)} {work : Work κ φ} {effect : Effect κ ν φ} {roots ready : List κ}

theorem mem_runsOf : attempt ∈ runsOf registry key moves ↔
    ∃ before, Move.step before key ∈ moves ∧ before.ran? registry key = some attempt := by
  unfold runsOf
  rw [List.mem_filterMap]
  constructor
  · rintro ⟨move, isMove, ran⟩
    cases move with
    | unblock => cases ran
    | step before other =>
        by_cases same : other = key
        · rw [Move.run?, if_pos same] at ran
          exact ⟨before, same ▸ isMove, ran⟩
        · rw [Move.run?, if_neg same] at ran
          cases ran
  · rintro ⟨before, isMove, ran⟩
    exact ⟨_, isMove, (if_pos rfl).trans ran⟩

theorem runsOf_step : runsOf registry key (moves ++ [.step before stepped]) =
    runsOf registry key moves ++
      if stepped = key then (before.ran? registry key).toList else [] := by
  unfold runsOf
  rw [List.filterMap_append, List.filterMap_cons, List.filterMap_nil, Move.run?]
  by_cases same : stepped = key
  · rw [if_pos same, if_pos same]
    cases before.ran? registry key <;> rfl
  · rw [if_neg same, if_neg same]

theorem runsOf_unblock :
    runsOf registry key (moves ++ [.unblock before]) = runsOf registry key moves := by
  simp [runsOf, Move.run?]

/-- A step runs the function of its key, and it gives the key a result or misses
something, or the function is not run. -/
theorem Report.trial (report : Report registry before key work effect signals)
    (busy : before.isIdle key = false) :
    (effect.attempt = none ∧ restarts key signals = [] ∧ computes key signals = 0) ∨
    ∃ function attempt outcome, registry.function? key = some function ∧
      Attempt.run before.graph.result? key (function before.runs) {} = (attempt, outcome) ∧
      effect.attempt = some attempt ∧ computes key signals = 1 ∧
      ((effect.own.isSettled = true ∧ restarts key signals = []) ∨
        (attempt.missing ≠ [] ∧ restarts key signals = [attempt.missing])) := by
  have unique := report.unique
  cases report with
  | await =>
      have silent := callbacks_starts_of_busy (φ := φ) busy unique
      exact .inl ⟨rfl, by rw [restarts, silent]; rfl, by rw [computes, silent]; rfl⟩
  | finish function attempt outcome result dependencies events phase registered run verdict =>
      have closing := @closing_commitSignals κ ν φ key _ _ (before.graph.nodeAt key) events result
      refine .inr ⟨function, attempt, outcome, registered, run, rfl, ?_, .inl ⟨rfl, ?_⟩⟩
      · rw [computes, callbacks_cons_self (by simp [Signal.isAbout]), List.countP_cons,
          closing.quiet.2]
        rfl
      · rw [restarts, callbacks_cons_self (by simp [Signal.isAbout]), List.filterMap_cons,
          closing.quiet.1]
        rfl
  | restart function attempt outcome phase registered run verdict =>
      have silent := callbacks_starts_of_busy (φ := φ) busy unique
      have told : callbacks key (.compute key work.attempts :: .restart key attempt.missing ::
          before.starts attempt.missing) =
          ([.compute key work.attempts, .restart key attempt.missing] : List (Signal κ φ)) := by
        rw [callbacks_cons_self (by simp [Signal.isAbout]),
          callbacks_cons_self (by simp [Signal.isAbout]), silent]
      refine .inr ⟨function, attempt, outcome, registered, run, rfl, ?_,
        .inr ⟨verdict_restart verdict, ?_⟩⟩
      · rw [computes, told]
        rfl
      · rw [restarts, told]
        rfl
  | _ =>
      refine .inl ⟨rfl, ?_, ?_⟩ <;>
        simp [restarts, computes, callbacks, Signal.isAbout, Signal.missing?, Signal.isRun]

/-- The runs of the key's function so far, as the moves have them and as they
were told. -/
def Persists (registry : Registry κ ν φ) (key : κ) (round : Round κ ν φ)
    (moves : List (Move κ ν φ)) (now : Round κ ν φ) : Prop :=
  ∃ signals cut last, now.log.toList = round.log.toList ++ signals ∧
    runsOf registry key moves = cut ++ last ∧ restarts key signals = cut.map Attempt.missing ∧
    computes key signals = (cut ++ last).length ∧ Repeats registry key now cut last

section Persists

theorem Persists.quiet {later : List (Move κ ν φ)}
    (persists : Persists registry key round moves before)
    (log : after.log.toList = before.log.toList ++ signals) (silent : Silent key signals)
    (same : runsOf registry key later = runsOf registry key moves)
    (extended : before.graph.Extends after.graph) : Persists registry key round later after := by
  obtain ⟨told, cut, last, isLog, ran, restarted, computed, repeats⟩ := persists
  refine ⟨told ++ signals, cut, last, ?_, same.trans ran, ?_, ?_, repeats.keep extended⟩
  · rw [log, isLog, List.append_assoc]
  · rw [restarts_append, silent.1, restarted, List.append_nil]
  · rw [computes_append, silent.2, computed, Nat.add_zero]

theorem Persists.begin (registry : Registry κ ν φ) (key : κ) (round : Round κ ν φ)
    (unique : roots.Nodup) : Persists registry key round [] (round.begin roots).1 := by
  have silent : Silent key (roots.map fun root =>
      if round.isIdle root then (Signal.start root : Signal κ φ) else .finish root .cacheHit) := by
    refine silent_of_callbacks ?_
    rw [callbacks_begun unique]
    split
    · refine .inr ⟨_, rfl, ?_⟩
      split <;> exact ⟨rfl, rfl⟩
    · exact .inl rfl
  exact ⟨_, [], [], round.log_begin unique, rfl, silent.1, silent.2, nofun, List.nodup_nil, nofun,
    Nat.zero_le 1, fun some => absurd rfl some, fun _ _ => .inl rfl⟩

theorem Persists.step (persists : Persists registry key round moves before)
    (retains : Retains registry moves before) (sound : Sound registry before ready)
    (member : stepped ∈ ready) :
    Persists registry key round (moves ++ [.step before stepped])
      (before.step registry stepped).1 := by
  obtain ⟨work, effect, signals, found, report, logged⟩ := sound.reported member
  have extended := logged.toMoved.extends found
  have ran := report.ran?_eq logged.toMoved
  by_cases same : stepped = key
  · subst same
    have busy : before.isIdle stepped = false := Node.not_idle_of_work (by simp [found])
    rcases report.trial busy with
      ⟨notRun, silent⟩ | ⟨function, attempt, outcome, registered, run, isRun, once, ends⟩
    · refine persists.quiet logged.log silent ?_ extended
      rw [runsOf_step, if_pos rfl, ran, notRun]
      exact List.append_nil _
    · obtain ⟨told, cut, last, log, runs, restarted, computed, repeats⟩ := persists
      obtain rfl : last = [] := by
        by_contra some
        have settled := repeats.final some
        rw [isSettled, Node.not_settled_of_work (by simp [found])] at settled
        cases settled
      have supplied : ∀ earlier ∈ cut, ∀ dependency ∈ earlier.missing,
          before.isSettled dependency = true := by
        intro earlier isCut
        have isEarlier : earlier ∈ runsOf registry stepped moves := by
          rw [runs]
          exact List.mem_append_left [] isCut
        obtain ⟨moment, isMove, wasRun⟩ := mem_runsOf.mp isEarlier
        exact retains.settled sound.waiting member isMove wasRun
      have log : (before.step registry stepped).1.log.toList =
          round.log.toList ++ (told ++ signals) := by
        rw [logged.log, log, List.append_assoc]
      have runs : runsOf registry stepped (moves ++ [.step before stepped]) = cut ++ [attempt] := by
        rw [runsOf_step, if_pos rfl, ran, isRun, runs, List.append_nil]
        rfl
      have computed : computes stepped (told ++ signals) = (cut ++ [attempt]).length := by
        rw [computes_append, computed, once]
        simp
      rcases ends with ⟨settled, nothing⟩ | ⟨lacking, missed⟩
      · refine ⟨_, cut, [attempt], log, runs, ?_, computed,
          repeats.finish extended (logged.self.isSettled.trans settled) attempt⟩
        rw [restarts_append, restarted, nothing, List.append_nil]
      · refine ⟨_, cut ++ [attempt], [], log, runs.trans (List.append_nil _).symm, ?_, ?_,
          .restart run repeats registered supplied lacking extended⟩
        · rw [restarts_append, restarted, missed, List.map_append]
          rfl
        · rw [computed, List.append_nil]
  · refine persists.quiet logged.log (silent_of_callbacks ?_) ?_ extended
    · rw [report.callbacks_other (Ne.symm same)]
      split
      · exact .inr ⟨_, rfl, rfl, rfl⟩
      · exact .inl rfl
    · rw [runsOf_step, if_neg same, List.append_nil]

theorem Persists.unblock (persists : Persists registry key round moves before)
    (waiting : Waiting before []) :
    Persists registry key round (moves ++ [.unblock before]) (before.breakDeadlock roots).1 := by
  refine persists.quiet (before.log_breakDeadlock waiting roots) (silent_of_callbacks ?_)
    runsOf_unblock (extends_breakDeadlock waiting roots)
  rw [callbacks_breakSignals (Digraph.nodup_cyclicComponents (closed_waits roots waiting))]
  split
  · exact .inr ⟨_, rfl, rfl, rfl⟩
  · exact .inl rfl

theorem Closes.persists {final : Round κ ν φ} {halt : Halt}
    (closes : Closes registry roots round moves final halt) (unique : roots.Nodup)
    (rested : Rested round.graph) (key : κ) : Persists registry key round moves final := by
  have kept := closes.invariant
    (fun moves now => Retains registry moves now ∧ Persists registry key round moves now)
    ?step ?unblock unique rested ?begin
  case begin => exact ⟨fun _ _ _ isMove => (nomatch isMove), .begin registry key round unique⟩
  case step =>
    exact fun sound member found progress moved kept =>
      ⟨kept.1.step sound member found progress moved, kept.2.step kept.1 sound member⟩
  case unblock =>
    exact fun sound kept => ⟨kept.1.unblock sound, kept.2.unblock sound.waiting⟩
  rcases kept with ⟨_, persists⟩ | ⟨last, left, sound, ⟨_, persists⟩, rfl⟩
  · exact persists
  · have log : last.rollBack.log.toList = last.log.toList ++ [] := (List.append_nil _).symm
    exact persists.quiet log ⟨rfl, rfl⟩ rfl (extends_rollBack sound.toInOrder)

end Persists

/-- The repetitions of runs of the key's function come to an end. What a run
missed is not missed again, and a function that follows a plan is run again at
most once for each group. -/
structure Terminates (registry : Registry κ ν φ) (key : κ) (moves : List (Move κ ν φ))
    (told : List (Signal κ φ)) : Prop where
  lacking : ∀ missing ∈ restarts key told, missing ≠ []
  unique : ∀ missing ∈ restarts key told, missing.Nodup
  disjoint : (restarts key told).Pairwise List.Disjoint
  missed : restarts key told <+: (runsOf registry key moves).map Attempt.missing
  counted : computes key told = (runsOf registry key moves).length
  bounded : computes key told ≤ 1 + (distinct ((runsOf registry key moves).flatMap fun attempt =>
    attempt.requested.keys)).length
  planned : ∀ plan, registry.Follows key plan →
      restarts key told = [] ∨ ∃ attempt ∈ runsOf registry key moves,
        (restarts key told).length ≤ attempt.requested.groupCount ∧
          ∃ groups, groups.Sublist attempt.requested.groups ∧
            List.Forall₂ (· ⊆ ·) (restarts key told) groups

theorem Persists.terminates (persists : Persists registry key round moves now) :
    ∃ signals, now.log.toList = round.log.toList ++ signals ∧
      Terminates registry key moves signals := by
  obtain ⟨signals, cut, last, log, runs, restarted, computed, repeats⟩ := persists
  obtain ⟨unique, disjoint⟩ := List.nodup_flatMap.mp repeats.unique
  refine ⟨signals, log, ?lacking, ?unique, ?disjoint, ?missed, computed.trans (runs ▸ rfl),
    ?bounded, ?planned⟩
  case lacking =>
    rw [restarted, List.forall_mem_map]
    exact repeats.lacking
  case unique =>
    rw [restarted, List.forall_mem_map]
    exact unique
  case disjoint =>
    rw [restarted, List.pairwise_map]
    exact disjoint
  case missed =>
    rw [restarted, runs, List.map_append]
    exact List.prefix_append ..
  case bounded =>
    rw [computed, runs]
    exact repeats.length_le
  case planned =>
    intro plan follows
    rw [restarted, runs]
    refine (repeats.planned plan follows).imp (congrArg (List.map Attempt.missing)) ?_
    rintro ⟨latest, isCut, _, groups, sublist, each⟩
    refine ⟨latest, List.mem_append_left last isCut, ?_, groups, sublist, each⟩
    rw [each.length_eq, ← Grouping.length_groups]
    exact sublist.length_le

end Round

end MemoGraph
