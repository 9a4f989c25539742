import MemoGraph.Proofs.Round.Fates

namespace MemoGraph

/-! How often a key is run and given a result.

Of all that is told of a key, its deeds are the runs of its function and the
results that it is given. While the version stays, a key without a result may
only be run, until it is given one, and a key with a result has no more deeds.
-/

variable {κ ν φ : Type}

section Deeds

variable [DecidableEq κ] {key other : κ} {signals more : List (Signal κ φ)}

/-- Whether the signal tells that the function of the key runs, or that the key
is given a result. A result that was valid from the start is none of these. -/
def Signal.isDeed (key : κ) : Signal κ φ → Bool
  | .finish _ .cacheHit => false
  | .compute other _ | .finish other _ => decide (other = key)
  | _ => false

def deeds (key : κ) (signals : List (Signal κ φ)) : List (Signal κ φ) :=
  signals.filter (Signal.isDeed key)

@[simp] theorem deeds_append : deeds key (signals ++ more) = deeds key signals ++ deeds key more :=
  List.filter_append ..

theorem Signal.concerns_of_isDeed {signal : Signal κ φ} (deed : signal.isDeed key = true) :
    signal.concerns key = true := by
  cases signal with
  | finish other ending => cases ending <;> simp_all [isDeed, concerns]
  | compute => exact deed
  | _ => cases deed

theorem deeds_story : deeds key (story key signals) = deeds key signals := by
  unfold deeds story
  rw [List.filter_filter]
  refine List.filter_congr fun signal _ => ?_
  cases deed : signal.isDeed key with
  | false => rfl
  | true => rw [Signal.concerns_of_isDeed deed]; rfl

theorem deeds_finish {ending : Ending κ φ} (given : ending ≠ .cacheHit) :
    deeds key [.finish key ending] = [.finish key ending] := by
  cases ending <;> simp_all [deeds, Signal.isDeed]

end Deeds

/-- What is done for a key while its result changes as said: it is run any
number of times, is given a result in the end, and then left alone. -/
inductive Chronicle (key : κ) :
    Option (Result κ ν φ) → List (Signal κ φ) → Option (Result κ ν φ) → Prop
  | kept (result : Result κ ν φ) : Chronicle key (some result) [] (some result)
  | unfinished (runs : List Nat) : Chronicle key none (runs.map (.compute key)) none
  | finished (runs : List Nat) (ending : Ending κ φ) (given : ending ≠ .cacheHit)
      (result : Result κ ν φ) :
      Chronicle key none (runs.map (.compute key) ++ [.finish key ending]) (some result)

namespace Chronicle

variable {key : κ} {before middle after : Option (Result κ ν φ)}
  {first second : List (Signal κ φ)}

theorem idle (result : Option (Result κ ν φ)) :
    Chronicle key result ([] : List (Signal κ φ)) result := by
  cases result with
  | none => exact .unfinished []
  | some result => exact .kept result

theorem trans (left : Chronicle key before first middle) (right : Chronicle key middle second after) :
    Chronicle key before (first ++ second) after := by
  cases left with
  | kept result =>
      cases right
      exact .kept result
  | unfinished runs =>
      cases right with
      | unfinished more =>
          rw [← List.map_append]
          exact .unfinished (runs ++ more)
      | finished more ending given result =>
          rw [← List.append_assoc, ← List.map_append]
          exact .finished (runs ++ more) ending given result
  | finished runs ending given result =>
      cases right
      rw [List.append_nil]
      exact .finished runs ending given result

theorem of_some {result : Result κ ν φ} (chronicle : Chronicle key (some result) first after) :
    first = [] ∧ after = some result := by
  cases chronicle
  exact ⟨rfl, rfl⟩

end Chronicle

variable [Key κ]

/-- What is told says of each key how its result came from one graph to the other. -/
def Graph.Chronicled (before : Graph κ ν φ) (told : List (Signal κ φ)) (after : Graph κ ν φ) :
    Prop :=
  ∀ key, Chronicle key (before.result? key) (deeds key told) (after.result? key)

theorem Graph.Chronicled.trans {before middle after : Graph κ ν φ} {first second : List (Signal κ φ)}
    (left : before.Chronicled first middle) (right : middle.Chronicled second after) :
    before.Chronicled (first ++ second) after := by
  intro key
  rw [deeds_append]
  exact (left key).trans (right key)

namespace Round

variable {registry : Registry κ ν φ} {roots ready : List κ} {round before after : Round κ ν φ}
  {key : κ}

theorem Tells.chronicled {stories : κ → List (Signal κ φ)} (tells : Tells before after stories)
    (chronicle : ∀ key, Chronicle key (before.graph.result? key) (deeds key (stories key))
      (after.graph.result? key)) :
    ∃ told, after.log.toList = before.log.toList ++ told ∧
      before.graph.Chronicled told after.graph := by
  obtain ⟨told, log, isStory⟩ := tells
  refine ⟨told, log, fun key => ?_⟩
  rw [← deeds_story, isStory]
  exact chronicle key

theorem deeds_begin (unique : roots.Nodup) :
    ∃ told, (round.begin roots).1.log.toList = round.log.toList ++ told ∧
      ∀ key, deeds key told = ([] : List (Signal κ φ)) := by
  obtain ⟨told, log, isStory⟩ := round.tells_begin unique
  refine ⟨told, log, fun key => ?_⟩
  rw [← deeds_story, isStory]
  dsimp only
  split
  · split <;> rfl
  · rfl

variable [BEq ν]

section Step

variable {work : Work κ φ} {effect : Effect κ ν φ} {own : List (Signal κ φ)}

theorem Account.chronicle (account : Account registry before key work effect own)
    (found : (before.graph.nodeAt key).work = some work)
    (underway : (before.graph.nodeAt key).Underway) :
    Chronicle key none (deeds key own) effect.own.result? := by
  have unsettled : (before.graph.nodeAt key).result? = none :=
    Node.result?_of_work (by simp [found])
  cases account with
  | check group awaiting phase asked change requested =>
      rw [Node.updateWork_result?, unsettled]
      exact .unfinished []
  | revalidate group awaiting phase finished =>
      obtain ⟨old, memo⟩ := (underway work found).2 group awaiting phase
      have result : ((before.graph.nodeAt key).revalidate before.version).result? = some old := by
        simp [Node.revalidate, Node.result?, memo, Memo.result?]
      rw [result, deeds_finish (by simp)]
      exact .finished [] _ (by simp) old
  | restart phase asked change samePhase attempt =>
      rw [Node.updateWork_result?, unsettled]
      simpa [deeds, Signal.isDeed] using Chronicle.unfinished [work.attempts]
  | compute phase result dependencies run ran =>
      have given := Ending.ofResult_ne_cacheHit ((before.graph.nodeAt key).keeps result) result
      rw [Node.commit_result?, deeds_append, deeds_finish given]
      cases run with
      | none => exact .finished [] _ given _
      | some attempt =>
          simpa [deeds, Signal.isDeed] using Chronicle.finished [work.attempts] _ given _

theorem Sound.step_chronicled (sound : Sound registry before ready) (member : key ∈ ready) :
    ∃ told, (before.step registry key).1.log.toList = before.log.toList ++ told ∧
      before.graph.Chronicled told (before.step registry key).1.graph := by
  obtain ⟨work, _, found, free, _⟩ := sound.moved member registry
  obtain ⟨effect, own, account, moved, tells⟩ := step_accounted registry found free
  refine tells.chronicled fun other => ?_
  rw [Graph.result?_eq, Graph.result?_eq]
  by_cases same : other = key
  · subst same
    have unsettled : (before.graph.nodeAt other).result? = none :=
      Node.result?_of_work (by simp [found])
    rw [if_pos rfl, unsettled, moved.self.result?]
    exact account.chronicle found (sound.underway other)
  · have quiet : deeds other (if other ∈ effect.asked.filter before.isIdle then [.start other]
        else [] : List (Signal κ φ)) = [] := by
      split <;> rfl
    have result : ((before.step registry key).1.graph.nodeAt other).result? =
        (before.graph.nodeAt other).result? := by
      rcases moved.other same with alike | ⟨_, idle, phase, _, alike⟩
      · exact alike.result?
      · rw [alike.result?, (Node.isIdle_iff.mp idle).2]
        exact Node.result?_of_work rfl
    rw [if_neg same, quiet, result]
    exact .idle _

theorem breakDeadlock_chronicled (waiting : Waiting before []) (roots : List κ) :
    ∃ told, (before.breakDeadlock roots).1.log.toList = before.log.toList ++ told ∧
      before.graph.Chronicled told (before.breakDeadlock roots).1.graph := by
  refine (before.tells_breakDeadlock waiting roots).chronicled fun key => ?_
  rw [Graph.result?_eq, Graph.result?_eq]
  cases unblocked_breakDeadlock waiting roots key with
  | failed path broken _ alike =>
      have evaluating := ((mem_broken roots waiting).mp broken).1
      obtain ⟨component, _, story⟩ := exists_cycleStory_of_mem
        (Digraph.nodup_cyclicComponents (closed_waits roots waiting)) broken
      have deed : deeds key [.cycle component, .finish key .cycleDetected] =
          [(.finish key .cycleDetected : Signal κ φ)] := by
        simp [deeds, Signal.isDeed]
      rw [isEvaluating_eq] at evaluating
      rw [story, deed, Node.result?_of_work evaluating, alike.result?, Node.commit_result?]
      exact .finished [] .cycleDetected (by simp) _
  | spared whole alike =>
      rw [cycleStory_of_not_mem whole, alike.result?]
      exact .idle _

end Step

end Round

end MemoGraph
