import MemoGraph.Proofs.Round.Beginning
import MemoGraph.Proofs.Round.Deadlocks

namespace MemoGraph

variable {κ ν φ : Type}

namespace Node

variable {node : Node κ ν φ}

/-- The runs that were cut short; none for a key that is not worked on. -/
def tries (node : Node κ ν φ) : Nat := (node.work.map Work.attempts).getD 0

theorem tries_of_work {work : Work κ φ} (found : node.work = some work) :
    node.tries = work.attempts := by
  simp [tries, found]

theorem tries_updateWork {change : Work κ φ → Work κ φ}
    (same : ∀ work, (change work).attempts = work.attempts) :
    (node.updateWork change).tries = node.tries := by
  cases found : node.work with
  | none => simp [tries, found]
  | some work => simp [tries, found, same]

theorem tries_taken : node.taken.tries = node.tries := by
  cases idle : node.isIdle with
  | false => rw [taken_of_not_idle idle]
  | true =>
      obtain ⟨phase, _, taken⟩ := taken_of_idle idle
      rw [taken]
      simp [tries, (isIdle_iff.mp idle).1]

theorem tries_joined (waiter : κ) : (node.joined waiter).tries = node.tries := by
  unfold joined
  split
  · rfl
  · exact (tries_updateWork (by intro _; rfl)).trans tries_taken

end Node

namespace Round

variable [Key κ] {round after : Round κ ν φ} {key : κ}

theorem tries_wake (waiters : List κ) (other : κ) :
    ((round.wake waiters).1.graph.nodeAt other).tries = (round.graph.nodeAt other).tries := by
  rw [nodeAt_wake]
  exact Node.tries_updateWork fun _ => rfl

theorem tries_begin {roots ready : List κ} (begun : Begun round roots after ready) (other : κ) :
    (after.graph.nodeAt other).tries = (round.graph.nodeAt other).tries := by
  rw [begun.nodes]
  split
  · exact Node.tries_taken
  · rfl

theorem nodeAt_updateWork (change : Work κ φ → Work κ φ) (other : κ) :
    (round.updateWork key change).graph.nodeAt other =
      if other = key then (round.graph.nodeAt key).updateWork change
      else round.graph.nodeAt other :=
  Graph.nodeAt_updateWork ..

theorem tries_await {dependencies : List κ} (change : Work κ φ → Work κ φ)
    (unique : dependencies.Nodup) (taken : (round.graph.nodeAt key).work.isSome = true)
    (other : κ) :
    (((round.updateWork key change).await key dependencies).1.graph.nodeAt other).tries =
      if other = key then ((round.graph.nodeAt key).updateWork change).tries
      else (round.graph.nodeAt other).tries := by
  have opened : ((round.updateWork key change).graph.nodeAt key).work.isSome = true := by
    rw [nodeAt_updateWork, if_pos rfl, Node.updateWork_work, Option.isSome_map]
    exact taken
  have awaited := (round.updateWork key change).await_spec unique opened
  by_cases same : other = key
  · subst same
    rw [awaited.own, if_pos rfl]
    refine (Node.tries_updateWork (by intro _; rfl)).trans ?_
    rw [nodeAt_updateWork, if_pos rfl]
  · rw [awaited.others other same, if_neg same]
    simp only [nodeAt_updateWork, if_neg same]
    split
    · exact Node.tries_joined key
    · rfl

theorem tries_revalidate (known : key ∈ round.graph.keys) (other : κ) :
    ((round.revalidate key).1.graph.nodeAt other).tries =
      if other = key then 0 else (round.graph.nodeAt other).tries := by
  obtain ⟨middle, woken, graph, _⟩ := round.revalidate_spec key
  rw [woken, tries_wake, graph, Graph.nodeAt_update known]
  split <;> rfl

variable [BEq ν]

theorem tries_commit (known : key ∈ round.graph.keys) (result : Result κ ν φ)
    (dependencies : Grouping κ) (events : List (Event κ)) (other : κ) :
    ((round.commit key result dependencies events).1.graph.nodeAt other).tries =
      if other = key then 0 else (round.graph.nodeAt other).tries := by
  have recorded := round.record_spec known result dependencies events
  have kept : ((round.record key result dependencies events).1.graph.nodeAt other).tries =
      if other = key then 0 else (round.graph.nodeAt other).tries := by
    rw [recorded.nodes]
    split <;> rfl
  exact (tries_wake _ other).trans kept

theorem tries_breakDeadlock (waiting : Waiting round []) (roots : List κ) {other : κ}
    (outside : other ∉ round.broken roots) :
    ((round.breakDeadlock roots).1.graph.nodeAt other).tries =
      (round.graph.nodeAt other).tries := by
  obtain ⟨middle, abandoned, unblocked⟩ := breakDeadlock_spec waiting roots
  rw [← map_key_cycleFailuresAt] at outside
  rw [unblocked, tries_wake, Node.tries, abandoned.work other outside]
  rfl

end Round

end MemoGraph
