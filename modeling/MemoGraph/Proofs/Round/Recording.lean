import MemoGraph.Proofs.Round.Effects

namespace MemoGraph

namespace Node

variable {κ ν φ : Type} {node : Node κ ν φ}

section Commit

variable [BEq ν] {version : Version} {result : Result κ ν φ} {dependencies : Grouping κ}

/-- The result that a node has once it was given one: a value equal to the
remembered one leaves that in place. -/
def committed (node : Node κ ν φ) (result : Result κ ν φ) : Result κ ν φ :=
  if node.keeps result then node.memo.result?.getD result else result

theorem commit_eq :
    node.commit version result dependencies =
      { node with
        memo := .valid (node.committed result)
        dependencies
        lastChanged := if node.keeps result then node.lastChanged else version
        lastEvaluated := version
        work := none } := rfl

theorem commit_dependencies :
    (node.commit version result dependencies).dependencies = dependencies := rfl

theorem commit_result? :
    (node.commit version result dependencies).result? = some (node.committed result) := rfl

theorem committed_error {failure : Failure κ φ} :
    node.committed (.error failure) = .error failure := rfl

theorem eq_error_of_committed {failure : Failure κ φ}
    (committed : node.committed result = .error failure) : result = .error failure := by
  cases result with
  | error other => exact committed
  | ok value =>
      unfold Node.committed at committed
      split at committed
      · rename_i kept
        unfold keeps at kept
        split at kept
        · split at kept
          · rename_i old
            rw [old] at committed
            cases committed
          · cases kept
        · cases kept
      · cases committed

theorem result?_of_keeps (kept : node.keeps result = true) :
    node.memo.result? = some (node.committed result) := by
  unfold committed
  rw [kept, if_pos rfl]
  unfold keeps at kept
  split at kept
  · split at kept
    · rename_i found
      simp [found]
    · cases kept
  · cases kept

end Commit

end Node

namespace Round

variable {κ ν φ : Type} [Key κ] {round : Round κ ν φ}

def waiters (round : Round κ ν φ) (key : κ) : List κ :=
  ((round.graph.nodeAt key).work.map Work.waiters).getD []

/-- What `record` makes of a round for a key with a node: only the key itself
gets a result, and only edges at the key are changed elsewhere. -/
structure Recorded [BEq ν] (before : Round κ ν φ) (key : κ) (result : Result κ ν φ)
    (dependencies : Grouping κ) (after : Round κ ν φ) (waiters : List κ) : Prop where
  nodes : ∀ other, after.graph.nodeAt other =
    (if other = key then (before.graph.nodeAt key).commit before.version result dependencies
      else before.graph.nodeAt other).relinked key
      (decide (other ∈ (before.graph.nodeAt key).dependencies)) (decide (other ∈ dependencies))
  keys : ∀ other, other ∈ after.graph.keys ↔
    (other ∈ dependencies ∧ other ∉ (before.graph.nodeAt key).dependencies) ∨
      other ∈ before.graph.keys
  started : after.started = before.started
  version : after.version = before.version
  transient : after.transient =
    if isTransient result then before.transient.push key else before.transient
  interrupted : after.interrupted = before.interrupted
  runs : after.runs = before.runs
  waiters : waiters = before.waiters key

theorem record_spec [BEq ν] {key : κ} (known : key ∈ round.graph.keys) (result : Result κ ν φ)
    (dependencies : Grouping κ) (events : List (Event κ)) :
    Recorded round key result dependencies (round.record key result dependencies events).1
      (round.record key result dependencies events).2 := by
  constructor
  case nodes =>
    intro other
    show ((round.graph.update key _).relink key (round.graph.nodeAt key).dependencies
      dependencies).nodeAt other = _
    rw [Graph.nodeAt_relink, Graph.nodeAt_update known]
  case keys =>
    intro other
    show other ∈ ((round.graph.update key _).relink key (round.graph.nodeAt key).dependencies
      dependencies).keys ↔ _
    rw [Graph.mem_keys_relink, Graph.mem_keys_update]
  all_goals rfl

theorem revalidate_spec (key : κ) :
    ∃ middle : Round κ ν φ, round.revalidate key = middle.wake (round.waiters key) ∧
      middle.graph = round.graph.update key (·.revalidate round.version) ∧
      middle.started = round.started ∧ SameContext round middle := by
  unfold revalidate
  rw [Graph.work_eq]
  exact ⟨_, rfl, rfl, rfl, ⟨rfl, rfl, rfl, rfl⟩⟩

/-- What comparing a group makes of a round: the key goes on with its function
if anything changed, and with the next group otherwise. -/
theorem compare_spec (key : κ) (group : Nat) (dependencies : List κ) (since : Version) :
    (round.compare key group dependencies since).1.graph =
        round.graph.updateWork key (fun work =>
          { work with
            batch := []
            phase := if dependencies.any (round.changedSince since) then .computing
              else .checking (group + 1) false }) ∧
      (round.compare key group dependencies since).1.started = round.started ∧
      SameContext round (round.compare key group dependencies since).1 ∧
      (round.compare key group dependencies since).2 = [key] := by
  unfold compare
  cases dependencies.any (round.changedSince since) <;>
    exact ⟨rfl, rfl, ⟨rfl, rfl, rfl, rfl⟩, rfl⟩

end Round

end MemoGraph
