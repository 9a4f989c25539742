import MemoGraph.Proofs.Evaluator.Histories
import MemoGraph.Proofs.Round.Confluence

namespace MemoGraph

namespace Round

variable {κ ν φ : Type} [Key κ] {start round before after : Round κ ν φ} {key : κ}

/-- A key of a round had a node before, or is taken up, or is a dependency of a
key that has a result. -/
def Founded (start round : Round κ ν φ) : Prop :=
  (∀ key ∈ start.graph.keys, key ∈ round.graph.keys) ∧
    ∀ key ∈ round.graph.keys, key ∈ start.graph.keys ∨ round.isIdle key = false ∨
      ∃ user, round.isSettled user = true ∧ key ∈ (round.graph.nodeAt user).dependencies

variable [BEq ν] {registry : Registry κ ν φ} {work : Work κ φ} {effect : Effect κ ν φ}

omit [BEq ν] in
theorem Founded.refl (start : Round κ ν φ) : Founded start start :=
  ⟨fun _ known => known, fun _ known => .inl known⟩

omit [BEq ν] in
theorem Founded.extend (founded : Founded start before)
    (extended : before.graph.Extends after.graph)
    (busy : ∀ key, before.isIdle key = false → after.isIdle key = false)
    (kept : ∀ key ∈ before.graph.keys, key ∈ after.graph.keys)
    (fresh : ∀ key ∈ after.graph.keys, key ∈ before.graph.keys ∨ after.isIdle key = false ∨
      ∃ user, after.isSettled user = true ∧ key ∈ (after.graph.nodeAt user).dependencies) :
    Founded start after := by
  refine ⟨fun key known => kept key (founded.1 key known), fun key known => ?_⟩
  rcases fresh key known with earlier | founds
  · refine (founded.2 key earlier).imp_right (.imp (busy key) ?_)
    rintro ⟨user, settled, needs⟩
    have alike := extended user settled
    exact ⟨user, alike.isSettled.trans settled, alike.dependencies ▸ needs⟩
  · exact .inr founds

theorem Founded.step (founded : Founded start before)
    (found : (before.graph.nodeAt key).work = some work)
    (underway : (before.graph.nodeAt key).Underway)
    (progress : Progress registry before key work effect)
    (moved : Moved before after key effect) : Founded start after := by
  have busy := progress.busy found underway
  refine founded.extend (moved.extends found) (fun _ => moved.busy busy)
    (fun other known => (moved.keys other).mpr (.inr (.inr known))) fun other known => ?_
  rcases (moved.keys other).mp known with asked | ⟨needs, news⟩ | earlier
  · exact .inr (.inl (moved.busy_of_asked busy asked))
  · refine .inr (.inr ⟨key, ?_, moved.self.dependencies ▸ needs⟩)
    unfold isSettled
    rw [moved.self.isSettled]
    by_contra unsettled
    have bare := (progress.unsettled found underway (eq_false_of_ne_true unsettled)).1
    have same := congrArg Node.dependencies bare
    exact news (same ▸ needs)
  · exact .inl earlier

theorem Founded.breakDeadlock (founded : Founded start before) (waiting : Waiting before [])
    (roots : List κ) : Founded start (before.breakDeadlock roots).1 := by
  have failed := failed_breakDeadlock waiting roots
  refine founded.extend (failed.extends fun _ => evaluating_of_cycleFailuresAt waiting)
    (fun _ => failed.busy) (fun other known => (failed.keys other).mpr (.inl known))
    fun other known => ?_
  refine ((failed.keys other).mp known).imp_right fun ⟨failure, isFailure, needs, _⟩ => .inr ?_
  have self := failed.self failure isFailure
  exact ⟨failure.key, self.isSettled.trans rfl, self.dependencies ▸ needs⟩

omit [BEq ν] in
/-- Which keys have a node follows from where the round began and from the results. -/
theorem Founded.mem_keys (founded : Founded start round) (linked : round.graph.Linked) :
    key ∈ round.graph.keys ↔ key ∈ start.graph.keys ∨ round.isIdle key = false ∨
      ∃ user, round.isSettled user = true ∧ key ∈ (round.graph.nodeAt user).dependencies := by
  refine ⟨founded.2 key, ?_⟩
  rintro (known | busy | ⟨user, _, needs⟩)
  · exact founded.1 key known
  · exact Graph.mem_keys_of_not_idle busy
  · exact linked.mem_keys needs

theorem Ends.founded {roots : List κ} {final : Round κ ν φ}
    (ends : Ends registry roots round final .complete) (unique : roots.Nodup)
    (rested : Rested round.graph) : Founded (round.begin roots).1 final := by
  cases ends with
  | cached => exact .refl _
  | complete order moves going finished =>
      have inOrder := InOrder.begin unique rested order
      have founded := inOrder.invariant moves
        (fun order _ found progress moved founded =>
          Founded.step founded found (order.underway _) progress moved)
        (fun order founded => Founded.breakDeadlock founded order.waiting roots)
        (Founded.refl (round.begin roots).1)
      exact founded.breakDeadlock (inOrder.advances moves).waiting roots
  | cut _ _ short => exact absurd rfl short

end Round

end MemoGraph
