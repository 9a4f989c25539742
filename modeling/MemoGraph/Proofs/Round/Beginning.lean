import MemoGraph.Proofs.Round.Waiting
import MemoGraph.Round.Schedule

namespace MemoGraph.Round

variable {κ ν φ : Type} [Key κ] {round : Round κ ν φ}

/-- What `begin` makes of a round, for distinct roots. -/
structure Begun (before : Round κ ν φ) (roots : List κ) (after : Round κ ν φ)
    (ready : List κ) : Prop where
  nodes : ∀ other, after.graph.nodeAt other =
    if other ∈ roots then (before.graph.nodeAt other).taken else before.graph.nodeAt other
  keys : ∀ other, other ∈ after.graph.keys ↔ other ∈ roots ∨ other ∈ before.graph.keys
  started : after.started.toList =
    before.started.toList ++ roots.filter fun key => (before.graph.nodeAt key).isIdle
  context : SameContext before after
  ready : ready = roots.filter fun key => (before.graph.nodeAt key).isIdle

theorem begin_spec {roots : List κ} (unique : roots.Nodup) :
    Begun round roots (round.begin roots).1 (round.begin roots).2 := by
  induction roots generalizing round with
  | nil => exact ⟨fun _ => by simp [begin], fun _ => by simp [begin], by simp [begin],
      .refl round, rfl⟩
  | cons root rest ih =>
      obtain ⟨fresh, restUnique⟩ := List.nodup_cons.mp unique
      obtain ⟨middle, graph, started, context, steps⟩ : ∃ middle : Round κ ν φ,
          middle.graph = (round.start root).1.graph ∧
          middle.started = (round.start root).1.started ∧
          SameContext round middle ∧ round.begin (root :: rest) =
            ((middle.begin rest).1,
              ([root].filter fun key => (round.graph.nodeAt key).isIdle) ++
                (middle.begin rest).2) := by
        have context := round.sameContext_start root
        have found := round.start_snd root
        rw [begin]
        generalize round.start root = begun at context found ⊢
        obtain ⟨middle, idle⟩ := begun
        simp only at found
        cases idle with
        | true => exact ⟨middle, rfl, rfl, context, by simp [← found]⟩
        | false =>
            exact ⟨middle.tell (.finish root .cacheHit), rfl, rfl,
              context.trans ⟨rfl, rfl, rfl, rfl⟩, by simp [← found]⟩
      have nodes : ∀ other, middle.graph.nodeAt other =
          if other = root then (round.graph.nodeAt root).taken else round.graph.nodeAt other :=
        fun other => by rw [graph, nodeAt_start]
      have same : ∀ other ∈ rest, middle.graph.nodeAt other = round.graph.nodeAt other := by
        intro other member
        rw [nodes, if_neg]
        rintro rfl
        exact fresh member
      have idle : (rest.filter fun key => (middle.graph.nodeAt key).isIdle) =
          rest.filter fun key => (round.graph.nodeAt key).isIdle :=
        List.filter_congr fun other member => by rw [same other member]
      have begun := @ih middle restUnique
      rw [steps]
      constructor
      case nodes =>
        intro other
        rw [begun.nodes]
        by_cases inRest : other ∈ rest
        · simp [inRest, same other inRest]
        · rw [if_neg inRest, nodes]
          by_cases isRoot : other = root
          · simp [isRoot]
          · simp [isRoot, inRest]
      case keys =>
        intro other
        rw [begun.keys, graph, mem_keys_start, List.mem_cons]
        tauto
      case started =>
        rw [begun.started, started, started_start, idle, List.append_assoc, ← List.filter_append]
        rfl
      case context => exact context.trans begun.context
      case ready => rw [begun.ready, idle, ← List.filter_append]; rfl

/-- No key of the graph is worked on. -/
def Rested (graph : Graph κ ν φ) : Prop := ∀ key, (graph.nodeAt key).work = none

theorem Rested.isSettled {key : κ} (rested : Rested round.graph)
    (busy : round.isIdle key = false) : round.isSettled key = true := by
  rw [isIdle, Node.isIdle_eq_false_iff, rested key] at busy
  exact busy.resolve_left Bool.false_ne_true

section Rested

variable {after : Round κ ν φ} {roots ready : List κ} (begun : Begun round roots after ready)
  (rested : Rested round.graph)
include begun rested

/-- A key that is taken up first waits for nothing, and nobody waits for it. -/
theorem Begun.work (other : κ) : (after.graph.nodeAt other).work = none ∨
    (other ∈ ready ∧ ∃ phase, (after.graph.nodeAt other).work = some { phase }) := by
  rw [begun.nodes, begun.ready, List.mem_filter]
  by_cases isRoot : other ∈ roots
  · rw [if_pos isRoot]
    cases idle : (round.graph.nodeAt other).isIdle with
    | true =>
        obtain ⟨phase, _, taken⟩ := Node.taken_of_idle idle
        exact .inr ⟨⟨isRoot, rfl⟩, phase, by rw [taken]⟩
    | false =>
        rw [Node.taken_of_not_idle idle]
        exact .inl (rested other)
  · rw [if_neg isRoot]
    exact .inl (rested other)

theorem Begun.mem_ready (other : κ) : other ∈ ready ↔ after.isEvaluating other = true := by
  rw [isEvaluating_eq]
  constructor
  · intro member
    rw [begun.ready, List.mem_filter] at member
    obtain ⟨phase, _, taken⟩ := Node.taken_of_idle member.2
    rw [begun.nodes, if_pos member.1, taken]
    rfl
  · intro evaluating
    rcases begun.work rested other with free | ⟨member, _⟩
    · simp [free] at evaluating
    · exact member

theorem Begun.waiting (unique : roots.Nodup) : Waiting after ready := by
  have nothing : ∀ other, after.pending other = 0 ∧ after.batch other = [] ∧
      after.waiters other = [] := by
    intro other
    unfold pending batch waiters
    rcases begun.work rested other with free | ⟨_, phase, found⟩
    · simp [free]
    · simp [found]
  constructor
  case ready_nodup =>
    rw [begun.ready]
    exact unique.filter _
  case mem_ready =>
    intro other
    rw [begun.mem_ready rested, (nothing other).1]
    simp
  case started =>
    intro other evaluating
    rw [begun.started, ← begun.ready]
    exact List.mem_append_right _ ((begun.mem_ready rested other).mpr evaluating)
  case batch_nodup =>
    intro other
    rw [(nothing other).2.1]
    exact List.nodup_nil
  case batch_busy =>
    intro other dependency inBatch
    simp [(nothing other).2.1] at inBatch
  case waiters_busy =>
    intro other waiter isWaiter
    simp [(nothing other).2.2] at isWaiter
  case pending_eq =>
    intro other _
    rw [(nothing other).1, (nothing other).2.1]
    rfl
  case listed =>
    intro other dependency _ _
    rw [(nothing dependency).2.2, (nothing other).2.1]
    rfl

end Rested

end MemoGraph.Round
