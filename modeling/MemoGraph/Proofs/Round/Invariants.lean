import MemoGraph.Proofs.Round.Traces

namespace MemoGraph

/-- A round at the given version takes the property from no node, whoever needs
the node and whatever work on it is under way. -/
structure Node.Stays {κ ν φ : Type} [BEq ν] (version : Version) (holds : Node κ ν φ → Prop) :
    Prop where
  bare : ∀ {node other : Node κ ν φ}, node.bare = other.bare → holds other → holds node
  commit : ∀ {node : Node κ ν φ} (result : Result κ ν φ) (dependencies : Grouping κ), holds node →
    holds (node.commit version result dependencies)
  revalidate : ∀ {node : Node κ ν φ} {result : Result κ ν φ}, node.memo = .dirty result →
    holds node → holds (node.revalidate version)

namespace Round

variable {κ ν φ : Type} [Key κ] {round final before after : Round κ ν φ} {roots ready : List κ}
  {key : κ}

theorem Begun.bare (begun : Begun before roots after ready) (key : κ) :
    (after.graph.nodeAt key).bare = (before.graph.nodeAt key).bare := by
  rw [begun.nodes]
  split
  · exact Node.bare_taken
  · rfl

theorem Begun.result? (begun : Begun before roots after ready) (key : κ) :
    after.graph.result? key = before.graph.result? key := by
  rw [Graph.result?_eq, Graph.result?_eq, begun.nodes]
  split
  · cases idle : (before.graph.nodeAt key).isIdle with
    | false => rw [Node.taken_of_not_idle idle]
    | true =>
        obtain ⟨phase, _, taken⟩ := Node.taken_of_idle idle
        rw [(Node.isIdle_iff.mp idle).2, taken, Node.result?_of_work rfl]
  · rfl

theorem bare_rollBack (inOrder : InOrder before ready) (key : κ) :
    (before.rollBack.graph.nodeAt key).bare = (before.graph.nodeAt key).bare := by
  rw [nodeAt_rollBack_of_waiting inOrder.waiting]
  rfl

theorem Begun.extends (begun : Begun before roots after ready) :
    before.graph.Extends after.graph := by
  intro key settled
  rw [begun.nodes, Node.taken_of_not_idle (Node.not_idle_of_settled settled), ite_self]
  exact .refl _

theorem extends_rollBack (inOrder : InOrder before ready) :
    before.graph.Extends before.rollBack.graph := by
  intro key settled
  rw [nodeAt_rollBack_of_waiting inOrder.waiting]
  have free := (Node.isSettled_iff.mp settled).1
  exact .of_fields rfl rfl rfl rfl rfl (by rw [free]; rfl)

variable [BEq ν] {registry : Registry κ ν φ} {halt : Halt}

theorem extends_breakDeadlock (waiting : Waiting before []) (roots : List κ) :
    before.graph.Extends (before.breakDeadlock roots).1.graph :=
  (failed_breakDeadlock waiting roots).extends fun _ => evaluating_of_cycleFailuresAt waiting

/-- What no move of a round takes away holds however the round ends. -/
theorem Ends.invariant (holds : Round κ ν φ → Prop)
    (ends : Ends registry roots round final halt) (unique : roots.Nodup)
    (rested : Rested round.graph)
    (begin : ∀ {after : Round κ ν φ} {ready : List κ}, Begun round roots after ready →
      holds round → holds after)
    (step : ∀ {before after : Round κ ν φ} {ready : List κ} {key : κ} {work : Work κ φ}
      {effect : Effect κ ν φ}, Sound registry before ready → key ∈ ready →
        (before.graph.nodeAt key).work = some work → Progress registry before key work effect →
          Moved before after key effect → holds before → holds after)
    (unblock : ∀ {before : Round κ ν φ}, Sound registry before [] → holds before →
      holds (before.breakDeadlock roots).1)
    (rollBack : ∀ {before : Round κ ν φ} {ready : List κ}, Sound registry before ready →
      holds before → holds before.rollBack)
    (start : holds round) : holds final := by
  obtain ⟨_, traced⟩ := ends.traced (fun _ _ _ => ()) ()
  exact traced.invariant (fun now _ => holds now) step unblock unique rested begin rollBack start

theorem InOrder.extends {base : Graph κ ν φ} {now : Round κ ν φ × List κ}
    (inOrder : InOrder round ready) (moves : Advances registry roots (round, ready) now)
    (kept : base.Extends round.graph) : base.Extends now.1.graph :=
  inOrder.invariant moves
    (fun _ _ found _ moved kept => Graph.Extends.trans kept (moved.extends found))
    (fun order kept => Graph.Extends.trans kept (extends_breakDeadlock order.waiting roots)) kept

theorem Ends.extends (ends : Ends registry roots round final halt) (unique : roots.Nodup)
    (rested : Rested round.graph) : round.graph.Extends final.graph :=
  ends.invariant (fun now => round.graph.Extends now.graph) unique rested
    (fun begun kept => kept.trans begun.extends)
    (fun _ _ found _ moved kept => kept.trans (moved.extends found))
    (fun sound kept => kept.trans (extends_breakDeadlock sound.waiting roots))
    (fun sound kept => kept.trans (extends_rollBack sound.toInOrder)) (.refl _)

section Stays

variable {holds : Node κ ν φ → Prop} {work : Work κ φ} {effect : Effect κ ν φ}

theorem Progress.stays (progress : Progress registry before key work effect)
    (stays : Node.Stays before.version holds)
    (found : (before.graph.nodeAt key).work = some work)
    (underway : (before.graph.nodeAt key).Underway) (held : holds (before.graph.nodeAt key)) :
    holds effect.own := by
  cases progress with
  | await | compare | restart => exact stays.bare (Node.bare_updateWork _) held
  | revalidate group awaiting phase finished =>
      obtain ⟨result, memo⟩ := (underway work found).2 group awaiting phase
      exact stays.revalidate memo held
  | fail | refuse | finish => exact stays.commit _ _ held

theorem Progress.injected (progress : Progress registry before key work effect) :
    effect.own.injected = (before.graph.nodeAt key).injected := by
  cases progress <;> rfl

/-- What holds of a node before a round, and what no result takes from it, holds
of it after the round. -/
theorem Ends.stays (ends : Ends registry roots round final halt) (unique : roots.Nodup)
    (rested : Rested round.graph) (stays : Node.Stays round.version holds)
    (held : holds (round.graph.nodeAt key)) : holds (final.graph.nodeAt key) := by
  refine (ends.invariant (fun now => now.version = round.version ∧
    holds (now.graph.nodeAt key)) unique rested ?begin ?step ?unblock ?rollBack ⟨rfl, held⟩).2
  case begin =>
    rintro after ready begun ⟨version, held⟩
    exact ⟨begun.context.version.trans version, stays.bare (begun.bare key) held⟩
  case step =>
    rintro before after ready other work effect sound _ found progress moved ⟨version, held⟩
    refine ⟨moved.version.trans version, ?_⟩
    by_cases same : key = other
    · subst same
      exact stays.bare moved.self.bare
        (progress.stays (version ▸ stays) found (sound.underway key) held)
    · exact stays.bare (moved.other_bare same).1 held
  case unblock =>
    rintro before sound ⟨version, held⟩
    refine ⟨(failed_breakDeadlock sound.waiting roots).version.trans version, ?_⟩
    cases unblocked_breakDeadlock sound.waiting roots key with
    | failed _ _ _ alike =>
        rw [← version] at stays
        exact stays.bare alike.bare (stays.commit _ _ held)
    | spared _ alike => exact stays.bare alike.bare held
  case rollBack =>
    rintro before ready sound ⟨version, held⟩
    exact ⟨version, stays.bare (bare_rollBack sound.toInOrder key) held⟩

end Stays

end Round

end MemoGraph
