import MemoGraph.Proofs.Graph.View
import MemoGraph.Round.Step

namespace MemoGraph

/-! What the operations of a round do to each node.

Every operation gets one equation for `nodeAt`, one for the set of keys with a
node and one for each of its other results. The operations are not unfolded
after this.
-/

namespace Node

variable {κ ν φ : Type} {node : Node κ ν φ}

/-- The node once a round has taken it up, if it can. -/
def taken (node : Node κ ν φ) : Node κ ν φ := node.takeUp?.getD node

/-- The node once `waiter` has asked for its result: without one, the node is
taken up and lists the waiter. -/
def joined (waiter : κ) (node : Node κ ν φ) : Node κ ν φ :=
  if node.isSettled then node
  else node.taken.updateWork fun work => { work with waiters := work.waiters ++ [waiter] }

theorem taken_of_not_idle (busy : node.isIdle = false) : node.taken = node := by
  simp [taken, takeUp?_of_not_idle busy]

theorem taken_of_idle (idle : node.isIdle = true) :
    ∃ phase, firstPhase? node.memo = some phase ∧
      node.taken = { node with work := some { phase } } := by
  obtain ⟨taken, found⟩ := Option.isSome_iff_exists.mp idle
  obtain ⟨_, phase, first, rfl⟩ := takeUp?_eq_some_iff.mp found
  exact ⟨phase, first, by simp [Node.taken, found]⟩

theorem not_idle_of_settled (settled : node.isSettled = true) : node.isIdle = false :=
  isIdle_eq_false_iff.mpr (.inr settled)

theorem not_idle_of_work (taken : node.work.isSome = true) : node.isIdle = false :=
  isIdle_eq_false_iff.mpr (.inl taken)

theorem not_idle_taken : node.taken.isIdle = false := by
  cases idle : node.isIdle with
  | true =>
      obtain ⟨phase, _, taken⟩ := taken_of_idle idle
      rw [taken]
      exact not_idle_of_work rfl
  | false => rw [taken_of_not_idle idle, idle]

theorem not_settled_of_work (taken : node.work.isSome = true) : node.isSettled = false := by
  simp [isSettled, result?_of_work taken]

@[simp] theorem updateWork_isSettled (change : Work κ φ → Work κ φ) :
    (node.updateWork change).isSettled = node.isSettled := by
  simp [isSettled]

@[simp] theorem updateWork_isIdle (change : Work κ φ → Work κ φ) :
    (node.updateWork change).isIdle = node.isIdle := by
  rw [Bool.eq_iff_iff, isIdle_iff, isIdle_iff]
  simp

theorem joined_of_settled {waiter : κ} (settled : node.isSettled = true) :
    node.joined waiter = node := by
  simp [joined, settled]

theorem joined_of_work {waiter : κ} (taken : node.work.isSome = true) :
    node.joined waiter =
      node.updateWork fun work => { work with waiters := work.waiters ++ [waiter] } := by
  rw [joined, not_settled_of_work taken, if_neg Bool.false_ne_true,
    taken_of_not_idle (not_idle_of_work taken)]

theorem joined_of_idle (waiter : κ) (idle : node.isIdle = true) :
    ∃ phase, firstPhase? node.memo = some phase ∧
      node.joined waiter = { node with work := some { phase, waiters := [waiter] } } := by
  obtain ⟨phase, first, taken⟩ := taken_of_idle idle
  have unsettled : node.isSettled = false := by simp [isSettled, (isIdle_iff.mp idle).2]
  refine ⟨phase, first, ?_⟩
  rw [joined, unsettled, if_neg Bool.false_ne_true, taken]
  rfl

end Node

namespace Round

variable {κ ν φ : Type} [Key κ] {round : Round κ ν φ}

/-- The rounds differ at most in their nodes, the keys taken up and the log. -/
structure SameContext (before after : Round κ ν φ) : Prop where
  version : after.version = before.version
  transient : after.transient = before.transient
  interrupted : after.interrupted = before.interrupted
  runs : after.runs = before.runs

theorem SameContext.refl (round : Round κ ν φ) : SameContext round round := ⟨rfl, rfl, rfl, rfl⟩

theorem SameContext.trans {first second third : Round κ ν φ} (left : SameContext first second)
    (right : SameContext second third) : SameContext first third :=
  ⟨right.version.trans left.version, right.transient.trans left.transient,
    right.interrupted.trans left.interrupted, right.runs.trans left.runs⟩

section Start

theorem start_busy {key : κ} (busy : (round.graph.nodeAt key).isIdle = false) :
    round.start key = ({ round with graph := round.graph.ensure key }, false) := by
  have known : key ∈ (round.graph.ensure key).keys := Graph.mem_keys_ensure.mpr (.inl rfl)
  unfold start
  simp only
  rw [Graph.node?_of_mem known, Graph.nodeAt_ensure, Option.bind_some,
    Node.takeUp?_of_not_idle busy]

theorem start_idle {key : κ} (idle : (round.graph.nodeAt key).isIdle = true) :
    round.start key =
      (({ round with
          graph := round.graph.ensure key
          started := round.started.push key }.update key
            fun _ => (round.graph.nodeAt key).taken).tell (.start key), true) := by
  have known : key ∈ (round.graph.ensure key).keys := Graph.mem_keys_ensure.mpr (.inl rfl)
  obtain ⟨node, found⟩ := Option.isSome_iff_exists.mp idle
  unfold start
  simp only
  rw [Graph.node?_of_mem known, Graph.nodeAt_ensure, Option.bind_some, Node.taken, found]
  rfl

theorem start_snd (key : κ) : (round.start key).2 = (round.graph.nodeAt key).isIdle := by
  cases idle : (round.graph.nodeAt key).isIdle with
  | true => rw [start_idle idle]
  | false => rw [start_busy idle]

theorem nodeAt_start (key other : κ) :
    (round.start key).1.graph.nodeAt other =
      if other = key then (round.graph.nodeAt key).taken else round.graph.nodeAt other := by
  cases idle : (round.graph.nodeAt key).isIdle with
  | true =>
      rw [start_idle idle]
      show ((round.graph.ensure key).update key _).nodeAt other = _
      rw [Graph.nodeAt_update (Graph.mem_keys_ensure.mpr (.inl rfl)), Graph.nodeAt_ensure]
  | false =>
      rw [start_busy idle, Node.taken_of_not_idle idle]
      show (round.graph.ensure key).nodeAt other = _
      rw [Graph.nodeAt_ensure]
      split
      · rename_i same
        rw [same]
      · rfl

theorem mem_keys_start {key other : κ} :
    other ∈ (round.start key).1.graph.keys ↔ other = key ∨ other ∈ round.graph.keys := by
  cases idle : (round.graph.nodeAt key).isIdle with
  | true =>
      rw [start_idle idle]
      show other ∈ ((round.graph.ensure key).update key _).keys ↔ _
      rw [Graph.mem_keys_update, Graph.mem_keys_ensure]
  | false =>
      rw [start_busy idle]
      exact Graph.mem_keys_ensure

theorem started_start (key : κ) :
    (round.start key).1.started.toList =
      round.started.toList ++ [key].filter fun key => (round.graph.nodeAt key).isIdle := by
  cases idle : (round.graph.nodeAt key).isIdle with
  | true =>
      rw [start_idle idle]
      show (round.started.push key).toList = _
      simp [idle]
  | false =>
      rw [start_busy idle]
      simp [idle]

theorem sameContext_start (key : κ) : SameContext round (round.start key).1 := by
  cases idle : (round.graph.nodeAt key).isIdle with
  | true =>
      rw [start_idle idle]
      exact ⟨rfl, rfl, rfl, rfl⟩
  | false =>
      rw [start_busy idle]
      exact ⟨rfl, rfl, rfl, rfl⟩

end Start

section Release

variable (round)

/-- How many results a key still waits for; none if nothing works on it. -/
def pending (key : κ) : Nat := ((round.graph.nodeAt key).work.map Work.pending).getD 0

variable {round}

theorem release_idle {key : κ} (nothing : round.pending key = 0) :
    round.release key = (round, false) := by
  unfold release
  unfold pending at nothing
  rw [Graph.work_eq]
  cases found : (round.graph.nodeAt key).work with
  | none => rfl
  | some work =>
      rw [found] at nothing
      have nothing : ¬ 0 < work.pending := by
        simp only [Option.map_some, Option.getD_some] at nothing
        omega
      simp only [if_neg nothing]

theorem release_waiting {key : κ} (waiting : 0 < round.pending key) :
    round.release key =
      (round.updateWork key fun work => { work with pending := work.pending - 1 },
        decide (round.pending key = 1)) := by
  unfold release
  unfold pending at waiting ⊢
  rw [Graph.work_eq]
  cases found : (round.graph.nodeAt key).work with
  | none => simp [found] at waiting
  | some work =>
      rw [found] at waiting
      simp only [Option.map_some, Option.getD_some] at waiting
      simp only [if_pos waiting, Option.map_some, Option.getD_some]

theorem release_fst (key : κ) :
    (∀ other, other ∈ (round.release key).1.graph.keys ↔ other ∈ round.graph.keys) ∧
    (round.release key).1.started = round.started ∧
    SameContext round (round.release key).1 := by
  rcases Nat.eq_zero_or_pos (round.pending key) with nothing | waiting
  · rw [release_idle nothing]
    exact ⟨fun _ => .rfl, rfl, .refl round⟩
  · rw [release_waiting waiting]
    exact ⟨fun _ => Graph.mem_keys_updateWork, rfl, ⟨rfl, rfl, rfl, rfl⟩⟩

theorem nodeAt_release (key other : κ) :
    (round.release key).1.graph.nodeAt other =
      if other = key then
        (round.graph.nodeAt key).updateWork fun work => { work with pending := work.pending - 1 }
      else round.graph.nodeAt other := by
  rcases Nat.eq_zero_or_pos (round.pending key) with nothing | waiting
  · rw [release_idle nothing]
    split
    · rename_i same
      rw [same, Node.updateWork_of_fixed]
      intro work found
      have same : work.pending - 1 = work.pending := by
        simp only [pending, found, Option.map_some, Option.getD_some] at nothing
        omega
      simp only [same]
    · rfl
  · rw [release_waiting waiting]
    exact Graph.nodeAt_updateWork ..

theorem release_snd (key : κ) : (round.release key).2 = decide (round.pending key = 1) := by
  rcases Nat.eq_zero_or_pos (round.pending key) with nothing | waiting
  · rw [release_idle nothing, nothing]
    rfl
  · rw [release_waiting waiting]

theorem pending_release (key other : κ) :
    (round.release key).1.pending other =
      if other = key then round.pending key - 1 else round.pending other := by
  unfold pending
  rw [nodeAt_release]
  split
  · rw [Node.updateWork_work]
    cases (round.graph.nodeAt key).work <;> rfl
  · rfl

end Release

section Wake

theorem wake_fst (waiters : List κ) :
    (∀ other, other ∈ (round.wake waiters).1.graph.keys ↔ other ∈ round.graph.keys) ∧
    (round.wake waiters).1.started = round.started ∧
    SameContext round (round.wake waiters).1 := by
  induction waiters generalizing round with
  | nil => exact ⟨fun _ => .rfl, rfl, .refl round⟩
  | cons waiter waiters ih =>
      obtain ⟨keys, started, context⟩ := round.release_fst waiter
      obtain ⟨restKeys, restStarted, restContext⟩ := @ih (round.release waiter).1
      exact ⟨fun other => (restKeys other).trans (keys other), restStarted.trans started,
        context.trans restContext⟩

theorem nodeAt_wake (waiters : List κ) (other : κ) :
    (round.wake waiters).1.graph.nodeAt other =
      (round.graph.nodeAt other).updateWork fun work =>
        { work with pending := work.pending - waiters.count other } := by
  induction waiters generalizing round with
  | nil => exact Node.updateWork_id.symm
  | cons waiter waiters ih =>
      show ((round.release waiter).1.wake waiters).1.graph.nodeAt other = _
      rw [ih, nodeAt_release]
      by_cases same : other = waiter
      · subst same
        rw [if_pos rfl, Node.updateWork_updateWork]
        congr 1
        funext work
        simp only [Function.comp_apply, List.count_cons_self]
        congr 1
        omega
      · have different : ¬ waiter = other := fun equal => same equal.symm
        simp [same, different]

theorem count_wake (waiters : List κ) (other : κ) :
    (round.wake waiters).2.count other =
      if 0 < round.pending other ∧ round.pending other ≤ waiters.count other then 1 else 0 := by
  induction waiters generalizing round with
  | nil =>
      rw [if_neg (by rw [List.count_nil]; omega)]
      rfl
  | cons waiter waiters ih =>
      have unfolded : (round.wake (waiter :: waiters)).2 =
          if (round.release waiter).2 then waiter :: ((round.release waiter).1.wake waiters).2
          else ((round.release waiter).1.wake waiters).2 := rfl
      rw [unfolded, release_snd]
      by_cases same : other = waiter
      · subst same
        have later := @ih (round.release other).1
        rw [pending_release, if_pos rfl] at later
        rw [List.count_cons_self]
        by_cases last : round.pending other = 1
        · simp [last, later]
        · simp only [last, decide_false, Bool.false_eq_true, ↓reduceIte, later]
          congr 1
          apply propext
          omega
      · have later := @ih (round.release waiter).1
        rw [pending_release, if_neg same] at later
        have different : ¬ waiter = other := fun equal => same equal.symm
        rw [List.count_cons_of_ne different, ← later]
        split
        · rw [List.count_cons_of_ne different]
        · rfl

end Wake

end Round

end MemoGraph
