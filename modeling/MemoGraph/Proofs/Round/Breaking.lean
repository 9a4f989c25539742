import MemoGraph.Proofs.Digraph.Components
import MemoGraph.Proofs.Round.Moves

namespace MemoGraph

namespace Node

variable {κ ν φ : Type} {node other : Node κ ν φ}

/-- What is recorded as the dependencies of a node that fails while it waits. -/
def leftover (node : Node κ ν φ) : Grouping κ :=
  match node.work with
  | some work => if work.phase = .computing then work.requested else node.dependencies
  | none => node.dependencies

theorem Alike.leftover (alike : Alike node other) : node.leftover = other.leftover := by
  cases found : node.work with
  | none => simp [Node.leftover, found, alike.work_none.mp found, alike.dependencies]
  | some work =>
      obtain ⟨same, isWork, phase, _, requested, _⟩ := alike.work_some found
      simp [Node.leftover, found, isWork, phase, requested, alike.dependencies]

theorem Alike.commit [BEq ν] (alike : Alike node other) (version : Version)
    (result : Result κ ν φ) (dependencies : Grouping κ) :
    Alike (node.commit version result dependencies) (other.commit version result dependencies) := by
  have kept : node.keeps result = other.keeps result := by
    unfold keeps
    rw [alike.memo]
  refine .of_fields ?_ rfl ?_ rfl alike.injected rfl
  · rw [commit_eq, commit_eq]
    simp only [committed, kept, alike.memo]
  · rw [commit_eq, commit_eq]
    simp only [kept, alike.lastChanged]

end Node

namespace Round

variable {κ ν φ : Type} [Key κ] {round before middle after : Round κ ν φ}

theorem pendingDependencies_eq (key : κ) :
    round.pendingDependencies key = (round.graph.nodeAt key).leftover := by
  unfold pendingDependencies Graph.nodeAt Node.leftover
  cases round.graph.node? key with
  | none => rfl
  | some node =>
      obtain ⟨_, _, _, _, _, _, work⟩ := node
      cases work with
      | none => rfl
      | some work =>
          obtain ⟨phase, _, _, _, _, _, _⟩ := work
          cases phase <;> simp

variable [BEq ν]

/-- What failing some keys makes of a round, who waits for whom apart. -/
structure Failed (before : Round κ ν φ) (failures : List (Failure κ φ))
    (after : Round κ ν φ) : Prop where
  self : ∀ failure ∈ failures, (after.graph.nodeAt failure.key).Alike
    ((before.graph.nodeAt failure.key).commit before.version (.error failure)
      (before.graph.nodeAt failure.key).leftover)
  others : ∀ other, other ∉ failures.map Failure.key →
    (after.graph.nodeAt other).Alike (before.graph.nodeAt other)
  linked : before.graph.Linked → after.graph.Linked
  keys : ∀ other, other ∈ after.graph.keys ↔ other ∈ before.graph.keys ∨
    ∃ failure ∈ failures, other ∈ (before.graph.nodeAt failure.key).leftover ∧
      other ∉ (before.graph.nodeAt failure.key).dependencies
  version : after.version = before.version
  transient : ∀ other, other ∈ after.transient.toList ↔ other ∈ before.transient.toList ∨
    ∃ failure ∈ failures, failure.transience = .transient ∧ other = failure.key
  interrupted : after.interrupted = before.interrupted
  runs : after.runs = before.runs

/-- What it makes of a round before anyone is woken. -/
structure Abandoned (before : Round κ ν φ) (failures : List (Failure κ φ))
    (after : Round κ ν φ) (waiters : List κ) : Prop extends Failed before failures after where
  work : ∀ other, other ∉ failures.map Failure.key →
    (after.graph.nodeAt other).work = (before.graph.nodeAt other).work
  started : after.started = before.started
  waiters : waiters = (failures.map Failure.key).flatMap before.waiters

theorem Abandoned.refl (round : Round κ ν φ) : Abandoned round [] round [] := by
  constructor
  case toFailed => constructor <;> first | rfl | simp [Node.Alike.refl]
  all_goals first | rfl | simp

theorem Failed.wake {failures : List (Failure κ φ)} (failed : Failed before failures middle)
    (waiters : List κ) : Failed before failures (middle.wake waiters).1 := by
  have alike := middle.alike_wake waiters
  obtain ⟨keys, _, context⟩ := middle.wake_fst waiters
  constructor
  case self => exact fun failure member => (alike _).trans (failed.self failure member)
  case others => exact fun other outside => (alike other).trans (failed.others other outside)
  case linked =>
    intro linked dependent dependency
    rw [dependents_wake, (alike dependent).dependencies]
    exact failed.linked linked dependent dependency
  case keys => exact fun other => (keys other).trans (failed.keys other)
  case version => exact context.version.trans failed.version
  case transient =>
    rw [context.transient]
    exact failed.transient
  case interrupted => exact context.interrupted.trans failed.interrupted
  case runs => exact context.runs.trans failed.runs

theorem Abandoned.of_tell {signal : Signal κ φ} :
    Abandoned round [] (round.tell signal) [] := by
  constructor
  case toFailed => constructor <;> first | rfl | simp [tell, Node.Alike.refl]
  all_goals first | rfl | simp [tell]

theorem Abandoned.append {failures more : List (Failure κ φ)} {waiters others : List κ}
    (left : Abandoned before failures middle waiters)
    (right : Abandoned middle more after others)
    (apart : ∀ failure ∈ more, failure.key ∉ failures.map Failure.key)
    (apartLeft : ∀ failure ∈ failures, failure.key ∉ more.map Failure.key) :
    Abandoned before (failures ++ more) after (waiters ++ others) := by
  constructor
  case toFailed =>
    constructor
    case self =>
      intro failure member
      rcases List.mem_append.mp member with isFirst | isSecond
      · exact (right.others _ (apartLeft failure isFirst)).trans (left.self failure isFirst)
      · have alike := left.others _ (apart failure isSecond)
        have committed := right.self failure isSecond
        rw [left.version, alike.leftover] at committed
        exact committed.trans (alike.commit ..)
    case others =>
      intro other outside
      rw [List.map_append, List.mem_append, not_or] at outside
      exact (right.others other outside.2).trans (left.others other outside.1)
    case linked => exact fun linked => right.linked (left.linked linked)
    case keys =>
      intro other
      have same : ∀ failure ∈ more, (middle.graph.nodeAt failure.key).leftover =
          (before.graph.nodeAt failure.key).leftover ∧
          (middle.graph.nodeAt failure.key).dependencies =
            (before.graph.nodeAt failure.key).dependencies := fun failure member =>
        ⟨(left.others _ (apart failure member)).leftover,
          (left.others _ (apart failure member)).dependencies⟩
      rw [right.keys, left.keys, or_assoc]
      refine or_congr .rfl ?_
      simp only [List.mem_append, or_and_right, exists_or]
      refine or_congr .rfl (exists_congr fun failure => and_congr_right fun member => ?_)
      rw [(same failure member).1, (same failure member).2]
    case version => exact right.version.trans left.version
    case transient =>
      intro other
      rw [right.transient, left.transient, or_assoc]
      simp only [List.mem_append, or_and_right, exists_or]
    case interrupted => exact right.interrupted.trans left.interrupted
    case runs => exact right.runs.trans left.runs
  case work =>
    intro other outside
    rw [List.map_append, List.mem_append, not_or] at outside
    exact (right.work other outside.2).trans (left.work other outside.1)
  case started => exact right.started.trans left.started
  case waiters =>
    rw [left.waiters, right.waiters, List.map_append, List.flatMap_append]
    congr 1
    refine List.flatMap_congr fun key member => ?_
    obtain ⟨failure, isMore, rfl⟩ := List.mem_map.mp member
    simp [Round.waiters, left.work _ (apart failure isMore)]

theorem Abandoned.single (failure : Failure κ φ) (known : failure.key ∈ round.graph.keys)
    (waiters : List κ) :
    (abandon (round, waiters) failure).2 = waiters ++ round.waiters failure.key ∧
      Abandoned round [failure] (abandon (round, waiters) failure).1
        (round.waiters failure.key) := by
  have recorded := round.record_spec known (.error failure)
    (round.pendingDependencies failure.key) []
  have moved := recorded.moved
  refine ⟨congrArg (waiters ++ ·) recorded.waiters, ?_⟩
  show Abandoned round [failure] (round.record failure.key (.error failure)
    (round.pendingDependencies failure.key) []).1 _
  rw [pendingDependencies_eq] at recorded moved ⊢
  constructor
  case toFailed =>
    constructor
    case self =>
      intro other member
      rw [List.mem_singleton.mp member]
      exact moved.self
    case others =>
      intro other outside
      simpa using moved.others other (by simpa using outside)
    case linked => exact moved.linked
    case keys =>
      intro other
      rw [recorded.keys, or_comm]
      simp
    case version => exact recorded.version
    case transient =>
      intro other
      rw [moved.transient]
      simp [isTransient, and_comm]
    case interrupted => exact recorded.interrupted
    case runs => exact recorded.runs
  case work =>
    intro other outside
    rw [recorded.nodes, if_neg (by simpa using outside)]
    rfl
  case started => exact recorded.started
  case waiters => simp

theorem foldl_abandon_spec {failures : List (Failure κ φ)}
    (unique : (failures.map Failure.key).Nodup)
    (known : ∀ failure ∈ failures, failure.key ∈ round.graph.keys) (waiters : List κ) :
    ∃ more, (failures.foldl abandon (round, waiters)).2 = waiters ++ more ∧
      Abandoned round failures (failures.foldl abandon (round, waiters)).1 more := by
  induction failures generalizing round waiters with
  | nil =>
      refine ⟨[], (List.append_nil waiters).symm, ?_⟩
      exact .refl round
  | cons failure rest ih =>
      rw [List.map_cons, List.nodup_cons] at unique
      obtain ⟨first, single⟩ :=
        Abandoned.single failure (known failure List.mem_cons_self) waiters
      rw [List.foldl_cons]
      generalize abandon (round, waiters) failure = middle at first single ⊢
      obtain ⟨middle, told⟩ := middle
      simp only at first single
      subst first
      obtain ⟨more, second, others⟩ := @ih middle unique.2
        (fun other member => (single.keys _).mpr
          (.inl (known other (List.mem_cons_of_mem failure member))))
        (waiters ++ round.waiters failure.key)
      refine ⟨round.waiters failure.key ++ more, by rw [second, List.append_assoc], ?_⟩
      have apart : ∀ other ∈ rest, other.key ∉ [failure].map Failure.key := by
        intro other member
        rw [List.map_cons, List.map_nil, List.mem_singleton]
        intro same
        exact unique.1 (same ▸ List.mem_map_of_mem member)
      have appended := single.append others apart fun other member => by
        rw [List.mem_singleton.mp member]
        exact unique.1
      exact appended

/-- The failures of the keys of a component. -/
def cycleFailures (waits : Digraph κ) (component : List κ) : List (Failure κ φ) :=
  component.map fun key => Failure.cycle key (waits.shortestCycle component key)

theorem map_key_cycleFailures (waits : Digraph κ) (component : List κ) :
    (cycleFailures waits component : List (Failure κ φ)).map Failure.key = component := by
  unfold cycleFailures
  rw [List.map_map]
  exact List.map_id' component

theorem map_key_flatMap_cycleFailures (waits : Digraph κ) (components : List (List κ)) :
    (components.flatMap (cycleFailures waits) : List (Failure κ φ)).map Failure.key =
      components.flatten := by
  induction components with
  | nil => rfl
  | cons component rest ih =>
      rw [List.flatMap_cons, List.map_append, map_key_cycleFailures, ih, List.flatten_cons]

theorem foldl_breakComponent_spec {waits : Digraph κ} {components : List (List κ)}
    (unique : components.flatten.Nodup)
    (known : ∀ key ∈ components.flatten, key ∈ round.graph.keys) (waiters : List κ) :
    ∃ more, (components.foldl (breakComponent waits) (round, waiters)).2 = waiters ++ more ∧
      Abandoned round (components.flatMap (cycleFailures waits))
        (components.foldl (breakComponent waits) (round, waiters)).1 more := by
  induction components generalizing round waiters with
  | nil => exact ⟨[], (List.append_nil waiters).symm, .refl round⟩
  | cons component rest ih =>
      rw [List.flatten_cons, List.nodup_append] at unique
      obtain ⟨componentUnique, restUnique, apart⟩ := unique
      have keys : ∀ failure ∈ (cycleFailures waits component : List (Failure κ φ)),
          failure.key ∈ component := by
        intro failure member
        have listed := List.mem_map_of_mem (f := Failure.key) member
        rwa [map_key_cycleFailures] at listed
      have knownFirst : ∀ failure ∈ (cycleFailures waits component : List (Failure κ φ)),
          failure.key ∈ (round.tell (.cycle component)).graph.keys := by
        intro failure member
        refine known _ ?_
        rw [List.flatten_cons]
        exact List.mem_append_left _ (keys failure member)
      obtain ⟨first, told, abandoned⟩ := foldl_abandon_spec
        (by rw [map_key_cycleFailures]; exact componentUnique) knownFirst waiters
      have opened := Abandoned.of_tell.append abandoned (by simp) (by simp)
      rw [List.nil_append, List.nil_append] at opened
      rw [List.foldl_cons]
      have unfolded : breakComponent waits (round, waiters) component =
        (cycleFailures waits component).foldl abandon (round.tell (.cycle component), waiters) :=
        rfl
      rw [unfolded]
      generalize (cycleFailures waits component).foldl abandon
        (round.tell (.cycle component), waiters) = middle at told opened ⊢
      obtain ⟨middle, middleWaiters⟩ := middle
      simp only at told opened
      subst told
      obtain ⟨more, second, others⟩ := @ih middle restUnique
        (fun key member => (opened.keys _).mpr
          (.inl (known key (by rw [List.flatten_cons]; exact List.mem_append_right _ member))))
        (waiters ++ first)
      refine ⟨first ++ more, by rw [second, List.append_assoc], ?_⟩
      rw [List.flatMap_cons]
      refine opened.append others (fun failure member => ?_) fun failure member => ?_
      · rw [map_key_cycleFailures]
        intro inComponent
        have inRest := List.mem_map_of_mem (f := Failure.key) member
        rw [map_key_flatMap_cycleFailures] at inRest
        exact apart _ inComponent _ inRest rfl
      · rw [map_key_flatMap_cycleFailures]
        exact fun inRest => apart _ (keys failure member) _ inRest rfl

end Round

end MemoGraph
