import MemoGraph.Proofs.Evaluator.Consistency
import MemoGraph.Proofs.Graph.Invalidation
import MemoGraph.Proofs.Round.Courses

namespace MemoGraph.Graph

variable {κ ν φ : Type} [Key κ] {graph : Graph κ ν φ} {keys : List κ} {key dependent : κ}
  {reason : Reason} {walk : κ → List κ}

/-- The keys whose invalidation is accepted, each where it is first listed. -/
def accepted (graph : Graph κ ν φ) (keys : List κ) : List κ := (distinct keys).filter graph.accepts

/-- What is on record: every accepted key with itself as the source, and after it
the keys of its walk, which are those that it moves from a valid result to a dirty
one. Nothing is in two walks. -/
structure Recorded (graph : Graph κ ν φ) (keys : List κ) (reason : Reason) (walk : κ → List κ) :
    Prop where
  records : (graph.invalidate keys reason).records.toList =
    (graph.accepted keys).flatMap fun key =>
      .ofSource key reason :: (walk key).map fun dependent =>
        ⟨dependent, key, .dependencyInvalidated⟩
  moved : ∀ earlier key later, keys = earlier ++ key :: later → key ∉ earlier →
    graph.accepts key = true → ∀ dependent, dependent ∈ walk key ↔
      ((graph.invalidate earlier reason).graph.nodeAt dependent).isSettled = true ∧
        ((graph.invalidate (earlier ++ [key]) reason).graph.nodeAt dependent).state = .dirty
  rests : ∀ key ∈ graph.accepted keys, ∀ dependent ∈ walk key, graph.RestsOn dependent key
  unique : ((graph.accepted keys).flatMap walk).Nodup

theorem mem_accepted : key ∈ graph.accepted keys ↔ key ∈ keys ∧ graph.accepts key = true := by
  rw [accepted, List.mem_filter, mem_distinct]

theorem invalidate_concat (graph : Graph κ ν φ) (keys : List κ) (key : κ) (reason : Reason) :
    graph.invalidate (keys ++ [key]) reason =
      invalidateKey reason (graph.invalidate keys reason) key := by
  unfold invalidate
  rw [List.foldl_append]
  rfl

theorem accepted_concat (graph : Graph κ ν φ) (keys : List κ) (key : κ) :
    graph.accepted (keys ++ [key]) = if graph.accepts key = true ∧ key ∉ keys
      then graph.accepted keys ++ [key] else graph.accepted keys := by
  unfold accepted
  rw [distinct_concat]
  by_cases listed : key ∈ keys
  · simp [listed]
  · cases accepts : graph.accepts key <;> simp [listed, accepts]

/-- A key is in the walk if the last key took its valid result from it. -/
theorem Struck.moved {before after : Marking κ ν φ} {lost : List κ}
    (struck : Struck reason key before after lost)
    (revocable : (before.graph.nodeAt key).isRevocable = true) :
    dependent ∈ lost ↔ (before.graph.nodeAt dependent).isSettled = true ∧
      (after.graph.nodeAt dependent).state = .dirty := by
  constructor
  · intro member
    obtain ⟨different, settled, _⟩ := (struck.mem_lost dependent).mp member
    rw [struck.nodes, if_neg different, if_pos member]
    exact ⟨settled, Node.state_doubted settled⟩
  · rintro ⟨settled, dirty⟩
    rw [struck.nodes] at dirty
    by_cases same : dependent = key
    · rw [if_pos same, Node.state_revoked revocable] at dirty
      cases dirty
    · rw [if_neg same] at dirty
      by_contra kept
      rw [if_neg kept] at dirty
      rw [← Node.isSettled_state, dirty] at settled
      cases settled

theorem Recorded.skip (recorded : Recorded graph keys reason walk)
    (same : graph.invalidate (keys ++ [key]) reason = graph.invalidate keys reason)
    (rejected : ¬ (graph.accepts key = true ∧ key ∉ keys)) :
    Recorded graph (keys ++ [key]) reason walk := by
  have accepted : graph.accepted (keys ++ [key]) = graph.accepted keys := by
    rw [accepted_concat, if_neg rejected]
  constructor
  case records => rw [same, accepted, recorded.records]
  case rests => rw [accepted]; exact recorded.rests
  case unique => rw [accepted]; exact recorded.unique
  case moved =>
    intro earlier other later split fresh accepts
    rcases Round.eq_or_exists_of_append_cons_eq split.symm with ⟨rfl, rfl⟩ | ⟨others, rfl⟩
    · exact absurd ⟨accepts, fresh⟩ rejected
    · exact recorded.moved earlier other others rfl fresh accepts

theorem Recorded.strike (recorded : Recorded graph keys reason walk)
    (withdrawn : Withdrawn graph (fun key => key ∈ keys ∧ graph.accepts key = true)
      (graph.invalidate keys reason).graph) {lost : List κ}
    (struck : Struck reason key (graph.invalidate keys reason)
      (graph.invalidate (keys ++ [key]) reason) lost)
    (accepts : graph.accepts key = true) (fresh : key ∉ keys) :
    Recorded graph (keys ++ [key]) reason (Function.update walk key lost) := by
  have accepted : graph.accepted (keys ++ [key]) = graph.accepted keys ++ [key] := by
    rw [accepted_concat, if_pos ⟨accepts, fresh⟩]
  have revocable : ((graph.invalidate keys reason).graph.nodeAt key).isRevocable = true := by
    rw [← accepts_eq, withdrawn.accepts_iff]
    exact ⟨accepts, fun isSource => fresh isSource.1⟩
  have old : ∀ other ∈ graph.accepted keys, Function.update walk key lost other = walk other := by
    intro other member
    apply Function.update_of_ne
    rintro rfl
    exact fresh (mem_accepted.mp member).1
  have rests := restsOn_congr withdrawn.dependencies
  constructor
  case records =>
    rw [accepted, List.flatMap_append, struck.records, recorded.records]
    congr 1
    · refine List.flatMap_congr fun other member => ?_
      rw [old other member]
    · simp
  case moved =>
    intro earlier other later split isFresh isAccepted dependent
    rcases Round.eq_or_exists_of_append_cons_eq split.symm with ⟨rfl, rfl⟩ | ⟨others, rfl⟩
    · rw [Function.update_self]
      exact struck.moved revocable
    · have different : other ≠ key := by
        rintro rfl
        exact fresh (by simp)
      rw [Function.update_of_ne different]
      exact recorded.moved earlier other others rfl isFresh isAccepted dependent
  case rests =>
    rw [accepted, List.forall_mem_append]
    constructor
    · intro other member
      rw [old other member]
      exact recorded.rests other member
    · rw [List.forall_mem_singleton, Function.update_self]
      intro dependent member
      rw [← rests]
      exact ((struck.mem_lost dependent).mp member).2.2
  case unique =>
    rw [accepted, List.flatMap_append, List.flatMap_congr old, List.flatMap_singleton,
      Function.update_self]
    refine List.nodup_append.mpr ⟨recorded.unique, struck.unique, ?_⟩
    rintro dependent earlier _ member rfl
    obtain ⟨source, isSource, isWalk⟩ := List.mem_flatMap.mp earlier
    have settled := ((struck.mem_lost dependent).mp member).2.1
    exact ((withdrawn.settled_iff dependent).mp settled).2.2
      ⟨source, mem_accepted.mp isSource, recorded.rests source isSource dependent isWalk⟩

/-- What all of the keys so far have come to. -/
theorem invalidate_withdrawn (linked : graph.Linked) (closed : graph.Closed) (keys : List κ)
    (reason : Reason) :
    Withdrawn graph (fun key => key ∈ keys ∧ graph.accepts key = true)
      (graph.invalidate keys reason).graph ∧ ∃ walk, Recorded graph keys reason walk := by
  induction keys using List.reverseRecOn with
  | nil =>
      refine ⟨(Withdrawn.refl graph).congr (by simp), fun _ => [], rfl, by simp, nofun, List.nodup_nil⟩
  | append_singleton keys key ih =>
      obtain ⟨withdrawn, walk, recorded⟩ := ih
      have turn := withdrawn.accepts_iff key
      rw [accepts_eq] at turn
      have step := invalidate_concat graph keys key reason
      cases revocable : ((graph.invalidate keys reason).graph.nodeAt key).isRevocable with
      | false =>
          have rejected : ¬ (graph.accepts key = true ∧ key ∉ keys) := by
            rintro ⟨accepts, fresh⟩
            rw [turn.mpr ⟨accepts, fun isSource => fresh isSource.1⟩] at revocable
            cases revocable
          rw [invalidateKey_of_not_revocable reason revocable] at step
          refine ⟨?_, walk, recorded.skip step rejected⟩
          rw [step]
          refine withdrawn.congr fun other => ?_
          grind
      | true =>
          obtain ⟨accepts, fresh⟩ := turn.mp revocable
          have unlisted : key ∉ keys := fun listed => fresh ⟨listed, accepts⟩
          obtain ⟨lost, struck⟩ := invalidateKey_of_revocable reason (withdrawn.linked linked)
            (withdrawn.closed closed) revocable
          rw [← step] at struck
          refine ⟨(withdrawn.strike rfl struck fresh).congr fun other => ?_, _,
            recorded.strike withdrawn struck accepts unlisted⟩
          grind

theorem invalidate_of_rejected (rejected : ∀ key ∈ keys, graph.accepts key = false) :
    graph.invalidate keys reason = { graph } := by
  induction keys using List.reverseRecOn with
  | nil => rfl
  | append_singleton keys key ih =>
      rw [List.forall_mem_append, List.forall_mem_singleton, accepts_eq] at rejected
      have earlier := ih rejected.1
      rw [invalidate_concat, earlier]
      exact invalidateKey_of_not_revocable reason rejected.2

/-- What an invalidation makes of a graph. -/
structure Invalidated (graph : Graph κ ν φ) (keys : List κ) (reason : Reason)
    (after : Graph κ ν φ) : Prop where
  /-- When its turn comes, a key is accepted if it was acceptable at first and is
  listed for the first time. -/
  turn : ∀ earlier key later, keys = earlier ++ key :: later →
    ((graph.invalidate earlier reason).graph.accepts key = true ↔
      graph.accepts key = true ∧ key ∉ earlier)
  nodes : Withdrawn graph (fun key => key ∈ keys ∧ graph.accepts key = true) after
  changed : ∀ key, ((graph.nodeAt key).state ≠ .changed ∧ (after.nodeAt key).state = .changed) ↔
    key ∈ keys ∧ graph.accepts key = true
  dirty : ∀ key, ((graph.nodeAt key).isSettled = true ∧ (after.nodeAt key).state = .dirty) ↔
    (graph.nodeAt key).isSettled = true ∧ ¬ (key ∈ keys ∧ graph.accepts key = true) ∧
      ∃ source, (source ∈ keys ∧ graph.accepts source = true) ∧ graph.RestsOn key source
  linked : after.Linked
  closed : after.Closed
  /-- Order, repetition and reason make no difference to the graph. -/
  unordered : ∀ others again, (∀ key, key ∈ others ↔ key ∈ keys) →
    ∀ key, (graph.invalidate others again).graph.node? key = after.node? key
  repeated : ∀ others again, others ⊆ keys → after.invalidate others again = { graph := after }
  recorded : ∃ walk, Recorded graph keys reason walk

/-- In any graph with edges at both ends in which valid results rest on valid
results, whatever keys are listed: the accepted keys become changed, the valid
results that rest on them become dirty, and no other field of any node changes.
The order of the keys and their repetition make no difference, and doing it again
marks nothing. Every accepted key is on record once, followed by the keys that its
walk made dirty, and no key is made dirty twice. -/
theorem invalidate_exact (linked : graph.Linked) (closed : graph.Closed) (keys : List κ)
    (reason : Reason) :
    Invalidated graph keys reason (graph.invalidate keys reason).graph := by
  obtain ⟨withdrawn, recorded⟩ := invalidate_withdrawn linked closed keys reason
  constructor
  case nodes => exact withdrawn
  case linked => exact withdrawn.linked linked
  case closed => exact withdrawn.closed closed
  case recorded => exact recorded
  case turn =>
    intro earlier key later _
    have before := (invalidate_withdrawn linked closed earlier reason).1
    rw [before.accepts_iff]
    grind
  case changed =>
    intro key
    rcases withdrawn.cases key with
      ⟨isSource, same⟩ | ⟨isOther, settled, _, same⟩ | ⟨isOther, _, same⟩
    · have revocable := isSource.2
      rw [accepts_eq] at revocable
      rw [same, Node.state_revoked revocable]
      refine ⟨fun _ => isSource, fun _ => ⟨fun changed => ?_, rfl⟩⟩
      simp [Node.isRevocable, changed] at revocable
    · rw [same, Node.state_doubted settled]
      exact ⟨fun changed => (by cases changed.2), fun isSource => absurd isSource isOther⟩
    · rw [same]
      exact ⟨fun changed => absurd changed.2 changed.1, fun isSource => absurd isSource isOther⟩
  case dirty =>
    intro key
    rcases withdrawn.cases key with
      ⟨isSource, same⟩ | ⟨isOther, settled, rests, same⟩ | ⟨isOther, free, same⟩
    · have revocable := isSource.2
      rw [accepts_eq] at revocable
      rw [same, Node.state_revoked revocable]
      exact ⟨fun dirty => (by cases dirty.2), fun others => absurd isSource others.2.1⟩
    · rw [same, Node.state_doubted settled]
      exact ⟨fun _ => ⟨settled, isOther, rests⟩, fun _ => ⟨settled, rfl⟩⟩
    · rw [same]
      refine ⟨fun dirty => ?_, fun others => absurd others.2.2 (free others.1)⟩
      obtain ⟨settled, dirty⟩ := dirty
      rw [← Node.isSettled_state, dirty] at settled
      cases settled
  case unordered =>
    intro others again same
    have other := (invalidate_withdrawn linked closed others again).1
    exact withdrawn.node?_eq (other.congr fun key => by rw [same])
  case repeated =>
    intro others again listed
    apply invalidate_of_rejected
    intro key member
    rw [← Bool.not_eq_true, withdrawn.accepts_iff]
    exact fun accepts => accepts.2 ⟨listed member, accepts.1⟩

/-- Two keys that ask for each other, and two that ask for the first key. -/
def braid : Registry Nat Nat Empty where
  kindName _ := "braid"
  function? key := some fun _ =>
    match key with
    | 1 => .request [0] none fun _ => .check (.finish (.value 1))
    | 2 => .request [3, 1] none fun _ => .check (.finish (.value 2))
    | 3 => .request [2] none fun _ => .check (.finish (.value 3))
    | _ => .request [1] none fun _ => .check (.finish (.value key))

/-- The second key is made dirty by the first before its own turn comes. The key
that was set from outside, the one without a node and the one that is listed again
are passed over. -/
theorem invalidate_exact_braid : ∃ graph : Graph Nat Nat Empty, graph.Linked ∧ graph.Closed ∧
    [0, 1, 2, 3, 4].map graph.state? =
      [some .done, some .done, some .error, some .error, some .done] ∧
    graph.accepted [1, 9, 2, 0, 1] = [1, 2] ∧
    Invalidated graph [1, 9, 2, 0, 1] .manual (graph.invalidate [1, 9, 2, 0, 1] .manual).graph ∧
    [0, 1, 2, 3, 4].map (graph.invalidate [1, 9, 2, 0, 1] .manual).graph.state? =
      [some .done, some .changed, some .changed, some .dirty, some .dirty] := by
  let graph := (((Evaluator.build {} [(0, 7)] : Evaluator Nat Nat Empty).evaluate braid 50
    [2, 4]).1).graph
  have sound : graph.discrepancies = [] := by decide +kernel
  have linked := (discrepancies_eq_nil_iff.mp sound).2.1
  have closed : graph.Closed := by
    have listed : ∀ key ∈ graph.keys, ∀ dependency ∈ (graph.nodeAt key).dependencies.keys,
        (graph.nodeAt dependency).isSettled = true := by decide +kernel
    intro key dependency settled edge
    have known : key ∈ graph.keys := mem_keys_of_result? (by rw [result?_eq]; exact settled)
    exact listed key known dependency edge
  exact ⟨graph, linked, closed, by decide +kernel, by decide +kernel,
    invalidate_exact linked closed _ _, by decide +kernel⟩

end MemoGraph.Graph
