import Mathlib.Logic.Relation
import MemoGraph.Proofs.Graph.Marking

namespace MemoGraph

/-! Exactly what invalidation marks.

In a graph whose valid results rest on valid results, the accepted keys become
changed, the valid results that rest on them become dirty, and nothing else
happens. So neither the order of the keys nor their repetition matters.
-/

variable {κ ν φ : Type}

namespace Node

/-- The node of a key that has to be computed again. -/
def revoked (node : Node κ ν φ) : Node κ ν φ :=
  match node.memo with
  | .valid result | .dirty result => { node with memo := .changed result }
  | _ => node

/-- The node of a key whose result may no longer hold. -/
def doubted (node : Node κ ν φ) : Node κ ν φ :=
  match node.memo with
  | .valid result => { node with memo := .dirty result }
  | _ => node

/-- Whether an invalidation of the key takes something from it. -/
def isRevocable (node : Node κ ν φ) : Bool :=
  !node.injected && (node.state = .done || node.state = .error || node.state = .dirty)

variable {node : Node κ ν φ}

theorem isRevocable_iff : node.isRevocable = true ↔ node.injected = false ∧ node.work = none ∧
    ∃ result, node.memo = .valid result ∨ node.memo = .dirty result := by
  obtain ⟨memo, _, _, _, _, injected, work⟩ := node
  unfold isRevocable state
  cases work with
  | some work => simp
  | none =>
      cases memo with
      | valid result => cases result <;> simp [Memo.state]
      | _ => simp [Memo.state]

@[simp] theorem dependencies_revoked : node.revoked.dependencies = node.dependencies := by
  unfold revoked
  split <;> rfl

@[simp] theorem dependencies_doubted : node.doubted.dependencies = node.dependencies := by
  unfold doubted
  split <;> rfl

@[simp] theorem dependents_revoked : node.revoked.dependents = node.dependents := by
  unfold revoked
  split <;> rfl

@[simp] theorem dependents_doubted : node.doubted.dependents = node.dependents := by
  unfold doubted
  split <;> rfl

theorem isSettled_eq_false_of_memo (lost : ∀ result, node.memo ≠ .valid result) :
    node.isSettled = false := by
  by_contra settled
  obtain ⟨_, result, valid⟩ := isSettled_iff.mp (Bool.not_eq_false _ ▸ settled)
  exact lost result valid

@[simp] theorem isSettled_revoked : node.revoked.isSettled = false := by
  apply isSettled_eq_false_of_memo
  intro result
  unfold revoked
  cases memo : node.memo <;> simp [memo]

@[simp] theorem isSettled_doubted : node.doubted.isSettled = false := by
  apply isSettled_eq_false_of_memo
  intro result
  unfold doubted
  cases memo : node.memo <;> simp [memo]

@[simp] theorem isRevocable_revoked : node.revoked.isRevocable = false := by
  by_contra revocable
  obtain ⟨_, _, result, memo⟩ := isRevocable_iff.mp (Bool.not_eq_false _ ▸ revocable)
  unfold revoked at memo
  cases found : node.memo <;> simp [found] at memo

theorem isRevocable_doubted : node.doubted.isRevocable = node.isRevocable := by
  obtain ⟨memo, _, _, _, _, injected, work⟩ := node
  rw [Bool.eq_iff_iff, isRevocable_iff, isRevocable_iff]
  cases memo <;> simp [doubted]

theorem revoked_doubted : node.doubted.revoked = node.revoked := by
  obtain ⟨memo, _, _, _, _, _, _⟩ := node
  cases memo <;> rfl

theorem state_revoked (revocable : node.isRevocable = true) : node.revoked.state = .changed := by
  obtain ⟨_, free, result, memo⟩ := isRevocable_iff.mp revocable
  rcases memo with memo | memo <;> simp [revoked, memo, state, free, Memo.state]

theorem state_doubted (settled : node.isSettled = true) : node.doubted.state = .dirty := by
  obtain ⟨free, result, valid⟩ := isSettled_iff.mp settled
  simp [doubted, valid, state, free, Memo.state]

end Node

namespace Graph

variable [Key κ] {graph before middle after : Graph κ ν φ} {key other source : κ}

/-- An edge: the result of the key was computed from the dependency. -/
def DependsOn (graph : Graph κ ν φ) (key dependency : κ) : Prop :=
  dependency ∈ (graph.nodeAt key).dependencies

/-- One comes from the key to the source over one edge or more. -/
def RestsOn (graph : Graph κ ν φ) : κ → κ → Prop := Relation.TransGen graph.DependsOn

/-- Valid results rest on valid results. -/
def Closed (graph : Graph κ ν φ) : Prop :=
  ∀ key dependency, (graph.nodeAt key).isSettled = true → graph.DependsOn key dependency →
    (graph.nodeAt dependency).isSettled = true

theorem restsOn_congr (same : ∀ key, (after.nodeAt key).dependencies =
    (before.nodeAt key).dependencies) : after.RestsOn = before.RestsOn := by
  have edges : after.DependsOn = before.DependsOn := by
    funext key dependency
    unfold DependsOn
    rw [same]
  unfold RestsOn
  rw [edges]

section Walk

/-- What marking the dependents of a source does: it takes the valid results of
the lost keys, all of which rest on the source, and records each of them once. -/
structure Walked (source : κ) (before after : Marking κ ν φ) (lost : List κ) : Prop where
  keys : ∀ key, key ∈ after.graph.keys ↔ key ∈ before.graph.keys
  nodes : ∀ key, after.graph.nodeAt key =
    if key ∈ lost then (before.graph.nodeAt key).doubted else before.graph.nodeAt key
  settled : ∀ key ∈ lost, (before.graph.nodeAt key).isSettled = true
  rests : ∀ key ∈ lost, before.graph.RestsOn key source
  unique : lost.Nodup
  records : after.records.toList = before.records.toList ++
    lost.map fun key => ⟨key, source, .dependencyInvalidated⟩

variable {first second third : Marking κ ν φ} {lost more pending : List κ}

theorem Walked.refl (source : κ) (marking : Marking κ ν φ) : Walked source marking marking [] :=
  ⟨fun _ => .rfl, fun _ => rfl, nofun, nofun, List.nodup_nil, by simp⟩

theorem Walked.dependencies (walked : Walked source first second lost) (key : κ) :
    (second.graph.nodeAt key).dependencies = (first.graph.nodeAt key).dependencies := by
  rw [walked.nodes]
  split <;> simp

theorem Walked.dependents (walked : Walked source first second lost) (key : κ) :
    (second.graph.nodeAt key).dependents = (first.graph.nodeAt key).dependents := by
  rw [walked.nodes]
  split <;> simp

theorem Walked.linked (walked : Walked source first second lost) (linked : first.graph.Linked) :
    second.graph.Linked := by
  intro dependent dependency
  rw [walked.dependencies, walked.dependents]
  exact linked dependent dependency

theorem Walked.not_lost (walked : Walked source first second lost)
    (settled : (second.graph.nodeAt key).isSettled = true) : key ∉ lost := by
  intro member
  rw [walked.nodes, if_pos member] at settled
  simp at settled

theorem Walked.trans (left : Walked source first second lost)
    (right : Walked source second third more) : Walked source first third (lost ++ more) := by
  have apart : ∀ key ∈ more, key ∉ lost := fun key member => left.not_lost (right.settled key member)
  constructor
  case keys => exact fun key => (right.keys key).trans (left.keys key)
  case nodes =>
    intro key
    rw [right.nodes, left.nodes]
    by_cases isMore : key ∈ more
    · simp [isMore, apart key isMore]
    · simp [isMore]
  case settled =>
    refine List.forall_mem_append.mpr ⟨left.settled, fun key member => ?_⟩
    have settled := right.settled key member
    rwa [left.nodes, if_neg (apart key member)] at settled
  case rests =>
    refine List.forall_mem_append.mpr ⟨left.rests, fun key member => ?_⟩
    rw [← restsOn_congr left.dependencies]
    exact right.rests key member
  case unique =>
    refine List.nodup_append.mpr ⟨left.unique, right.unique, ?_⟩
    rintro key isLost _ isMore rfl
    exact apart key isMore isLost
  case records => simp [right.records, left.records]

theorem markDirty_walked (marking : Marking κ ν φ) (pending : List κ) {dependent : κ}
    (rests : marking.graph.RestsOn dependent source) :
    ∃ lost, Walked source marking (markDirty source (marking, pending) dependent).1 lost ∧
      (markDirty source (marking, pending) dependent).2 = pending ++ lost := by
  unfold markDirty
  cases valid : marking.graph.result? dependent with
  | none =>
      simp only [valid]
      exact ⟨[], .refl source marking, (List.append_nil pending).symm⟩
  | some result =>
      simp only [valid]
      have known : dependent ∈ marking.graph.keys := mem_keys_of_result? (by simp [valid])
      rw [result?_eq] at valid
      obtain ⟨_, memo⟩ := Node.result?_eq_some_iff.mp valid
      refine ⟨[dependent], ⟨fun key => mem_keys_update, fun key => ?_, ?_, ?_, by simp, by simp⟩, rfl⟩
      · rw [nodeAt_update known]
        by_cases same : key = dependent
        · simp [same, Node.doubted, memo]
        · simp [same]
      · simp [Node.isSettled, valid]
      · simpa using rests

theorem foldl_markDirty_walked (dependents : List κ) (marking : Marking κ ν φ) (pending : List κ)
    (rests : ∀ dependent ∈ dependents, marking.graph.RestsOn dependent source) :
    ∃ lost, Walked source marking (dependents.foldl (markDirty source) (marking, pending)).1 lost ∧
      (dependents.foldl (markDirty source) (marking, pending)).2 = pending ++ lost := by
  induction dependents generalizing marking pending with
  | nil => exact ⟨[], .refl source marking, (List.append_nil pending).symm⟩
  | cons dependent rest ih =>
      obtain ⟨lost, walked, later⟩ :=
        markDirty_walked marking pending (rests dependent List.mem_cons_self)
      rw [List.foldl_cons]
      generalize markDirty source (marking, pending) dependent = state at walked later ⊢
      obtain ⟨middle, next⟩ := state
      obtain ⟨more, onward, pushed⟩ := ih middle next fun other member => by
        rw [restsOn_congr walked.dependencies]
        exact rests other (List.mem_cons_of_mem dependent member)
      have queued : next = pending ++ lost := later
      rw [queued, List.append_assoc] at pushed
      exact ⟨lost ++ more, walked.trans onward, queued ▸ pushed⟩

theorem spread_walked (bound : Nat) (pending : List κ) (marking : Marking κ ν φ)
    (linked : marking.graph.Linked)
    (rests : ∀ key ∈ pending, key = source ∨ marking.graph.RestsOn key source) :
    ∃ lost, Walked source marking (spread source bound pending marking) lost := by
  induction bound generalizing pending marking with
  | zero => exact ⟨[], .refl source marking⟩
  | succ bound ih =>
      cases pending with
      | nil => exact ⟨[], .refl source marking⟩
      | cons key pending =>
          have same : ((marking.graph.node? key).map Node.dependents).getD [] =
              (marking.graph.nodeAt key).dependents := by
            unfold nodeAt
            cases marking.graph.node? key <;> rfl
          have onward : ∀ dependent ∈ (marking.graph.nodeAt key).dependents,
              marking.graph.RestsOn dependent source := by
            intro dependent member
            have edge : marking.graph.DependsOn dependent key := (linked dependent key).mp member
            rcases rests key List.mem_cons_self with rfl | further
            · exact .single edge
            · exact .head edge further
          rw [spread]
          simp only [same]
          obtain ⟨lost, walked, pushed⟩ := foldl_markDirty_walked _ marking pending onward
          generalize (marking.graph.nodeAt key).dependents.foldl (markDirty source)
            (marking, pending) = state at walked pushed ⊢
          obtain ⟨middle, next⟩ := state
          obtain ⟨more, further⟩ := ih next middle (walked.linked linked) fun other member => by
            rw [restsOn_congr walked.dependencies]
            have queued : next = pending ++ lost := pushed
            rcases List.mem_append.mp (queued ▸ member) with isPending | isLost
            · exact rests other (List.mem_cons_of_mem key isPending)
            · exact .inr (walked.rests other isLost)
          exact ⟨lost ++ more, walked.trans further⟩

end Walk

section Key

variable (reason : Reason) {marking : Marking κ ν φ}

/-- What is marked when one key is invalidated that has a result to lose. -/
structure Struck (reason : Reason) (key : κ) (before after : Marking κ ν φ) (lost : List κ) :
    Prop where
  keys : ∀ other, other ∈ after.graph.keys ↔ other ∈ before.graph.keys
  nodes : ∀ other, after.graph.nodeAt other =
    if other = key then (before.graph.nodeAt key).revoked
    else if other ∈ lost then (before.graph.nodeAt other).doubted
    else before.graph.nodeAt other
  mem_lost : ∀ other, other ∈ lost ↔ other ≠ key ∧
    (before.graph.nodeAt other).isSettled = true ∧ before.graph.RestsOn other key
  unique : lost.Nodup
  records : after.records.toList = before.records.toList ++
    .ofSource key reason :: lost.map fun other => ⟨other, key, .dependencyInvalidated⟩

/-- A walk loses every valid result that rests on its source. -/
theorem lost_of_restsOn (linked : marking.graph.Linked)
    (closed : ∀ other dependency, (marking.graph.nodeAt other).isSettled = true →
      marking.graph.DependsOn other dependency → dependency ≠ source →
        (marking.graph.nodeAt dependency).isSettled = true)
    (rests : marking.graph.RestsOn key source)
    (settled : (marking.graph.nodeAt key).isSettled = true) :
    ((markDependents source marking).graph.nodeAt key).isSettled = false := by
  obtain ⟨_, marks⟩ := markDependents_spec source marking
  induction rests using Relation.TransGen.head_induction_on with
  | single edge => exact marks source (.inl rfl) _ ((linked _ _).mpr edge)
  | @head dependent dependency edge _ ih =>
      by_cases same : dependency = source
      · exact marks dependency (.inl same) _ ((linked _ _).mpr edge)
      · have held := closed dependent dependency settled edge same
        exact marks dependency (.inr ⟨held, ih held⟩) _ ((linked _ _).mpr edge)

theorem invalidateKey_eq (revocable : (marking.graph.nodeAt key).isRevocable = true) :
    ∃ opened : Marking κ ν φ, invalidateKey reason marking key = markDependents key opened ∧
      (∀ other, other ∈ opened.graph.keys ↔ other ∈ marking.graph.keys) ∧
      (∀ other, opened.graph.nodeAt other =
        if other = key then (marking.graph.nodeAt key).revoked else marking.graph.nodeAt other) ∧
      opened.records.toList = marking.records.toList ++ [.ofSource key reason] := by
  obtain ⟨free, rested, result, memo⟩ := Node.isRevocable_iff.mp revocable
  have known : key ∈ marking.graph.keys := by
    by_contra unknown
    rw [nodeAt_of_not_mem unknown] at memo
    simp at memo
  refine ⟨{
    graph := marking.graph.update key fun node => { node with memo := .changed result }
    records := marking.records.push (.ofSource key reason) }, ?_, fun _ => mem_keys_update, ?_,
    by simp⟩
  · unfold invalidateKey
    rw [node?_of_mem known]
    generalize marking.graph.nodeAt key = node at free rested memo
    obtain ⟨_, _, _, _, _, _, _⟩ := node
    simp only at free rested memo
    subst free rested
    rcases memo with rfl | rfl <;> rfl
  · intro other
    rw [nodeAt_update known]
    rcases memo with memo | memo <;> simp [Node.revoked, memo]

theorem invalidateKey_of_revocable (linked : marking.graph.Linked)
    (closed : marking.graph.Closed) (revocable : (marking.graph.nodeAt key).isRevocable = true) :
    ∃ lost, Struck reason key marking (invalidateKey reason marking key) lost := by
  obtain ⟨opened, struck, keys, nodes, records⟩ := invalidateKey_eq reason revocable
  have dependencies : ∀ other, (opened.graph.nodeAt other).dependencies =
      (marking.graph.nodeAt other).dependencies := by
    intro other
    rw [nodes]
    split <;> simp [*]
  have dependents : ∀ other, (opened.graph.nodeAt other).dependents =
      (marking.graph.nodeAt other).dependents := by
    intro other
    rw [nodes]
    split <;> simp [*]
  have rests := restsOn_congr dependencies
  have settled : ∀ other, (opened.graph.nodeAt other).isSettled = true ↔
      other ≠ key ∧ (marking.graph.nodeAt other).isSettled = true := by
    intro other
    rw [nodes]
    by_cases same : other = key <;> simp [same]
  have openedLinked : opened.graph.Linked := by
    intro dependent dependency
    rw [dependencies, dependents]
    exact linked dependent dependency
  obtain ⟨lost, walked⟩ := spread_walked (opened.graph.size + 1) [key] opened openedLinked
    fun other member => .inl (List.mem_singleton.mp member)
  have isWalk : markDependents key opened = spread key (opened.graph.size + 1) [key] opened := rfl
  rw [struck, isWalk]
  refine ⟨lost, fun other => (walked.keys other).trans (keys other), fun other => ?_, fun other => ?_,
    walked.unique, by simp [walked.records, records]⟩
  · rw [walked.nodes, nodes]
    by_cases same : other = key
    · have kept : key ∉ lost := fun member =>
        ((settled key).mp (walked.settled key member)).1 rfl
      simp [same, kept]
    · simp [same]
  · constructor
    · intro member
      obtain ⟨different, held⟩ := (settled other).mp (walked.settled other member)
      exact ⟨different, held, rests ▸ walked.rests other member⟩
    · rintro ⟨different, held, further⟩
      have gone := lost_of_restsOn openedLinked (fun user dependency isSettled edge notSource => by
        obtain ⟨_, wasSettled⟩ := (settled user).mp isSettled
        unfold DependsOn at edge
        rw [dependencies] at edge
        exact (settled dependency).mpr ⟨notSource, closed user dependency wasSettled edge⟩)
        (rests ▸ further) ((settled other).mpr ⟨different, held⟩)
      rw [isWalk, walked.nodes] at gone
      by_contra kept
      rw [if_neg kept, (settled other).mpr ⟨different, held⟩] at gone
      cases gone

theorem invalidateKey_of_not_revocable
    (kept : (marking.graph.nodeAt key).isRevocable = false) :
    invalidateKey reason marking key = marking := by
  have impossible : ∀ {memo dependencies dependents changed evaluated} (result : Result κ ν φ),
      marking.graph.node? key =
        some ⟨memo, dependencies, dependents, changed, evaluated, false, none⟩ →
      memo ≠ .valid result ∧ memo ≠ .dirty result := by
    intro memo _ _ _ _ result found
    rw [nodeAt_of_node? found] at kept
    rw [← not_or]
    intro remembered
    rw [Node.isRevocable_iff.mpr ⟨rfl, rfl, result, remembered⟩] at kept
    cases kept
  unfold invalidateKey
  split
  · rename_i found
    exact absurd rfl (impossible _ found).1
  · rename_i found
    exact absurd rfl (impossible _ found).2
  · rfl

end Key

/-- The key has a node, its value was not set from outside, and it has a result
to lose, which is valid or dirty. -/
def accepts (graph : Graph κ ν φ) (key : κ) : Bool := (graph.node? key).any Node.isRevocable

theorem accepts_eq (graph : Graph κ ν φ) (key : κ) :
    graph.accepts key = (graph.nodeAt key).isRevocable := by
  unfold accepts nodeAt
  cases graph.node? key <;> rfl

/-- The sources have to be computed again, the valid results of other keys that
rest on them are dirty, and everything else is as before. -/
structure Withdrawn (before : Graph κ ν φ) (sources : κ → Prop) (after : Graph κ ν φ) : Prop where
  keys : ∀ key, key ∈ after.keys ↔ key ∈ before.keys
  changed : ∀ key, sources key → after.nodeAt key = (before.nodeAt key).revoked
  dirty : ∀ key, ¬ sources key → (before.nodeAt key).isSettled = true →
    (∃ source, sources source ∧ before.RestsOn key source) →
      after.nodeAt key = (before.nodeAt key).doubted
  kept : ∀ key, ¬ sources key → ((before.nodeAt key).isSettled = true →
    ¬ ∃ source, sources source ∧ before.RestsOn key source) →
      after.nodeAt key = before.nodeAt key

section Withdrawn

variable {sources more : κ → Prop}

theorem Withdrawn.refl (graph : Graph κ ν φ) : Withdrawn graph (fun _ => False) graph :=
  ⟨fun _ => .rfl, nofun, fun _ _ _ rests => rests.elim fun _ rests => rests.1.elim, fun _ _ _ => rfl⟩

theorem Withdrawn.congr (withdrawn : Withdrawn before sources after)
    (same : ∀ key, more key ↔ sources key) : Withdrawn before more after := by
  have isSame : more = sources := funext fun key => propext (same key)
  rwa [isSame]

variable (withdrawn : Withdrawn before sources after)
include withdrawn

/-- A node is as it was, or it lost its result in one of two ways. -/
theorem Withdrawn.cases (key : κ) :
    (sources key ∧ after.nodeAt key = (before.nodeAt key).revoked) ∨
    (¬ sources key ∧ (before.nodeAt key).isSettled = true ∧
      (∃ source, sources source ∧ before.RestsOn key source) ∧
      after.nodeAt key = (before.nodeAt key).doubted) ∨
    (¬ sources key ∧ ((before.nodeAt key).isSettled = true →
      ¬ ∃ source, sources source ∧ before.RestsOn key source) ∧
      after.nodeAt key = before.nodeAt key) := by
  by_cases isSource : sources key
  · exact .inl ⟨isSource, withdrawn.changed key isSource⟩
  · by_cases loses : (before.nodeAt key).isSettled = true ∧
        ∃ source, sources source ∧ before.RestsOn key source
    · exact .inr (.inl ⟨isSource, loses.1, loses.2, withdrawn.dirty key isSource loses.1 loses.2⟩)
    · rw [not_and] at loses
      exact .inr (.inr ⟨isSource, loses, withdrawn.kept key isSource loses⟩)

theorem Withdrawn.dependencies (key : κ) :
    (after.nodeAt key).dependencies = (before.nodeAt key).dependencies := by
  rcases withdrawn.cases key with ⟨_, same⟩ | ⟨_, _, _, same⟩ | ⟨_, _, same⟩ <;> simp [same]

theorem Withdrawn.dependents (key : κ) :
    (after.nodeAt key).dependents = (before.nodeAt key).dependents := by
  rcases withdrawn.cases key with ⟨_, same⟩ | ⟨_, _, _, same⟩ | ⟨_, _, same⟩ <;> simp [same]

theorem Withdrawn.linked (linked : before.Linked) : after.Linked := by
  intro dependent dependency
  rw [withdrawn.dependencies, withdrawn.dependents]
  exact linked dependent dependency

theorem Withdrawn.settled_iff (key : κ) : (after.nodeAt key).isSettled = true ↔
    (before.nodeAt key).isSettled = true ∧ ¬ sources key ∧
      ¬ ∃ source, sources source ∧ before.RestsOn key source := by
  rcases withdrawn.cases key with ⟨isSource, same⟩ | ⟨_, _, rests, same⟩ | ⟨other, free, same⟩
  · simp [same, isSource]
  · simp only [same, Node.isSettled_doubted, Bool.false_eq_true, false_iff]
    exact fun holds => holds.2.2 rests
  · rw [same]
    exact ⟨fun settled => ⟨settled, other, free settled⟩, fun holds => holds.1⟩

theorem Withdrawn.closed (closed : before.Closed) : after.Closed := by
  intro key dependency settled edge
  unfold DependsOn at edge
  rw [withdrawn.dependencies] at edge
  rw [withdrawn.settled_iff] at settled ⊢
  obtain ⟨held, _, free⟩ := settled
  refine ⟨closed key dependency held edge, fun isSource => ?_, fun further => ?_⟩
  · exact free ⟨dependency, isSource, .single edge⟩
  · obtain ⟨source, isSource, rests⟩ := further
    exact free ⟨source, isSource, .head edge rests⟩

/-- What the sources are decides about every node. -/
theorem Withdrawn.node?_eq {others : Graph κ ν φ} (other : Withdrawn before sources others)
    (key : κ) : others.node? key = after.node? key := by
  have nodes : others.nodeAt key = after.nodeAt key := by
    rcases withdrawn.cases key with
      ⟨isSource, same⟩ | ⟨isOther, settled, rests, same⟩ | ⟨isOther, free, same⟩
    · rw [same, other.changed key isSource]
    · rw [same, other.dirty key isOther settled rests]
    · rw [same, other.kept key isOther free]
  by_cases known : key ∈ before.keys
  · rw [node?_of_mem ((other.keys key).mpr known), node?_of_mem ((withdrawn.keys key).mpr known), nodes]
  · rw [node?_of_not_mem fun member => known ((other.keys key).mp member),
      node?_of_not_mem fun member => known ((withdrawn.keys key).mp member)]

/-- No source has anything more to lose, and what the others have stays. -/
theorem Withdrawn.accepts_iff (key : κ) :
    after.accepts key = true ↔ before.accepts key = true ∧ ¬ sources key := by
  rw [accepts_eq, accepts_eq]
  rcases withdrawn.cases key with
    ⟨isSource, same⟩ | ⟨isOther, _, _, same⟩ | ⟨isOther, _, same⟩
  · simp [same, isSource]
  · simp [same, isOther, Node.isRevocable_doubted]
  · simp [same, isOther]

theorem Withdrawn.strike {reason : Reason} {marking later : Marking κ ν φ} {lost : List κ}
    (isAfter : marking.graph = after) (struck : Struck reason key marking later lost)
    (fresh : ¬ sources key) :
    Withdrawn before (fun other => sources other ∨ other = key) later.graph := by
  subst isAfter
  have rests := restsOn_congr withdrawn.dependencies
  have mem_lost : ∀ other, other ∈ lost ↔ other ≠ key ∧
      (marking.graph.nodeAt other).isSettled = true ∧ before.RestsOn other key := by
    intro other
    rw [struck.mem_lost, rests]
  refine ⟨fun other => (struck.keys other).trans (withdrawn.keys other), ?_, ?_, ?_⟩
  · rintro other (isSource | rfl)
    · have different : other ≠ key := by
        rintro rfl
        exact fresh isSource
      have kept : other ∉ lost := by
        rw [mem_lost, withdrawn.settled_iff]
        exact fun holds => holds.2.1.2.1 isSource
      rw [struck.nodes, if_neg different, if_neg kept, withdrawn.changed other isSource]
    · rw [struck.nodes, if_pos rfl]
      rcases withdrawn.cases other with
        ⟨isSource, _⟩ | ⟨_, _, _, same⟩ | ⟨_, _, same⟩
      · exact absurd isSource fresh
      · rw [same, Node.revoked_doubted]
      · rw [same]
  · rintro other isOther settled ⟨source, isSource, further⟩
    rw [not_or] at isOther
    rw [struck.nodes, if_neg isOther.2]
    by_cases earlier : ∃ source, sources source ∧ before.RestsOn other source
    · have kept : other ∉ lost := by
        rw [mem_lost, withdrawn.settled_iff]
        exact fun holds => holds.2.1.2.2 earlier
      rw [if_neg kept, withdrawn.dirty other isOther.1 settled earlier]
    · -- It rests on none of the earlier sources, so it is the new one that marks it.
      have isKey : source = key := isSource.resolve_left fun isSource =>
        earlier ⟨source, isSource, further⟩
      have member : other ∈ lost := by
        rw [mem_lost, withdrawn.settled_iff]
        exact ⟨isOther.2, ⟨settled, isOther.1, earlier⟩, isKey ▸ further⟩
      rw [if_pos member, withdrawn.kept other isOther.1 fun _ => earlier]
  · intro other isOther free
    rw [not_or] at isOther
    have kept : other ∉ lost := by
      rw [mem_lost, withdrawn.settled_iff]
      exact fun holds => free holds.2.1.1 ⟨key, .inr rfl, holds.2.2⟩
    rw [struck.nodes, if_neg isOther.2, if_neg kept]
    refine withdrawn.kept other isOther.1 fun settled rests => free settled ?_
    obtain ⟨source, isSource, further⟩ := rests
    exact ⟨source, .inl isSource, further⟩

end Withdrawn

end Graph

end MemoGraph
