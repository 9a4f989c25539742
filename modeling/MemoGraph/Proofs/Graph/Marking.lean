import MemoGraph.Graph.Invalidation
import MemoGraph.Proofs.Counting
import MemoGraph.Proofs.Graph.View

namespace MemoGraph

namespace Node

variable {κ ν φ : Type} {first second third : Node κ ν φ}

/-- The node lost its valid result, or nothing. -/
def Dirtied (before after : Node κ ν φ) : Prop :=
  after = before ∨
    ∃ result, before.result? = some result ∧ after = { before with memo := .dirty result }

theorem Dirtied.refl (node : Node κ ν φ) : Dirtied node node := .inl rfl

theorem result?_dirty (node : Node κ ν φ) (result : Result κ ν φ) :
    ({ node with memo := .dirty result } : Node κ ν φ).result? = none := by
  unfold result?
  cases node.work <;> rfl

theorem Dirtied.trans (left : Dirtied first second) (right : Dirtied second third) :
    Dirtied first third := by
  rcases left with rfl | ⟨result, valid, rfl⟩
  · exact right
  · rcases right with rfl | ⟨other, again, _⟩
    · exact .inr ⟨result, valid, rfl⟩
    · rw [result?_dirty] at again
      cases again

theorem Dirtied.dependents (dirtied : Dirtied first second) :
    second.dependents = first.dependents := by
  rcases dirtied with rfl | ⟨_, _, rfl⟩ <;> rfl

theorem Dirtied.eq_of_settled (dirtied : Dirtied first second)
    (settled : second.isSettled = true) : second = first := by
  rcases dirtied with same | ⟨result, _, rfl⟩
  · exact same
  · rw [isSettled, result?_dirty] at settled
    cases settled

/-- The node lost its result, or it has to be computed again. -/
def Marked (before after : Node κ ν φ) : Prop :=
  Dirtied before after ∨ ∃ result, before.injected = false ∧ before.work = none ∧
    (before.memo = .valid result ∨ before.memo = .dirty result) ∧
      after = { before with memo := .changed result }

theorem Dirtied.of_changed {result : Result κ ν φ} (changed : first.memo = .changed result)
    (dirtied : Dirtied first second) : second = first := by
  rcases dirtied with same | ⟨other, valid, _⟩
  · exact same
  · have memo := (result?_eq_some_iff.mp valid).2
    rw [changed] at memo
    cases memo

theorem Marked.trans (left : Marked first second) (right : Marked second third) :
    Marked first third := by
  rcases left with left | ⟨result, free, rested, memo, rfl⟩
  · rcases right with right | ⟨result, free, rested, memo, rfl⟩
    · exact .inl (left.trans right)
    · refine .inr ⟨result, ?_⟩
      rcases left with rfl | ⟨other, valid, rfl⟩
      · exact ⟨free, rested, memo, rfl⟩
      · obtain ⟨_, isValid⟩ := result?_eq_some_iff.mp valid
        have same : other = result := by simpa using memo
        subst same
        exact ⟨free, rested, .inl isValid, rfl⟩
  · rcases right with right | ⟨other, _, _, impossible, _⟩
    · rw [right.of_changed rfl]
      exact .inr ⟨result, free, rested, memo, rfl⟩
    · simp at impossible

theorem Marked.dependents (marked : Marked first second) :
    second.dependents = first.dependents := by
  rcases marked with dirtied | ⟨_, _, _, _, rfl⟩
  · exact dirtied.dependents
  · rfl

theorem Marked.injected (marked : Marked first second) : first.injected = second.injected := by
  rcases marked with (rfl | ⟨_, _, rfl⟩) | ⟨_, _, _, _, rfl⟩ <;> rfl

theorem Marked.work (marked : Marked first second) : first.work = second.work := by
  rcases marked with (rfl | ⟨_, _, rfl⟩) | ⟨_, _, _, _, rfl⟩ <;> rfl

theorem Marked.eq_of_settled (marked : Marked first second)
    (settled : second.isSettled = true) : second = first := by
  rcases marked with dirtied | ⟨result, _, _, _, rfl⟩
  · exact dirtied.eq_of_settled settled
  · obtain ⟨_, other, valid⟩ := isSettled_iff.mp settled
    cases valid

theorem Marked.remembered (marked : Marked first second) {result : Result κ ν φ}
    (memo : second.memo = .valid result ∨ second.memo = .dirty result) :
    first.memo = .valid result ∨ first.memo = .dirty result := by
  rcases marked with (rfl | ⟨other, valid, rfl⟩) | ⟨other, _, _, _, rfl⟩
  · exact memo
  · have same : other = result := by simpa using memo
    subst same
    exact .inl (result?_eq_some_iff.mp valid).2
  · simp at memo

theorem Marked.computing (marked : Marked first second)
    (computing : firstPhase? first.memo = some .computing) :
    firstPhase? second.memo = some .computing := by
  rcases marked with dirtied | ⟨_, _, _, _, rfl⟩
  · rcases dirtied with rfl | ⟨_, valid, rfl⟩
    · exact computing
    · rw [(result?_eq_some_iff.mp valid).2] at computing
      cases computing
  · rfl

end Node

namespace Graph

variable {κ ν φ : Type} [Key κ] {before middle after graph : Graph κ ν φ}

/-- Some dependents lost their valid results. -/
structure Dirtied (before after : Graph κ ν φ) : Prop where
  nodes : ∀ key, (before.nodeAt key).Dirtied (after.nodeAt key)
  keys : ∀ key, key ∈ after.keys ↔ key ∈ before.keys
  others : ∀ key, (∀ other, key ∉ (before.nodeAt other).dependents) →
    after.nodeAt key = before.nodeAt key

theorem Dirtied.refl (graph : Graph κ ν φ) : Dirtied graph graph :=
  ⟨fun _ => .refl _, fun _ => .rfl, fun _ _ => rfl⟩

theorem Dirtied.trans (left : Dirtied before middle) (right : Dirtied middle after) :
    Dirtied before after := by
  refine ⟨fun key => (left.nodes key).trans (right.nodes key),
    fun key => (right.keys key).trans (left.keys key), fun key nowhere => ?_⟩
  have stillNowhere : ∀ other, key ∉ (middle.nodeAt other).dependents := by
    intro other
    rw [(left.nodes other).dependents]
    exact nowhere other
  rw [right.others key stillNowhere, left.others key nowhere]

theorem Dirtied.unsettled (dirtied : Dirtied before after) {key : κ}
    (unsettled : (before.nodeAt key).isSettled = false) :
    (after.nodeAt key).isSettled = false := by
  by_contra settled
  rw [Bool.not_eq_false] at settled
  rw [(dirtied.nodes key).eq_of_settled settled, unsettled] at settled
  cases settled

theorem dirtied_update {key : κ} {result : Result κ ν φ} (valid : graph.result? key = some result)
    (listed : ∃ other, key ∈ (graph.nodeAt other).dependents) :
    Dirtied graph (graph.update key fun node => { node with memo := .dirty result }) := by
  have known : key ∈ graph.keys := mem_keys_of_result? (by simp [valid])
  refine ⟨fun other => ?_, fun other => mem_keys_update, fun other nowhere => ?_⟩
  · rw [nodeAt_update known]
    split
    · rename_i same
      subst same
      exact .inr ⟨result, by rw [← result?_eq]; exact valid, rfl⟩
    · exact .refl _
  · rw [nodeAt_update known, if_neg]
    rintro rfl
    obtain ⟨dependency, member⟩ := listed
    exact nowhere dependency member

def settledAmong (graph : Graph κ ν φ) (keys : List κ) : Nat :=
  keys.countP fun key => (graph.nodeAt key).isSettled

/-- Marking some keys: whatever lost its result is pending. -/
structure Spreading (known : List κ) (before : Graph κ ν φ) (pending : List κ)
    (after : Graph κ ν φ) (later : List κ) : Prop where
  dirtied : Dirtied before after
  more : ∃ more, later = pending ++ more ∧
    (∀ key, (before.nodeAt key).isSettled = true → (after.nodeAt key).isSettled = false →
      key ∈ more) ∧
    more.length + after.settledAmong known ≤ before.settledAmong known

theorem Spreading.refl (known : List κ) (graph : Graph κ ν φ) (pending : List κ) :
    Spreading known graph pending graph pending := by
  refine ⟨.refl graph, [], (List.append_nil pending).symm, fun key settled unsettled => ?_, by simp⟩
  rw [settled] at unsettled
  cases unsettled

theorem Spreading.trans {known pending next later : List κ}
    (left : Spreading known before pending middle next)
    (right : Spreading known middle next after later) :
    Spreading known before pending after later := by
  obtain ⟨first, rfl, firstLost, firstCount⟩ := left.more
  obtain ⟨second, rfl, secondLost, secondCount⟩ := right.more
  refine ⟨left.dirtied.trans right.dirtied, first ++ second, by rw [List.append_assoc], ?_, ?_⟩
  · intro key settled unsettled
    cases between : (middle.nodeAt key).isSettled with
    | true => exact List.mem_append_right _ (secondLost key between unsettled)
    | false => exact List.mem_append_left _ (firstLost key settled between)
  · rw [List.length_append]
    omega

variable {known : List κ} (source : κ)

/-- Marking one dependent: it loses its result, if it has one. -/
theorem markDirty_spec (marking : Marking κ ν φ)
    (covers : ∀ key, (marking.graph.nodeAt key).isSettled = true → key ∈ known)
    (pending : List κ) {dependent : κ}
    (listed : ∃ other, dependent ∈ (marking.graph.nodeAt other).dependents) :
    Spreading known marking.graph pending
        (markDirty source (marking, pending) dependent).1.graph
        (markDirty source (marking, pending) dependent).2 ∧
      ((markDirty source (marking, pending) dependent).1.graph.nodeAt dependent).isSettled =
        false := by
  unfold markDirty
  cases valid : marking.graph.result? dependent with
  | none =>
      simp only [valid]
      exact ⟨.refl known marking.graph pending, by rw [Node.isSettled, ← result?_eq, valid]; rfl⟩
  | some result =>
      simp only [valid]
      have dirtied := dirtied_update valid listed
      have isKnown : dependent ∈ marking.graph.keys := mem_keys_of_result? (by simp [valid])
      have node : ∀ other, (marking.graph.update dependent fun node =>
          { node with memo := .dirty result }).nodeAt other =
            if other = dependent then { marking.graph.nodeAt dependent with memo := .dirty result }
            else marking.graph.nodeAt other := fun other => nodeAt_update isKnown ..
      have settled : (marking.graph.nodeAt dependent).isSettled = true := by
        rw [Node.isSettled, ← result?_eq, valid]
        rfl
      have lost : ((marking.graph.update dependent fun node =>
          { node with memo := .dirty result }).nodeAt dependent).isSettled = false := by
        rw [node, if_pos rfl, Node.isSettled, Node.result?_dirty]
        rfl
      refine ⟨⟨dirtied, [dependent], rfl, fun key was unsettled => ?_, ?_⟩, lost⟩
      · rw [node] at unsettled
        split at unsettled
        · rename_i same
          exact List.mem_singleton.mpr same
        · rw [was] at unsettled
          cases unsettled
      · rw [List.length_singleton, Nat.add_comm]
        refine countP_lt_countP (fun key _ still => ?_) (covers dependent settled) settled lost
        by_contra unsettled
        rw [Bool.not_eq_true] at unsettled
        rw [dirtied.unsettled unsettled] at still
        cases still

theorem Dirtied.covers (dirtied : Dirtied before after)
    (covers : ∀ key, (before.nodeAt key).isSettled = true → key ∈ known) (key : κ)
    (settled : (after.nodeAt key).isSettled = true) : key ∈ known := by
  refine covers key ?_
  rw [← (dirtied.nodes key).eq_of_settled settled]
  exact settled

theorem foldl_markDirty_spec (dependents : List κ) (marking : Marking κ ν φ)
    (covers : ∀ key, (marking.graph.nodeAt key).isSettled = true → key ∈ known)
    (pending : List κ)
    (listed : ∀ dependent ∈ dependents, ∃ other,
      dependent ∈ (marking.graph.nodeAt other).dependents) :
    Spreading known marking.graph pending
        (dependents.foldl (markDirty source) (marking, pending)).1.graph
        (dependents.foldl (markDirty source) (marking, pending)).2 ∧
      ∀ dependent ∈ dependents,
        ((dependents.foldl (markDirty source) (marking, pending)).1.graph.nodeAt
          dependent).isSettled = false := by
  induction dependents generalizing marking pending with
  | nil => exact ⟨.refl known marking.graph pending, by simp⟩
  | cons dependent rest ih =>
      obtain ⟨first, lost⟩ := markDirty_spec source marking covers pending
        (listed dependent List.mem_cons_self)
      rw [List.foldl_cons]
      generalize markDirty source (marking, pending) dependent = marked at first lost ⊢
      obtain ⟨middle, next⟩ := marked
      obtain ⟨second, others⟩ := ih middle (first.dirtied.covers covers) next fun other member => by
        obtain ⟨dependency, isListed⟩ := listed other (List.mem_cons_of_mem dependent member)
        exact ⟨dependency, (first.dirtied.nodes dependency).dependents.symm ▸ isListed⟩
      refine ⟨first.trans second, fun other member => ?_⟩
      rcases List.mem_cons.mp member with rfl | inRest
      · exact second.dirtied.unsettled lost
      · exact others other inRest

private theorem not_lost {key : κ} : ¬ (key ∈ ([] : List κ) ∨
    ((graph.nodeAt key).isSettled = true ∧ (graph.nodeAt key).isSettled = false)) := by
  simp

/-- Once nothing is pending, no valid result depends on a pending key or on one
that lost its result. -/
theorem spread_spec (bound : Nat) (pending : List κ) (marking : Marking κ ν φ)
    (covers : ∀ key, (marking.graph.nodeAt key).isSettled = true → key ∈ known)
    (room : pending.length + marking.graph.settledAmong known ≤ bound) :
    Dirtied marking.graph (spread source bound pending marking).graph ∧
      ∀ key, key ∈ pending ∨ ((marking.graph.nodeAt key).isSettled = true ∧
          ((spread source bound pending marking).graph.nodeAt key).isSettled = false) →
        ∀ dependent ∈ (marking.graph.nodeAt key).dependents,
          ((spread source bound pending marking).graph.nodeAt dependent).isSettled = false := by
  induction bound generalizing pending marking with
  | zero =>
      have nothing : pending = [] := List.eq_nil_of_length_eq_zero (by omega)
      subst nothing
      exact ⟨.refl _, fun key lost => (not_lost lost).elim⟩
  | succ bound ih =>
      cases pending with
      | nil => exact ⟨.refl _, fun key lost => (not_lost lost).elim⟩
      | cons first pending =>
          have same : ((marking.graph.node? first).map Node.dependents).getD [] =
              (marking.graph.nodeAt first).dependents := by
            unfold nodeAt
            cases marking.graph.node? first <;> rfl
          rw [spread]
          simp only [same]
          obtain ⟨spreading, marked⟩ := foldl_markDirty_spec source
            (marking.graph.nodeAt first).dependents marking covers pending
            fun dependent member => ⟨first, member⟩
          generalize (marking.graph.nodeAt first).dependents.foldl (markDirty source)
            (marking, pending) = state at spreading marked ⊢
          obtain ⟨middle, next⟩ := state
          obtain ⟨more, pushed, lostMore, count⟩ := spreading.more
          simp only at pushed lostMore count spreading marked ⊢
          have enough : next.length + middle.graph.settledAmong known ≤ bound := by
            rw [pushed, List.length_append]
            rw [List.length_cons] at room
            omega
          obtain ⟨dirtied, closed⟩ := ih next middle (spreading.dirtied.covers covers) enough
          have edges : ∀ key, (middle.graph.nodeAt key).dependents =
              (marking.graph.nodeAt key).dependents :=
            fun key => (spreading.dirtied.nodes key).dependents
          refine ⟨spreading.dirtied.trans dirtied, fun key lost dependent member => ?_⟩
          have later : key ∈ next → ((spread source bound next middle).graph.nodeAt
              dependent).isSettled = false :=
            fun isPending => closed key (.inl isPending) dependent (edges key ▸ member)
          rcases lost with isPending | ⟨settled, unsettled⟩
          · rcases List.mem_cons.mp isPending with rfl | inRest
            · exact dirtied.unsettled (marked dependent member)
            · exact later (pushed ▸ List.mem_append_left more inRest)
          · cases between : (middle.graph.nodeAt key).isSettled with
            | true => exact closed key (.inr ⟨between, unsettled⟩) dependent (edges key ▸ member)
            | false => exact later (pushed ▸ List.mem_append_right pending (lostMore key settled between))

/-- No valid result depends on the source, or on a key that lost its result. -/
theorem markDependents_spec (marking : Marking κ ν φ) :
    Dirtied marking.graph (markDependents source marking).graph ∧
      ∀ key, key = source ∨ ((marking.graph.nodeAt key).isSettled = true ∧
          ((markDependents source marking).graph.nodeAt key).isSettled = false) →
        ∀ dependent ∈ (marking.graph.nodeAt key).dependents,
          ((markDependents source marking).graph.nodeAt dependent).isSettled = false := by
  have covers : ∀ key, (marking.graph.nodeAt key).isSettled = true → key ∈ marking.graph.keys :=
    fun key settled => mem_keys_of_result? (by rw [result?_eq]; exact settled)
  have room : [source].length + marking.graph.settledAmong marking.graph.keys ≤
      marking.graph.size + 1 := by
    have most : marking.graph.settledAmong marking.graph.keys ≤ marking.graph.keys.length :=
      List.countP_le_length
    have size : marking.graph.keys.length = marking.graph.size := Std.TreeMap.length_keys
    rw [List.length_singleton]
    omega
  obtain ⟨dirtied, closed⟩ := spread_spec source _ [source] marking covers room
  refine ⟨dirtied, fun key lost => closed key ?_⟩
  rcases lost with same | gone
  · exact .inl (List.mem_singleton.mpr same)
  · exact .inr gone

/-- Some keys lost their valid results, and with each of them its dependents. -/
structure Marked (before after : Graph κ ν φ) : Prop where
  nodes : ∀ key, (before.nodeAt key).Marked (after.nodeAt key)
  keys : ∀ key, key ∈ after.keys ↔ key ∈ before.keys
  closed : ∀ key, (before.nodeAt key).isSettled = true → (after.nodeAt key).isSettled = false →
    ∀ dependent ∈ (before.nodeAt key).dependents, (after.nodeAt dependent).isSettled = false
  spared : ∀ key, (before.nodeAt key).injected = true →
    (∀ other, key ∉ (before.nodeAt other).dependents) → after.nodeAt key = before.nodeAt key

theorem Marked.refl (graph : Graph κ ν φ) : Marked graph graph := by
  refine ⟨fun _ => .inl (.refl _), fun _ => .rfl, fun key settled unsettled => ?_,
    fun _ _ _ => rfl⟩
  rw [settled] at unsettled
  cases unsettled

theorem Marked.unsettled (marked : Marked before after) {key : κ}
    (unsettled : (before.nodeAt key).isSettled = false) :
    (after.nodeAt key).isSettled = false := by
  by_contra settled
  rw [Bool.not_eq_false] at settled
  rw [(marked.nodes key).eq_of_settled settled, unsettled] at settled
  cases settled

theorem Marked.trans (left : Marked before middle) (right : Marked middle after) :
    Marked before after := by
  refine ⟨fun key => (left.nodes key).trans (right.nodes key),
    fun key => (right.keys key).trans (left.keys key), fun key settled unsettled dependent member =>
      ?_, fun key injected nowhere => ?_⟩
  · cases between : (middle.nodeAt key).isSettled with
    | true =>
        exact right.closed key between unsettled dependent ((left.nodes key).dependents ▸ member)
    | false => exact right.unsettled (left.closed key settled between dependent member)
  · rw [right.spared key ((left.nodes key).injected ▸ injected) fun other =>
      (left.nodes other).dependents.symm ▸ nowhere other]
    exact left.spared key injected nowhere

/-- A key that has to be computed again takes the results of its dependents with it. -/
theorem marked_of_changed {key : κ} {result : Result κ ν φ}
    (free : (graph.nodeAt key).injected = false) (rested : (graph.nodeAt key).work = none)
    (memo : (graph.nodeAt key).memo = .valid result ∨ (graph.nodeAt key).memo = .dirty result)
    (known : key ∈ graph.keys) (records : Array (Invalidation κ)) :
    Marked graph (markDependents key
        { graph := graph.update key fun node => { node with memo := .changed result }
          records }).graph ∧
      Node.firstPhase? ((markDependents key
        { graph := graph.update key fun node => { node with memo := .changed result }
          records }).graph.nodeAt key).memo = some .computing := by
  have node : ∀ other, (graph.update key fun node =>
      { node with memo := .changed result }).nodeAt other =
        if other = key then { graph.nodeAt key with memo := .changed result }
        else graph.nodeAt other := fun other => nodeAt_update known ..
  have opened : ∀ other, (graph.nodeAt other).Marked ((graph.update key fun node =>
      { node with memo := .changed result }).nodeAt other) := by
    intro other
    rw [node]
    split
    · rename_i same
      rw [same]
      exact .inr ⟨result, free, rested, memo, rfl⟩
    · exact .inl (.refl _)
  obtain ⟨dirtied, closed⟩ := markDependents_spec key
    { graph := graph.update key fun node => { node with memo := .changed result }, records }
  have marked : ∀ other, (graph.nodeAt other).Marked ((markDependents key
      { graph := graph.update key fun node => { node with memo := .changed result }
        records }).graph.nodeAt other) :=
    fun other => (opened other).trans (.inl (dirtied.nodes other))
  refine ⟨⟨marked, fun other => (dirtied.keys other).trans mem_keys_update,
    fun other settled unsettled dependent member => ?_, fun other injected nowhere => ?_⟩, ?_⟩
  · refine closed other ?_ dependent ((opened other).dependents.symm ▸ member)
    by_cases same : other = key
    · exact .inl same
    · refine .inr ⟨?_, unsettled⟩
      show ((graph.update key fun node =>
        { node with memo := .changed result }).nodeAt other).isSettled = true
      rw [node, if_neg same]
      exact settled
  · have different : other ≠ key := by
      rintro rfl
      rw [free] at injected
      cases injected
    refine (dirtied.others other fun dependency => ?_).trans ((node other).trans (if_neg different))
    exact (opened dependency).dependents.symm ▸ nowhere dependency
  · refine Node.Marked.computing (.inl (dirtied.nodes key)) ?_
    show Node.firstPhase? ((graph.update key fun node =>
      { node with memo := .changed result }).nodeAt key).memo = _
    rw [node, if_pos rfl]
    rfl

theorem invalidateKey_spec (reason : Reason) (marking : Marking κ ν φ) (key : κ) :
    Marked marking.graph (invalidateKey reason marking key).graph ∧
      ((marking.graph.nodeAt key).injected = false → (marking.graph.nodeAt key).work = none →
        Node.firstPhase? ((invalidateKey reason marking key).graph.nodeAt key).memo =
          some .computing) := by
  unfold invalidateKey
  split
  · rename_i found
    have node := nodeAt_of_node? found
    have known : key ∈ marking.graph.keys := mem_keys.mpr (by simp [found])
    have marked := marked_of_changed
      (by rw [node]) (by rw [node]) (by rw [node]; exact .inl rfl) known
    exact ⟨(marked _).1, fun _ _ => (marked _).2⟩
  · rename_i found
    have node := nodeAt_of_node? found
    have known : key ∈ marking.graph.keys := mem_keys.mpr (by simp [found])
    have marked := marked_of_changed
      (by rw [node]) (by rw [node]) (by rw [node]; exact .inr rfl) known
    exact ⟨(marked _).1, fun _ _ => (marked _).2⟩
  · rename_i notValid notDirty
    refine ⟨.refl _, fun free rested => ?_⟩
    by_cases known : key ∈ marking.graph.keys
    · have found := node?_of_mem known
      generalize marking.graph.nodeAt key = node at found free rested ⊢
      obtain ⟨memo, dependencies, dependents, changed, evaluated, injected, work⟩ := node
      simp only at free rested
      subst free rested
      cases memo with
      | valid result => exact (notValid _ _ _ _ _ found).elim
      | dirty result => exact (notDirty _ _ _ _ _ found).elim
      | blank => rfl
      | changed result => rfl
    · rw [nodeAt_of_not_mem known]
      rfl

/-- Invalidated keys have to be computed again, unless their value was set from
outside or a round works on them. -/
theorem invalidate_spec (graph : Graph κ ν φ) (keys : List κ) (reason : Reason) :
    Marked graph (graph.invalidate keys reason).graph ∧
      ∀ key ∈ keys, (graph.nodeAt key).injected = false → (graph.nodeAt key).work = none →
        Node.firstPhase? ((graph.invalidate keys reason).graph.nodeAt key).memo =
          some .computing := by
  suffices all : ∀ marking : Marking κ ν φ,
      Marked marking.graph (keys.foldl (invalidateKey reason) marking).graph ∧
        ∀ key ∈ keys, (marking.graph.nodeAt key).injected = false →
          (marking.graph.nodeAt key).work = none →
            Node.firstPhase? ((keys.foldl (invalidateKey reason) marking).graph.nodeAt key).memo =
              some .computing from all { graph }
  intro marking
  induction keys generalizing marking with
  | nil => exact ⟨.refl _, by simp⟩
  | cons first rest ih =>
      obtain ⟨marked, computing⟩ := invalidateKey_spec reason marking first
      obtain ⟨markedRest, computingRest⟩ := ih (invalidateKey reason marking first)
      refine ⟨marked.trans markedRest, fun key member free rested => ?_⟩
      rcases List.mem_cons.mp member with rfl | inRest
      · exact (markedRest.nodes key).computing (computing free rested)
      · have kept := marked.nodes key
        exact computingRest key inRest (kept.injected ▸ free) (kept.work ▸ rested)

end Graph

end MemoGraph
