import MemoGraph.Proofs.Round.Effects

namespace MemoGraph.Round

variable {κ ν φ : Type} [Key κ] {round : Round κ ν φ}

/-- Asking for a dependency: what is found is what its node says, and the
waiter is listed unless there is a result. -/
theorem join_spec (waiter dependency : κ) :
    (∀ other, (round.join waiter dependency).1.graph.nodeAt other =
      if other = dependency then (round.graph.nodeAt dependency).joined waiter
      else round.graph.nodeAt other) ∧
    (∀ other, other ∈ (round.join waiter dependency).1.graph.keys ↔
      other = dependency ∨ other ∈ round.graph.keys) ∧
    (round.join waiter dependency).1.started = (round.start dependency).1.started ∧
    SameContext round (round.join waiter dependency).1 ∧
    (round.join waiter dependency).2 =
      if (round.graph.nodeAt dependency).isSettled then .settled
      else if (round.graph.nodeAt dependency).isIdle then .started else .underway := by
  have found : ((round.start dependency).1.graph.result? dependency).isSome =
      (round.graph.nodeAt dependency).isSettled := by
    rw [Graph.result?_eq, nodeAt_start, if_pos rfl]
    cases idle : (round.graph.nodeAt dependency).isIdle with
    | true =>
        obtain ⟨phase, _, taken⟩ := Node.taken_of_idle idle
        rw [taken, Node.result?_of_work rfl, Node.isSettled, (Node.isIdle_iff.mp idle).2]
    | false => rw [Node.taken_of_not_idle idle, Node.isSettled]
  unfold join
  simp only [found, start_snd]
  cases settled : (round.graph.nodeAt dependency).isSettled with
  | true =>
      refine ⟨fun other => ?_, fun _ => mem_keys_start, rfl, sameContext_start dependency, rfl⟩
      rw [Node.joined_of_settled settled]
      show (round.start dependency).1.graph.nodeAt other = _
      rw [nodeAt_start, Node.taken_of_not_idle (Node.not_idle_of_settled settled)]
  | false =>
      refine ⟨fun other => ?_, fun other => ?_, rfl, ?_, rfl⟩
      · show ((round.start dependency).1.graph.updateWork dependency _).nodeAt other = _
        rw [Graph.nodeAt_updateWork, nodeAt_start, nodeAt_start, if_pos rfl, Node.joined, settled,
          if_neg Bool.false_ne_true]
        split <;> rfl
      · show other ∈ ((round.start dependency).1.graph.updateWork dependency _).keys ↔ _
        rw [Graph.mem_keys_updateWork]
        exact mem_keys_start
      · exact (sameContext_start dependency).trans ⟨rfl, rfl, rfl, rfl⟩

def settledAmong (round : Round κ ν φ) (keys : List κ) : Nat :=
  keys.countP fun key => (round.graph.nodeAt key).isSettled

/-- What `joinAll` makes of a round, for distinct dependencies of a key that is
worked on: every dependency is joined, and the key stops waiting for those with
a result. -/
structure JoinedAll (before : Round κ ν φ) (waiter : κ) (dependencies : List κ)
    (after : Round κ ν φ) (ready : List κ) : Prop where
  others : ∀ other, other ≠ waiter → after.graph.nodeAt other =
    if other ∈ dependencies then (before.graph.nodeAt other).joined waiter
    else before.graph.nodeAt other
  own : after.graph.nodeAt waiter = (before.graph.nodeAt waiter).updateWork fun work =>
    { work with
      pending := work.pending - before.settledAmong dependencies
      waiters := if waiter ∈ dependencies then work.waiters ++ [waiter] else work.waiters }
  keys : ∀ other, other ∈ after.graph.keys ↔ other ∈ dependencies ∨ other ∈ before.graph.keys
  started : after.started.toList =
    before.started.toList ++ dependencies.filter fun key => (before.graph.nodeAt key).isIdle
  context : SameContext before after
  ready : ready = dependencies.filter fun key => (before.graph.nodeAt key).isIdle

theorem JoinedAll.settled_idle {before after : Round κ ν φ} {waiter : κ} {dependencies ready : List κ}
    (joined : JoinedAll before waiter dependencies after ready) {key : κ}
    (apart : key ∉ dependencies) :
    (after.graph.nodeAt key).isSettled = (before.graph.nodeAt key).isSettled ∧
      (after.graph.nodeAt key).isIdle = (before.graph.nodeAt key).isIdle := by
  by_cases same : key = waiter
  · subst same
    rw [joined.own]
    simp
  · rw [joined.others key same, if_neg apart]
    exact ⟨rfl, rfl⟩

theorem JoinedAll.append {before middle after : Round κ ν φ} {waiter : κ}
    {first rest ready restReady : List κ}
    (left : JoinedAll before waiter first middle ready) (disjoint : ∀ key ∈ rest, key ∉ first)
    (right : JoinedAll middle waiter rest after restReady) :
    JoinedAll before waiter (first ++ rest) after (ready ++ restReady) := by
  have settled : middle.settledAmong rest = before.settledAmong rest :=
    List.countP_congr fun key member => by rw [(left.settled_idle (disjoint key member)).1]
  have idle : (rest.filter fun key => (middle.graph.nodeAt key).isIdle) =
      rest.filter fun key => (before.graph.nodeAt key).isIdle :=
    List.filter_congr fun key member => (left.settled_idle (disjoint key member)).2
  constructor
  case others =>
    intro other different
    rw [right.others other different, left.others other different]
    by_cases inRest : other ∈ rest
    · simp [inRest, disjoint other inRest]
    · simp [inRest]
  case own =>
    rw [right.own, left.own, Node.updateWork_updateWork, settled]
    congr 1
    funext work
    have total : before.settledAmong (first ++ rest) =
        before.settledAmong first + before.settledAmong rest := List.countP_append
    simp only [Function.comp_apply, total, Nat.sub_sub, List.mem_append]
    by_cases inRest : waiter ∈ rest
    · simp [inRest, disjoint waiter inRest]
    · simp [inRest]
  case keys =>
    intro other
    rw [right.keys, left.keys, List.mem_append]
    tauto
  case started =>
    rw [right.started, left.started, idle, List.filter_append, List.append_assoc]
  case context => exact left.context.trans right.context
  case ready => rw [left.ready, right.ready, idle, List.filter_append]

theorem joinAll_cons (waiter dependency : κ) (rest : List κ)
    (taken : (round.graph.nodeAt waiter).work.isSome = true) :
    ∃ middle ready, JoinedAll round waiter [dependency] middle ready ∧
      round.joinAll waiter (dependency :: rest) =
        ((middle.joinAll waiter rest).1, ready ++ (middle.joinAll waiter rest).2) := by
  obtain ⟨joined, keys, started, context, found⟩ := round.join_spec waiter dependency
  have others : ∀ other, other ≠ waiter →
      (round.join waiter dependency).1.graph.nodeAt other =
        if other ∈ [dependency] then (round.graph.nodeAt other).joined waiter
        else round.graph.nodeAt other := by
    intro other _
    rw [joined]
    by_cases same : other = dependency
    · subst same
      simp
    · simp [same]
  have ownNode : (round.join waiter dependency).1.graph.nodeAt waiter =
      (round.graph.nodeAt waiter).updateWork fun work =>
        { work with
          waiters := if waiter ∈ [dependency] then work.waiters ++ [waiter] else work.waiters } := by
    rw [joined]
    by_cases same : waiter = dependency
    · subst same
      simp [Node.joined_of_work taken]
    · simp only [if_neg same, List.mem_singleton]
      exact (Node.updateWork_id).symm
  have startedList : (round.join waiter dependency).1.started.toList = round.started.toList ++
      [dependency].filter fun key => (round.graph.nodeAt key).isIdle := by
    rw [started, started_start]
  have keysList : ∀ other, other ∈ (round.join waiter dependency).1.graph.keys ↔
      other ∈ [dependency] ∨ other ∈ round.graph.keys := by
    intro other
    rw [keys, List.mem_singleton]
  have split : round.join waiter dependency =
      ((round.join waiter dependency).1, (round.join waiter dependency).2) := rfl
  cases settled : (round.graph.nodeAt dependency).isSettled with
  | true =>
      have busy := Node.not_idle_of_settled settled
      rw [settled, if_pos rfl] at found
      obtain ⟨releaseKeys, releaseStarted, releaseContext⟩ :=
        (round.join waiter dependency).1.release_fst waiter
      refine ⟨((round.join waiter dependency).1.release waiter).1, [], ⟨?_, ?_, ?_, ?_, ?_, ?_⟩, ?_⟩
      · intro other different
        rw [nodeAt_release, if_neg different, others other different]
      · rw [nodeAt_release, if_pos rfl, ownNode, Node.updateWork_updateWork]
        simp [settledAmong, settled, Function.comp_def]
      · intro other
        rw [releaseKeys, keysList]
      · rw [releaseStarted, startedList]
      · exact context.trans releaseContext
      · simp [busy]
      · rw [joinAll, split, found]
        rfl
  | false =>
      rw [settled, if_neg Bool.false_ne_true] at found
      refine ⟨(round.join waiter dependency).1, [dependency].filter fun key =>
        (round.graph.nodeAt key).isIdle, ⟨others, ?_, keysList, startedList, context, rfl⟩, ?_⟩
      · rw [ownNode]
        simp [settledAmong, settled]
      · rw [joinAll, split, found]
        cases idle : (round.graph.nodeAt dependency).isIdle <;> simp [idle]

theorem joinAll_spec {waiter : κ} {dependencies : List κ} (unique : dependencies.Nodup)
    (taken : (round.graph.nodeAt waiter).work.isSome = true) :
    JoinedAll round waiter dependencies (round.joinAll waiter dependencies).1
      (round.joinAll waiter dependencies).2 := by
  induction dependencies generalizing round with
  | nil =>
      refine ⟨fun _ _ => by simp [joinAll], ?_, fun _ => by simp [joinAll], by simp [joinAll],
        .refl round, rfl⟩
      exact (Node.updateWork_of_fixed _ fun _ _ => by simp [settledAmong]).symm
  | cons dependency rest ih =>
      obtain ⟨fresh, restUnique⟩ := List.nodup_cons.mp unique
      obtain ⟨middle, ready, joined, steps⟩ := joinAll_cons waiter dependency rest taken
      have stillTaken : (middle.graph.nodeAt waiter).work.isSome = true := by
        rw [joined.own, Node.updateWork_work, Option.isSome_map]
        exact taken
      rw [steps]
      have apart : ∀ key ∈ rest, key ∉ [dependency] := by
        intro key member
        rw [List.mem_singleton]
        rintro rfl
        exact fresh member
      have appended := joined.append apart (ih restUnique stillTaken)
      exact appended

/-- What `await` makes of a round, for distinct dependencies of a key that is
worked on. -/
structure Awaited (before : Round κ ν φ) (key : κ) (dependencies : List κ)
    (after : Round κ ν φ) (ready : List κ) : Prop where
  others : ∀ other, other ≠ key → after.graph.nodeAt other =
    if other ∈ dependencies then (before.graph.nodeAt other).joined key
    else before.graph.nodeAt other
  own : after.graph.nodeAt key = (before.graph.nodeAt key).updateWork fun work =>
    { work with
      pending := dependencies.countP fun key => !(before.graph.nodeAt key).isSettled
      batch := dependencies
      waiters := if key ∈ dependencies then work.waiters ++ [key] else work.waiters }
  keys : ∀ other, other ∈ after.graph.keys ↔ other ∈ dependencies ∨ other ∈ before.graph.keys
  started : after.started.toList =
    before.started.toList ++ dependencies.filter fun key => (before.graph.nodeAt key).isIdle
  context : SameContext before after
  ready : ready = (dependencies.filter fun key => (before.graph.nodeAt key).isIdle) ++
    if dependencies.all fun key => (before.graph.nodeAt key).isSettled then [key] else []

theorem await_spec {key : κ} {dependencies : List κ} (unique : dependencies.Nodup)
    (taken : (round.graph.nodeAt key).work.isSome = true) :
    Awaited round key dependencies (round.await key dependencies).1
      (round.await key dependencies).2 := by
  obtain ⟨work, found⟩ := Option.isSome_iff_exists.mp taken
  -- One is counted too many while the dependencies are joined, so that the key
  -- cannot be released in between.
  let opened := round.updateWork key fun work =>
    { work with pending := dependencies.length + 1, batch := dependencies }
  have openedNode : ∀ other, opened.graph.nodeAt other =
      if other = key then (round.graph.nodeAt key).updateWork fun work =>
        { work with pending := dependencies.length + 1, batch := dependencies }
      else round.graph.nodeAt other := fun other => Graph.nodeAt_updateWork ..
  have status : ∀ other,
      (opened.graph.nodeAt other).isSettled = (round.graph.nodeAt other).isSettled ∧
      (opened.graph.nodeAt other).isIdle = (round.graph.nodeAt other).isIdle := by
    intro other
    rw [openedNode]
    split
    · rename_i same
      simp [same]
    · exact ⟨rfl, rfl⟩
  have openedTaken : (opened.graph.nodeAt key).work.isSome = true := by
    rw [openedNode, if_pos rfl, Node.updateWork_work, Option.isSome_map]
    exact taken
  obtain ⟨others, own, keys, started, context, ready⟩ := joinAll_spec unique openedTaken
  have settledCount : opened.settledAmong dependencies = round.settledAmong dependencies :=
    List.countP_congr fun other _ => by rw [(status other).1]
  have idleList : (dependencies.filter fun key => (opened.graph.nodeAt key).isIdle) =
      dependencies.filter fun key => (round.graph.nodeAt key).isIdle :=
    List.filter_congr fun other _ => (status other).2
  have total : dependencies.length = round.settledAmong dependencies +
      dependencies.countP fun key => !(round.graph.nodeAt key).isSettled := by
    have parts := List.length_eq_countP_add_countP
      (fun key => (round.graph.nodeAt key).isSettled) (l := dependencies)
    simpa [settledAmong] using parts
  let middle := (opened.joinAll key dependencies).1
  have middleOwn : middle.graph.nodeAt key = (round.graph.nodeAt key).updateWork fun work =>
      { work with
        pending := dependencies.length + 1 - round.settledAmong dependencies
        batch := dependencies
        waiters := if key ∈ dependencies then work.waiters ++ [key] else work.waiters } := by
    rw [own, openedNode, if_pos rfl, Node.updateWork_updateWork, settledCount]
    rfl
  have awaited : round.await key dependencies =
      ((middle.release key).1,
        (opened.joinAll key dependencies).2 ++ if (middle.release key).2 then [key] else []) := by
    unfold await
    simp only
    show _ = ((middle.release key).1, _)
    cases (middle.release key).2 <;> simp [middle, opened]
  obtain ⟨releaseKeys, releaseStarted, releaseContext⟩ := middle.release_fst key
  rw [awaited]
  constructor
  case others =>
    intro other different
    rw [nodeAt_release, if_neg different, others other different, openedNode, if_neg different]
  case own =>
    rw [nodeAt_release, if_pos rfl, middleOwn, Node.updateWork_updateWork]
    congr 1
    funext work
    simp only [Function.comp_apply]
    congr 1
    omega
  case keys =>
    intro other
    rw [releaseKeys, keys]
    show _ ∨ other ∈ (round.graph.updateWork key _).keys ↔ _
    rw [Graph.mem_keys_updateWork]
  case started =>
    rw [releaseStarted, started, idleList]
    rfl
  case context =>
    have opening : SameContext round opened := ⟨rfl, rfl, rfl, rfl⟩
    exact (opening.trans context).trans releaseContext
  case ready =>
    have pending : middle.pending key =
        1 + dependencies.countP fun key => !(round.graph.nodeAt key).isSettled := by
      rw [Round.pending, middleOwn, Node.updateWork_work, found, Option.map_some, Option.map_some,
        Option.getD_some]
      show dependencies.length + 1 - round.settledAmong dependencies = _
      omega
    rw [ready, idleList, release_snd, pending]
    have last : (1 + dependencies.countP fun key => !(round.graph.nodeAt key).isSettled) = 1 ↔
        dependencies.all (fun key => (round.graph.nodeAt key).isSettled) = true := by
      rw [Nat.add_eq_left, List.countP_eq_zero, List.all_eq_true]
      simp
    simp only [decide_eq_true_eq, last]

end MemoGraph.Round
