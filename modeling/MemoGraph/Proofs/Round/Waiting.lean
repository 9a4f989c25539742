import Mathlib.Tactic.MkIffOfInductiveProp
import MemoGraph.Proofs.Counting
import MemoGraph.Proofs.Round.Awaiting
import MemoGraph.Proofs.Round.Recording
import MemoGraph.Round.Deadlock

namespace MemoGraph

namespace Round

/-! Who waits for whom.

Between two steps of a round, a key that is worked on waits for exactly those
keys of its batch that are worked on themselves, each of them will release it
once, and it is ready to be stepped when it waits for none.
-/

variable {κ ν φ : Type} [Key κ] {round : Round κ ν φ}

/-- The keys that a key asked for before its next step. -/
def batch (round : Round κ ν φ) (key : κ) : List κ :=
  ((round.graph.nodeAt key).work.map Work.batch).getD []

def isIdle (round : Round κ ν φ) (key : κ) : Bool := (round.graph.nodeAt key).isIdle

def isSettled (round : Round κ ν φ) (key : κ) : Bool := (round.graph.nodeAt key).isSettled

theorem isEvaluating_eq (key : κ) :
    round.isEvaluating key = (round.graph.nodeAt key).work.isSome := by
  have state : round.graph.state? key = some .evaluating ↔
      (round.graph.nodeAt key).state = .evaluating := by
    unfold Graph.state? Graph.nodeAt
    cases round.graph.node? key with
    | none => simp [Node.state, Memo.state]
    | some node => simp
  rw [Bool.eq_iff_iff]
  unfold isEvaluating
  rw [decide_eq_true_eq, state, Node.state_eq_evaluating_iff]

theorem isIdle_eq (key : κ) :
    round.isIdle key = (!round.isEvaluating key && !round.isSettled key) := by
  rw [Bool.eq_iff_iff, isEvaluating_eq]
  unfold isIdle isSettled
  rw [Node.isIdle_iff, Node.isSettled]
  cases (round.graph.nodeAt key).work <;> cases (round.graph.nodeAt key).result? <;> simp

theorem not_isSettled_of_evaluating {key : κ} (evaluating : round.isEvaluating key = true) :
    round.isSettled key = false := by
  rw [isEvaluating_eq] at evaluating
  exact Node.not_settled_of_work evaluating

theorem not_isIdle_of_evaluating {key : κ} (evaluating : round.isEvaluating key = true) :
    round.isIdle key = false := by
  simp [isIdle_eq, evaluating]

theorem isEvaluating_eq_busy (key : κ) :
    round.isEvaluating key = (!round.isIdle key && !round.isSettled key) := by
  rw [isIdle_eq]
  cases evaluating : round.isEvaluating key with
  | true => rw [not_isSettled_of_evaluating evaluating]; rfl
  | false => cases round.isSettled key <;> rfl

theorem work_of_not_evaluating {key : κ} (free : round.isEvaluating key = false) :
    (round.graph.nodeAt key).work = none := by
  rw [isEvaluating_eq] at free
  exact Option.isSome_eq_false_iff.mp free |> Option.isNone_iff_eq_none.mp

theorem exists_work {key : κ} (evaluating : round.isEvaluating key = true) :
    ∃ work, (round.graph.nodeAt key).work = some work := by
  rw [isEvaluating_eq] at evaluating
  exact Option.isSome_iff_exists.mp evaluating

theorem waiters_of_not_evaluating {key : κ} (free : round.isEvaluating key = false) :
    round.waiters key = [] := by
  simp [waiters, work_of_not_evaluating free]

theorem pending_of_not_evaluating {key : κ} (free : round.isEvaluating key = false) :
    round.pending key = 0 := by
  simp [pending, work_of_not_evaluating free]

theorem batch_of_not_evaluating {key : κ} (free : round.isEvaluating key = false) :
    round.batch key = [] := by
  simp [batch, work_of_not_evaluating free]

/-- All that waiting sees of a key. -/
@[mk_iff]
structure Stands (round : Round κ ν φ) (key : κ) (evaluating settled : Bool) (pending : Nat)
    (batch waiters : List κ) : Prop where
  evaluating : round.isEvaluating key = evaluating
  settled : round.isSettled key = settled
  pending : round.pending key = pending
  batch : round.batch key = batch
  waiters : round.waiters key = waiters

theorem Stands.idle {key : κ} {evaluating settled : Bool} {pending : Nat} {batch waiters : List κ}
    (stands : Stands round key evaluating settled pending batch waiters) :
    round.isIdle key = (!evaluating && !settled) := by
  rw [isIdle_eq, stands.evaluating, stands.settled]

/-- What holds between the steps of a round of which the keys `ready` are to be
stepped next. -/
structure Waiting (round : Round κ ν φ) (ready : List κ) : Prop where
  ready_nodup : ready.Nodup
  mem_ready : ∀ key, key ∈ ready ↔ round.isEvaluating key = true ∧ round.pending key = 0
  started : ∀ key, round.isEvaluating key = true → key ∈ round.started.toList
  batch_nodup : ∀ key, (round.batch key).Nodup
  /-- Every key of a batch was taken up when it was asked for. -/
  batch_busy : ∀ key, ∀ dependency ∈ round.batch key, round.isIdle dependency = false
  waiters_busy : ∀ key, ∀ waiter ∈ round.waiters key, round.isIdle waiter = false
  pending_eq : ∀ key, round.isEvaluating key = true →
    round.pending key = (round.batch key).countP round.isEvaluating
  /-- A key is listed once with every unfinished key of its batch, and nowhere else. -/
  listed : ∀ key dependency, round.isEvaluating key = true →
    round.isEvaluating dependency = true →
    (round.waiters dependency).count key = if dependency ∈ round.batch key then 1 else 0

/-- The rounds agree on everything that waiting is about. -/
structure SameWaiting (before after : Round κ ν φ) : Prop where
  evaluating : ∀ key, after.isEvaluating key = before.isEvaluating key
  idle : ∀ key, after.isIdle key = before.isIdle key
  pending : ∀ key, after.pending key = before.pending key
  batch : ∀ key, after.batch key = before.batch key
  waiters : ∀ key, after.waiters key = before.waiters key
  started : after.started = before.started

theorem Waiting.congr {before after : Round κ ν φ} {ready : List κ}
    (waiting : Waiting before ready) (same : SameWaiting before after) : Waiting after ready := by
  have evaluating : after.isEvaluating = before.isEvaluating := funext same.evaluating
  constructor
  · exact waiting.ready_nodup
  · intro key
    rw [waiting.mem_ready, same.evaluating, same.pending]
  · intro key taken
    rw [same.started]
    exact waiting.started key (same.evaluating key ▸ taken)
  · intro key
    rw [same.batch]
    exact waiting.batch_nodup key
  · intro key dependency member
    rw [same.batch] at member
    rw [same.idle]
    exact waiting.batch_busy key dependency member
  · intro key waiter member
    rw [same.waiters] at member
    rw [same.idle]
    exact waiting.waiters_busy key waiter member
  · intro key taken
    rw [same.pending, same.batch, evaluating]
    exact waiting.pending_eq key (same.evaluating key ▸ taken)
  · intro key dependency taken other
    rw [same.waiters, same.batch]
    exact waiting.listed key dependency (same.evaluating key ▸ taken)
      (same.evaluating dependency ▸ other)

theorem Waiting.perm {ready others : List κ} (waiting : Waiting round ready)
    (same : ready.Perm others) : Waiting round others :=
  { waiting with
    ready_nodup := same.nodup_iff.mp waiting.ready_nodup
    mem_ready := fun key => same.mem_iff.symm.trans (waiting.mem_ready key) }

theorem Waiting.exists_work {ready : List κ} (waiting : Waiting round ready) {key : κ}
    (member : key ∈ ready) :
    ∃ work, (round.graph.nodeAt key).work = some work ∧ work.pending = 0 := by
  obtain ⟨taken, nothing⟩ := (waiting.mem_ready key).mp member
  obtain ⟨work, found⟩ := Round.exists_work taken
  exact ⟨work, found, by simpa [pending, found] using nothing⟩

theorem Waiting.batch_settled {ready : List κ} (waiting : Waiting round ready) {key : κ}
    (member : key ∈ ready) : ∀ dependency ∈ round.batch key, round.isSettled dependency = true := by
  intro dependency inBatch
  obtain ⟨taken, nothing⟩ := (waiting.mem_ready key).mp member
  rw [waiting.pending_eq key taken, List.countP_eq_zero] at nothing
  have busy := waiting.batch_busy key dependency inBatch
  rw [isIdle_eq] at busy
  simpa [nothing dependency inBatch] using busy

theorem Waiting.not_listed {ready : List κ} (waiting : Waiting round ready) {key dependency : κ}
    (member : key ∈ ready) (unfinished : round.isEvaluating dependency = true) :
    (round.waiters dependency).count key = 0 := by
  rw [waiting.listed key dependency ((waiting.mem_ready key).mp member).1 unfinished]
  split
  · rename_i inBatch
    have settled := waiting.batch_settled member dependency inBatch
    rw [not_isSettled_of_evaluating unfinished] at settled
    cases settled
  · rfl

section Await

variable {before after : Round κ ν φ} {key : κ} {dependencies ready more : List κ}

theorem Awaited.view (awaited : Awaited before key dependencies after more)
    (taken : before.isEvaluating key = true) (other : κ) :
    Stands after other
      (before.isEvaluating other || (before.isIdle other && decide (other ∈ dependencies)))
      (before.isSettled other)
      (if other = key then dependencies.countP fun key => !before.isSettled key
        else before.pending other)
      (if other = key then dependencies else before.batch other)
      (if other ∈ dependencies ∧ before.isSettled other = false then before.waiters other ++ [key]
        else before.waiters other) := by
  rw [stands_iff, isEvaluating_eq, isEvaluating_eq]
  unfold isSettled isIdle pending batch waiters
  by_cases same : other = key
  · subst same
    rw [isEvaluating_eq] at taken
    obtain ⟨work, found⟩ := Option.isSome_iff_exists.mp taken
    have open' := Node.not_settled_of_work taken
    rw [awaited.own]
    simp only [Node.updateWork_work, Node.updateWork_isSettled, found, open', Option.map_some,
      Option.getD_some, Option.isSome_some, Bool.true_or, if_true, and_true, and_self]
  · rw [awaited.others other same]
    by_cases asked : other ∈ dependencies
    · cases settled : (before.graph.nodeAt other).isSettled with
      | true =>
          simp [asked, same, settled, Node.joined_of_settled settled,
            Node.not_idle_of_settled settled]
      | false =>
          cases idle : (before.graph.nodeAt other).isIdle with
          | true =>
              obtain ⟨phase, _, joined⟩ := Node.joined_of_idle key idle
              have free := (Node.isIdle_iff.mp idle).1
              have open' := Node.not_settled_of_work
                (show ((before.graph.nodeAt other).joined key).work.isSome = true by
                  rw [joined]; rfl)
              rw [if_pos asked, open', joined]
              simp [asked, same, free]
          | false =>
              have busy : (before.graph.nodeAt other).work.isSome = true := by
                rcases Node.isIdle_eq_false_iff.mp idle with busy | valid
                · exact busy
                · simp [Node.isSettled, valid] at settled
              obtain ⟨work, found⟩ := Option.isSome_iff_exists.mp busy
              rw [if_pos asked, Node.joined_of_work busy]
              simp [asked, same, found, settled]
    · simp [asked, same]

theorem Awaited.idle (awaited : Awaited before key dependencies after more)
    (taken : before.isEvaluating key = true) (other : κ) :
    after.isIdle other = (before.isIdle other && !decide (other ∈ dependencies)) := by
  rw [(awaited.view taken other).idle, isIdle_eq]
  cases before.isEvaluating other <;> cases before.isSettled other <;>
    cases decide (other ∈ dependencies) <;> rfl

theorem Awaited.evaluating_asked (awaited : Awaited before key dependencies after more)
    (taken : before.isEvaluating key = true) {dependency : κ} (asked : dependency ∈ dependencies) :
    after.isEvaluating dependency = !before.isSettled dependency := by
  rw [(awaited.view taken dependency).evaluating, isIdle_eq]
  cases evaluating : before.isEvaluating dependency with
  | true => simp [not_isSettled_of_evaluating evaluating]
  | false => simp [asked]

theorem Awaited.mem_ready (awaited : Awaited before key dependencies after more) (other : κ) :
    other ∈ more ↔ (other ∈ dependencies ∧ before.isIdle other = true) ∨
      (other = key ∧ ∀ dependency ∈ dependencies, before.isSettled dependency = true) := by
  rw [awaited.ready, List.mem_append, List.mem_filter]
  refine or_congr .rfl ?_
  by_cases finished : (dependencies.all fun key => (before.graph.nodeAt key).isSettled) = true
  · rw [if_pos finished, List.mem_singleton]
    exact ⟨fun same => ⟨same, List.all_eq_true.mp finished⟩, And.left⟩
  · rw [if_neg finished]
    simp only [List.not_mem_nil, false_iff, not_and]
    rintro - settled
    exact finished (List.all_eq_true.mpr settled)

theorem Awaited.nodup_ready (awaited : Awaited before key dependencies after more)
    (taken : before.isEvaluating key = true) (unique : dependencies.Nodup) : more.Nodup := by
  rw [awaited.ready, List.nodup_append]
  refine ⟨unique.filter _, by split <;> simp, ?_⟩
  intro idle inFilter last inLast same
  have isKey : last = key := by
    split at inLast
    · exact List.mem_singleton.mp inLast
    · cases inLast
  rw [same, isKey, List.mem_filter] at inFilter
  exact absurd (inFilter.2.symm.trans (not_isIdle_of_evaluating taken)) (by simp)

/-- The waiting key was listed nowhere, and a key that was just taken up lists nobody. -/
theorem Waiting.count_waiters (waiting : Waiting before ready) (member : key ∈ ready)
    (awaited : Awaited before key dependencies after more) {other dependency : κ}
    (evaluating : after.isEvaluating other = true)
    (unsettled : before.isSettled dependency = false) :
    (before.waiters dependency).count other =
      if other ≠ key ∧ dependency ∈ before.batch other then 1 else 0 := by
  have taken := ((waiting.mem_ready key).mp member).1
  cases wasEvaluating : before.isEvaluating dependency with
  | false =>
      have idle : before.isIdle dependency = true := by
        rw [isIdle_eq, wasEvaluating, unsettled]
        rfl
      have outside : dependency ∉ before.batch other := fun inBatch => by
        rw [waiting.batch_busy other dependency inBatch] at idle
        cases idle
      simp [waiters_of_not_evaluating wasEvaluating, outside]
  | true =>
      by_cases same : other = key
      · subst same
        simp [waiting.not_listed member wasEvaluating]
      · cases otherEvaluating : before.isEvaluating other with
        | true => simp [waiting.listed other dependency otherEvaluating wasEvaluating, same]
        | false =>
            have idle : before.isIdle other = true := by
              rw [(awaited.view taken other).evaluating, otherEvaluating] at evaluating
              simp at evaluating
              exact evaluating.1
            have unlisted : other ∉ before.waiters dependency := fun listed => by
              rw [waiting.waiters_busy dependency other listed] at idle
              cases idle
            simp [List.count_eq_zero_of_not_mem unlisted, batch_of_not_evaluating otherEvaluating]

/-- A ready key may wait for any keys: whatever it asks for is taken up, and it
stays ready only if all of it has results. -/
theorem Waiting.await (waiting : Waiting before ready) (member : key ∈ ready)
    (unique : dependencies.Nodup) (awaited : Awaited before key dependencies after more) :
    Waiting after (ready.erase key ++ more) := by
  have taken := ((waiting.mem_ready key).mp member).1
  have view := awaited.view taken
  have keyBusy : before.isIdle key = false := not_isIdle_of_evaluating taken
  constructor
  case ready_nodup =>
    refine List.nodup_append.mpr
      ⟨waiting.ready_nodup.erase key, awaited.nodup_ready taken unique, ?_⟩
    rintro old inReady new isMore rfl
    obtain ⟨different, wasReady⟩ := waiting.ready_nodup.mem_erase_iff.mp inReady
    rcases (awaited.mem_ready old).mp isMore with ⟨_, idle⟩ | ⟨same, _⟩
    · rw [not_isIdle_of_evaluating ((waiting.mem_ready old).mp wasReady).1] at idle
      cases idle
    · exact different same
  case mem_ready =>
    intro other
    obtain ⟨evaluating, _, pending, _⟩ := view other
    rw [List.mem_append, awaited.mem_ready, waiting.ready_nodup.mem_erase_iff, waiting.mem_ready,
      evaluating, pending]
    by_cases same : other = key
    · subst same
      rw [if_pos rfl, List.countP_eq_zero]
      simp [taken, keyBusy]
    · cases idle : before.isIdle other with
      | true =>
          have free : before.isEvaluating other = false := by
            rw [isIdle_eq] at idle
            simp at idle
            exact idle.1
          simp [same, free, pending_of_not_evaluating free]
      | false => simp [same]
  case started =>
    intro other evaluating
    rw [(view other).evaluating] at evaluating
    rw [awaited.started, List.mem_append]
    rcases Bool.or_eq_true_iff.mp evaluating with before | new
    · exact .inl (waiting.started other before)
    · obtain ⟨idle, asked⟩ := Bool.and_eq_true_iff.mp new
      exact .inr (List.mem_filter.mpr ⟨of_decide_eq_true asked, idle⟩)
  case batch_nodup =>
    intro other
    rw [(view other).batch]
    split
    · exact unique
    · exact waiting.batch_nodup other
  case batch_busy =>
    intro other dependency inBatch
    rw [(view other).batch] at inBatch
    rw [awaited.idle taken]
    split at inBatch
    · simp [inBatch]
    · simp [waiting.batch_busy other dependency inBatch]
  case waiters_busy =>
    intro other waiter isWaiter
    rw [(view other).waiters] at isWaiter
    rw [awaited.idle taken]
    split at isWaiter
    · rcases List.mem_append.mp isWaiter with before | isKey
      · simp [waiting.waiters_busy other waiter before]
      · rw [List.mem_singleton.mp isKey]
        simp [keyBusy]
    · simp [waiting.waiters_busy other waiter isWaiter]
  case pending_eq =>
    intro other evaluating
    obtain ⟨_, _, pending, batch, _⟩ := view other
    rw [pending, batch]
    by_cases same : other = key
    · rw [if_pos same, if_pos same]
      exact List.countP_congr fun dependency asked => by
        rw [awaited.evaluating_asked taken asked]
    · rw [if_neg same, if_neg same]
      cases wasEvaluating : before.isEvaluating other with
      | true =>
          rw [waiting.pending_eq other wasEvaluating]
          refine List.countP_congr fun dependency inBatch => ?_
          rw [(view dependency).evaluating, waiting.batch_busy other dependency inBatch]
          simp
      | false =>
          rw [pending_of_not_evaluating wasEvaluating, batch_of_not_evaluating wasEvaluating]
          rfl
  case listed =>
    intro other dependency evaluating evaluating'
    obtain ⟨_, _, _, batch, _⟩ := view other
    obtain ⟨_, settled, _, _, waiters⟩ := view dependency
    have unsettled : before.isSettled dependency = false :=
      settled.symm.trans (not_isSettled_of_evaluating evaluating')
    have old := waiting.count_waiters member awaited evaluating unsettled
    rw [waiters, batch]
    by_cases same : other = key
    · subst same
      rw [if_pos rfl]
      by_cases asked : dependency ∈ dependencies
      · simp [asked, unsettled, List.count_append, old]
      · simp [asked, old]
    · have different : ¬ key = other := fun equal => same equal.symm
      rw [if_neg same]
      split <;> simp [List.count_append, old, same, different]

end Await

section Settle

/-- The given keys got results, and nobody was told yet. -/
structure Settling (before after : Round κ ν φ) (keys : List κ) : Prop where
  done : ∀ key ∈ keys, after.isSettled key = true
  work : ∀ other, other ∉ keys → (after.graph.nodeAt other).work = (before.graph.nodeAt other).work
  settled : ∀ other, other ∉ keys → after.isSettled other = before.isSettled other
  started : after.started = before.started

variable {before middle : Round κ ν φ} {keys ready : List κ}

theorem Settling.evaluating (settling : Settling before middle keys) (other : κ) :
    middle.isEvaluating other = (before.isEvaluating other && !decide (other ∈ keys)) := by
  by_cases member : other ∈ keys
  · have done := settling.done other member
    cases evaluating : middle.isEvaluating other with
    | true => simp [not_isSettled_of_evaluating evaluating] at done
    | false => simp [member]
  · rw [isEvaluating_eq, isEvaluating_eq, settling.work other member]
    simp [member]

theorem Settling.waiters_eq (settling : Settling before middle keys) {other : κ}
    (outside : other ∉ keys) : middle.waiters other = before.waiters other := by
  simp [waiters, settling.work other outside]

theorem Settling.batch_eq (settling : Settling before middle keys) {other : κ}
    (outside : other ∉ keys) : middle.batch other = before.batch other := by
  simp [batch, settling.work other outside]

theorem Settling.pending_eq (settling : Settling before middle keys) {other : κ}
    (outside : other ∉ keys) : middle.pending other = before.pending other := by
  simp [pending, settling.work other outside]

/-- A wake-up changes nothing that waiting is about but how much is awaited. -/
theorem wake_view (waiters : List κ) (other : κ) :
    Stands (round.wake waiters).1 other (round.isEvaluating other) (round.isSettled other)
      (round.pending other - waiters.count other) (round.batch other) (round.waiters other) := by
  rw [stands_iff, isEvaluating_eq, isEvaluating_eq]
  unfold isSettled pending batch Round.waiters
  rw [nodeAt_wake]
  cases found : (round.graph.nodeAt other).work with
  | none => simp [found]
  | some work => simp [found]

theorem wake_idle (waiters : List κ) (other : κ) :
    (round.wake waiters).1.isIdle other = round.isIdle other := by
  rw [(wake_view waiters other).idle, isIdle_eq]

theorem mem_wake {waiters : List κ} {other : κ} : other ∈ (round.wake waiters).2 ↔
    0 < round.pending other ∧ round.pending other ≤ waiters.count other := by
  rw [← List.count_pos_iff, count_wake]
  split <;> simp_all

theorem nodup_wake (waiters : List κ) : (round.wake waiters).2.Nodup := by
  rw [List.nodup_iff_count]
  intro other
  rw [count_wake]
  split <;> omega

theorem Settling.not_evaluating (settling : Settling before middle keys) {key : κ}
    (member : key ∈ keys) : middle.isEvaluating key = false := by
  rw [settling.evaluating]
  simp [member]

/-- A waiter is told once by each of the keys in its batch that got a result. -/
theorem Waiting.count_told (waiting : Waiting before ready) (unique : keys.Nodup)
    (taken : ∀ key ∈ keys, before.isEvaluating key = true) {other : κ}
    (evaluating : before.isEvaluating other = true) :
    (keys.flatMap before.waiters).count other = (before.batch other).countP (· ∈ keys) := by
  rw [count_flatMap_of_indicator (fun key => decide (key ∈ before.batch other)) fun key member =>
    by simp [waiting.listed other key evaluating (taken key member)]]
  exact countP_mem_comm unique (waiting.batch_nodup other)

/-- What a key waits for after it was told is what is still worked on. -/
theorem Waiting.pending_told (waiting : Waiting before ready) (unique : keys.Nodup)
    (taken : ∀ key ∈ keys, before.isEvaluating key = true)
    (settling : Settling before middle keys) {other : κ}
    (evaluating : before.isEvaluating other = true) (outside : other ∉ keys) :
    middle.pending other - (keys.flatMap before.waiters).count other =
      (before.batch other).countP middle.isEvaluating := by
  rw [settling.pending_eq outside, waiting.pending_eq other evaluating,
    waiting.count_told unique taken evaluating]
  have parts : (before.batch other).countP before.isEvaluating =
      (before.batch other).countP (fun key => decide (key ∈ keys)) +
        (before.batch other).countP middle.isEvaluating := by
    refine countP_split (fun key => ?_) fun key member => ?_
    · rw [settling.evaluating]
      by_cases member : key ∈ keys
      · simp [member, taken key member]
      · simp [member]
    · rw [settling.evaluating]
      simp [of_decide_eq_true member]
  omega

/-- When keys that are worked on get results and everyone listed with them is
woken, exactly those become ready that waited for nothing else. -/
theorem Waiting.settle (waiting : Waiting before ready) (unique : keys.Nodup)
    (taken : ∀ key ∈ keys, before.isEvaluating key = true)
    (settling : Settling before middle keys) :
    Waiting (middle.wake (keys.flatMap before.waiters)).1
      (ready.filter (· ∉ keys) ++ (middle.wake (keys.flatMap before.waiters)).2) := by
  have view := middle.wake_view (keys.flatMap before.waiters)
  have idle : ∀ other,
      (middle.wake (keys.flatMap before.waiters)).1.isIdle other = before.isIdle other := by
    intro other
    rw [wake_idle, isIdle_eq, isIdle_eq, settling.evaluating]
    by_cases member : other ∈ keys
    · simp [member, settling.done other member, taken other member]
    · simp [member, settling.settled other member]
  constructor
  case ready_nodup =>
    refine List.nodup_append.mpr ⟨waiting.ready_nodup.filter _, nodup_wake _, ?_⟩
    rintro old wasReady new isWoken rfl
    obtain ⟨inReady, outside⟩ := List.mem_filter.mp wasReady
    have nothing := ((waiting.mem_ready old).mp inReady).2
    rw [mem_wake, settling.pending_eq (of_decide_eq_true outside), nothing] at isWoken
    omega
  case mem_ready =>
    intro other
    rw [List.mem_append, List.mem_filter, mem_wake, (view other).evaluating]
    by_cases member : other ∈ keys
    · have free := settling.not_evaluating member
      simp [member, free, pending_of_not_evaluating free]
    · rw [(view other).pending, settling.evaluating, settling.pending_eq member, waiting.mem_ready]
      cases evaluating : before.isEvaluating other with
      | false => simp [member, pending_of_not_evaluating evaluating]
      | true =>
          simp only [member, not_false_eq_true, decide_true, decide_false, Bool.not_false,
            Bool.and_true, true_and, and_true]
          omega
  case started =>
    intro other evaluating
    rw [(view other).evaluating, settling.evaluating, Bool.and_eq_true] at evaluating
    rw [(wake_fst _).2.1, settling.started]
    exact waiting.started other evaluating.1
  case batch_nodup =>
    intro other
    rw [(view other).batch]
    by_cases member : other ∈ keys
    · simp [batch_of_not_evaluating (settling.not_evaluating member)]
    · rw [settling.batch_eq member]
      exact waiting.batch_nodup other
  case batch_busy =>
    intro other dependency inBatch
    rw [(view other).batch] at inBatch
    rw [idle]
    by_cases member : other ∈ keys
    · simp [batch_of_not_evaluating (settling.not_evaluating member)] at inBatch
    · rw [settling.batch_eq member] at inBatch
      exact waiting.batch_busy other dependency inBatch
  case waiters_busy =>
    intro other waiter isWaiter
    rw [(view other).waiters] at isWaiter
    rw [idle]
    by_cases member : other ∈ keys
    · simp [waiters_of_not_evaluating (settling.not_evaluating member)] at isWaiter
    · rw [settling.waiters_eq member] at isWaiter
      exact waiting.waiters_busy other waiter isWaiter
  case pending_eq =>
    intro other evaluating
    rw [(view other).evaluating, settling.evaluating, Bool.and_eq_true] at evaluating
    have outside : other ∉ keys := by simpa using evaluating.2
    rw [(view other).pending, (view other).batch, settling.batch_eq outside,
      waiting.pending_told unique taken settling evaluating.1 outside]
    exact List.countP_congr fun key _ => by rw [(view key).evaluating]
  case listed =>
    intro other dependency evaluating evaluating'
    rw [(view other).evaluating, settling.evaluating, Bool.and_eq_true] at evaluating
    rw [(view dependency).evaluating, settling.evaluating, Bool.and_eq_true] at evaluating'
    have outside : other ∉ keys := by simpa using evaluating.2
    have outside' : dependency ∉ keys := by simpa using evaluating'.2
    rw [(view dependency).waiters, (view other).batch, settling.waiters_eq outside',
      settling.batch_eq outside]
    exact waiting.listed other dependency evaluating.1 evaluating'.1

end Settle

end Round

end MemoGraph
