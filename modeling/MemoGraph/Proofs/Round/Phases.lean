import MemoGraph.Proofs.Round.Grounds
import MemoGraph.Proofs.Round.Prospects

namespace MemoGraph

namespace Node

variable {κ ν φ : Type} {node other : Node κ ν φ}

theorem Alike.bare (alike : Alike node other) : node.bare = other.bare := by
  unfold Node.bare
  rw [alike.memo, alike.dependencies, alike.lastChanged, alike.lastEvaluated, alike.injected]

theorem memo_of_bare (same : node.bare = other.bare) : node.memo = other.memo := by
  have memo := congrArg Node.memo same
  exact memo

theorem injected_of_bare (same : node.bare = other.bare) : node.injected = other.injected := by
  have injected := congrArg Node.injected same
  exact injected

/-- Nodes without work have one outline if they are the same but for those who need them. -/
theorem alike_of_bare (same : node.bare = other.bare) (free : node.work = none)
    (freeOther : other.work = none) : Alike node other := by
  have dependencies := congrArg Node.dependencies same
  have changed := congrArg Node.lastChanged same
  have evaluated := congrArg Node.lastEvaluated same
  have injected := congrArg Node.injected same
  exact .of_fields (memo_of_bare same) dependencies changed evaluated injected (by rw [free, freeOther])

theorem bare_taken : node.taken.bare = node.bare := by
  cases idle : node.isIdle with
  | true =>
      obtain ⟨phase, _, taken⟩ := taken_of_idle idle
      rw [taken]
      rfl
  | false => rw [taken_of_not_idle idle]

theorem bare_updateWork (change : Work κ φ → Work κ φ) :
    (node.updateWork change).bare = node.bare := rfl

end Node

namespace Round

/-! The phases of a round.

In a phase, ready keys are stepped until none is left. Breaking deadlocks ends
a phase, and begins the next one if it makes keys ready. A phase gives a key
what the results at its end have in prospect for it, and nothing else.
-/

variable {κ ν φ : Type} [Key κ] {base round before after : Round κ ν φ} {key : κ}

section Works

variable [BEq ν] {registry : Registry κ ν φ} {roots ready : List κ}

/-- Any number of steps of ready keys. -/
abbrev Works (registry : Registry κ ν φ) (roots : List κ) :
    Round κ ν φ × List κ → Round κ ν φ × List κ → Prop :=
  Relation.ReflTransGen fun now next => now.2 ≠ [] ∧ Advance registry roots now next

/-- A way through a round up to the end of a phase. -/
inductive Phased (registry : Registry κ ν φ) (roots : List κ) :
    Round κ ν φ × List κ → Round κ ν φ → Prop
  | last {now : Round κ ν φ × List κ} {last : Round κ ν φ}
      (works : Works registry roots now (last, [])) : Phased registry roots now last
  | next {now : Round κ ν φ × List κ} {middle last : Round κ ν φ} {later : List κ}
      (works : Works registry roots now (middle, []))
      (blocked : (middle.breakDeadlock roots).2 ≠ [])
      (order : later.Perm (middle.breakDeadlock roots).2)
      (rest : Phased registry roots ((middle.breakDeadlock roots).1, later) last) :
      Phased registry roots now last

/-- Whatever moves a round makes, they fall into phases. -/
theorem Phased.of_advances {now : Round κ ν φ × List κ} {last : Round κ ν φ}
    (moves : Advances registry roots now (last, [])) : Phased registry roots now last := by
  induction moves using Relation.ReflTransGen.head_induction_on with
  | refl => exact .last .refl
  | head move _ ih =>
      cases move with
      | step going chosen order =>
          have some : _ ≠ [] := List.ne_nil_of_mem (chosen.mem_iff.mpr List.mem_cons_self)
          have move : Advance registry roots _ _ := .step going chosen order
          have step := And.intro some move
          cases ih with
          | last works => exact .last (works.head step)
          | next works blocked order rest => exact .next (works.head step) blocked order rest
      | unblock going blocked order => exact .next .refl blocked order ih

/-- What holds before and after every move when functions are strict. -/
structure Sound (registry : Registry κ ν φ) (round : Round κ ν φ) (ready : List κ) : Prop
    extends InOrder round ready where
  establishes : Establishes registry round

omit [BEq ν] in
theorem Sound.begin (unique : roots.Nodup) (rested : Rested round.graph)
    (order : ready.Perm (round.begin roots).2) :
    Sound registry (round.begin roots).1 ready :=
  ⟨.begin unique rested order, (round.begin_spec unique).establishes rested⟩

theorem Sound.unblock {later : List κ} (sound : Sound registry round [])
    (order : later.Perm (round.breakDeadlock roots).2) :
    Sound registry (round.breakDeadlock roots).1 later := by
  have unblocked := sound.toInOrder.breakDeadlock roots
  exact ⟨⟨unblocked.waiting.perm order.symm, unblocked.underway⟩,
    sound.establishes.breakDeadlock sound.waiting⟩

theorem Sound.advance (sound : Sound registry round ready) {later : List κ}
    (move : Advance registry roots (round, ready) (after, later)) :
    Sound registry after later := by
  have inOrder := sound.toInOrder.advance move
  cases move with
  | step going chosen order =>
      have member := chosen.mem_iff.mpr List.mem_cons_self
      obtain ⟨work, effect, found, _, progress, moved⟩ := sound.moved member registry
      exact ⟨inOrder, sound.establishes.step sound.toInOrder member found progress moved⟩
  | unblock _ _ order => exact sound.unblock order

/-- What every step of a ready key keeps holds throughout a phase. -/
theorem Sound.throughout (sound : Sound registry round ready) (holds : Round κ ν φ → Prop)
    {now : Round κ ν φ × List κ} (works : Works registry roots (round, ready) now)
    (step : ∀ {before after : Round κ ν φ} {ready : List κ} {key : κ} {work : Work κ φ}
      {effect : Effect κ ν φ}, Sound registry before ready → key ∈ ready →
        (before.graph.nodeAt key).work = some work → Progress registry before key work effect →
          Moved before after key effect → holds before → holds after)
    (start : holds round) : Sound registry now.1 now.2 ∧ holds now.1 := by
  induction works with
  | refl => exact ⟨sound, start⟩
  | tail _ move ih =>
      obtain ⟨order, held⟩ := ih
      obtain ⟨some, move⟩ := move
      refine ⟨order.advance move, ?_⟩
      cases move with
      | step going chosen later =>
          have member := chosen.mem_iff.mpr List.mem_cons_self
          obtain ⟨work, effect, found, _, progress, moved⟩ := order.moved member registry
          exact step order member found progress moved held
      | unblock => exact absurd rfl some

end Works

section Since

variable [BEq ν] {registry : Registry κ ν φ}

/-- What has become of the keys of a round since a phase began. -/
structure Since (registry : Registry κ ν φ) (base now : Round κ ν φ) : Prop where
  version : now.version = base.version
  kept : base.graph.Extends now.graph
  busy : ∀ key, base.isIdle key = false → now.isIdle key = false
  same : ∀ key, base.isSettled key = true ∨ now.isSettled key = false →
    (now.graph.nodeAt key).bare = (base.graph.nodeAt key).bare ∧
      (key ∈ now.transient.toList ↔ key ∈ base.transient.toList)
  settled : ∀ key, base.isSettled key = false → now.isSettled key = true → ∃ retry,
    now.graph.outlook registry base.version key (base.graph.nodeAt key).bare =
        .settles ((now.graph.nodeAt key).bare, retry) ∧
      (key ∈ now.transient.toList ↔ key ∈ base.transient.toList ∨ retry = true)

theorem Since.refl (base : Round κ ν φ) : Since registry base base := by
  constructor
  case version => rfl
  case kept => exact fun _ _ => .refl _
  case busy => exact fun _ busy => busy
  case same => exact fun _ _ => ⟨rfl, .rfl⟩
  case settled =>
    intro key unsettled settled
    rw [unsettled] at settled
    cases settled

theorem Since.unsettled (since : Since registry base before)
    (unsettled : before.isSettled key = false) : base.isSettled key = false := by
  cases settled : base.isSettled key with
  | false => rfl
  | true =>
      have still : before.isSettled key = true := (since.kept key settled).isSettled.trans settled
      rw [unsettled] at still
      cases still

section Step

variable {work : Work κ φ} {effect : Effect κ ν φ}

omit [BEq ν] in
theorem InOrder.batch_present {ready : List κ} (inOrder : InOrder before ready)
    (member : key ∈ ready) (found : (before.graph.nodeAt key).work = some work) :
    ∀ dependency ∈ work.batch, before.graph.lacks dependency = false := by
  intro dependency inBatch
  have present := inOrder.settled_of_batch member found dependency inBatch
  unfold isSettled at present
  rw [Graph.lacks_eq, present]
  rfl

theorem Progress.unsettled (progress : Progress registry before key work effect)
    (found : (before.graph.nodeAt key).work = some work)
    (underway : (before.graph.nodeAt key).Underway) (unsettled : effect.own.isSettled = false) :
    effect.own.bare = (before.graph.nodeAt key).bare ∧ effect.failed = false := by
  cases progress with
  | await | compare | restart => exact ⟨Node.bare_updateWork _, rfl⟩
  | revalidate group awaiting phase finished =>
      obtain ⟨result, memo⟩ := (underway work found).2 group awaiting phase
      simp [Node.isSettled, Node.result?, Node.revalidate, memo, Memo.result?] at unsettled
  | _ => cases unsettled

omit [BEq ν] in
theorem Moved.other_bare (moved : Moved before after key effect) {other : κ}
    (different : other ≠ key) :
    (after.graph.nodeAt other).bare = (before.graph.nodeAt other).bare ∧
      after.isSettled other = before.isSettled other ∧
      (other ∈ after.transient.toList ↔ other ∈ before.transient.toList) := by
  have transient : other ∈ after.transient.toList ↔ other ∈ before.transient.toList := by
    rw [moved.transient]
    simp [different]
  rcases moved.other different with alike | ⟨_, idle, phase, _, alike⟩
  · exact ⟨alike.bare, alike.isSettled, transient⟩
  · refine ⟨alike.bare, ?_, transient⟩
    unfold isSettled
    rw [alike.isSettled, Node.not_settled_of_work rfl, Node.isSettled,
      (Node.isIdle_iff.mp idle).2]
    rfl

omit [BEq ν] in
theorem Moved.eq_of_settled (moved : Moved before after key effect) {other : κ}
    (settled : after.isSettled other = true) (unsettled : before.isSettled other = false) :
    other = key := by
  by_contra different
  rw [(moved.other_bare different).2.1, unsettled] at settled
  cases settled

theorem Since.step (strict : registry.Strict) {ready : List κ} (since : Since registry base before)
    (sound : Sound registry before ready) (member : key ∈ ready)
    (found : (before.graph.nodeAt key).work = some work)
    (progress : Progress registry before key work effect)
    (moved : Moved before after key effect) : Since registry base after := by
  have extended := moved.extends found
  have underway := sound.underway key
  have unsettled : before.isSettled key = false := Node.not_settled_of_work (by simp [found])
  have before' := since.same key (.inr unsettled)
  have fresh := since.unsettled unsettled
  have transient : key ∈ after.transient.toList ↔
      key ∈ before.transient.toList ∨ effect.failed = true := by
    rw [moved.transient]
    simp
  constructor
  case version => exact moved.version.trans since.version
  case kept =>
    intro other settled
    have alike := since.kept other settled
    exact (extended other (alike.isSettled ▸ settled)).trans alike
  case busy => exact fun other busy => moved.busy (progress.busy found underway) (since.busy other busy)
  case same =>
    intro other stays
    by_cases isKey : other = key
    · subst isKey
      have notSettled : effect.own.isSettled = false := by
        rw [← moved.self.isSettled]
        exact stays.resolve_left (by simp [fresh])
      obtain ⟨own, failed⟩ := progress.unsettled found underway notSettled
      rw [moved.self.bare, own, before'.1, transient, before'.2, failed]
      simp
    · obtain ⟨bare, settled, retried⟩ := moved.other_bare isKey
      obtain ⟨sameBare, sameRetried⟩ := since.same other (settled ▸ stays)
      exact ⟨bare.trans sameBare, retried.trans sameRetried⟩
  case settled =>
    intro other isFresh settled
    by_cases isKey : other = key
    · subst isKey
      have ownSettled : effect.own.isSettled = true := moved.self.isSettled ▸ settled
      have outlook := progress.settles strict found underway (sound.establishes other work found)
        (sound.batch_present member found) ownSettled
      rw [before'.1, since.version] at outlook
      refine ⟨effect.failed, ?_, ?_⟩
      · rw [moved.self.bare]
        exact Graph.outlook_settles strict extended outlook
      · rw [transient, before'.2]
    · obtain ⟨bare, same, retried⟩ := moved.other_bare isKey
      obtain ⟨retry, outlook, sameRetried⟩ := since.settled other isFresh (same ▸ settled)
      refine ⟨retry, ?_, retried.trans sameRetried⟩
      rw [bare]
      exact Graph.outlook_settles strict extended outlook

end Step

/-- What has become of the keys at any time of a phase. -/
theorem Sound.since (strict : registry.Strict) {roots ready : List κ}
    (sound : Sound registry base ready) {now : Round κ ν φ × List κ}
    (works : Works registry roots (base, ready) now) :
    Sound registry now.1 now.2 ∧ Since registry base now.1 :=
  sound.throughout _ works (fun order member found progress moved since =>
    since.step strict order member found progress moved) (.refl base)

end Since

section Related

variable [BEq ν] {registry : Registry κ ν φ} {roots : List κ}

/-- When breaking deadlocks makes no key ready in one round, it makes none ready in
another one that then works on the same. -/
theorem finished_of_evaluating {left right : Round κ ν φ} (resting : Sound registry left [])
    (restingOther : Sound registry right [])
    (evaluating : ∀ key, (left.breakDeadlock roots).1.isEvaluating key =
      (right.breakDeadlock roots).1.isEvaluating key)
    (finished : (left.breakDeadlock roots).2 = []) : (right.breakDeadlock roots).2 = [] := by
  refine List.eq_nil_iff_forall_not_mem.mpr fun key member => ?_
  have broken := restingOther.toInOrder.breakDeadlock roots
  have taken := ((broken.waiting.mem_ready key).mp member).1
  rw [← evaluating, isEvaluating_of_breakDeadlock_nil resting.waiting finished] at taken
  cases taken

/-- What every phase keeps of two rounds, up to the break of deadlocks that ends
it, holds of them in the end. -/
theorem Phased.related (strict : registry.Strict) {now other : Round κ ν φ × List κ}
    {last lastOther : Round κ ν φ} (phased : Phased registry roots now last)
    (phasedOther : Phased registry roots other lastOther)
    (related : Round κ ν φ → Round κ ν φ → Prop)
    (phase : ∀ {base otherBase left right : Round κ ν φ} {ready readyOther : List κ},
      related base otherBase → Sound registry base ready → Sound registry otherBase readyOther →
        Works registry roots (base, ready) (left, []) →
          Works registry roots (otherBase, readyOther) (right, []) →
            related (left.breakDeadlock roots).1 (right.breakDeadlock roots).1 ∧
              ∀ key, (left.breakDeadlock roots).1.isEvaluating key =
                (right.breakDeadlock roots).1.isEvaluating key)
    (start : related now.1 other.1) (sound : Sound registry now.1 now.2)
    (soundOther : Sound registry other.1 other.2) (finished : (last.breakDeadlock roots).2 = [])
    (finishedOther : (lastOther.breakDeadlock roots).2 = []) :
    related (last.breakDeadlock roots).1 (lastOther.breakDeadlock roots).1 := by
  induction phased generalizing other with
  | last works =>
      have resting := (sound.since strict works).1
      cases phasedOther with
      | last worksOther => exact (phase start sound soundOther works worksOther).1
      | next worksOther blocked order rest =>
          have restingOther := (soundOther.since strict worksOther).1
          obtain ⟨_, evaluating⟩ := phase start sound soundOther works worksOther
          exact absurd (finished_of_evaluating resting restingOther evaluating finished) blocked
  | next works blocked order rest ih =>
      have resting := (sound.since strict works).1
      cases phasedOther with
      | last worksOther =>
          have restingOther := (soundOther.since strict worksOther).1
          obtain ⟨_, evaluating⟩ := phase start sound soundOther works worksOther
          exact absurd (finished_of_evaluating restingOther resting
            (fun key => (evaluating key).symm) finishedOther) blocked
      | next worksOther blockedOther orderOther restOther =>
          have restingOther := (soundOther.since strict worksOther).1
          obtain ⟨later, _⟩ := phase start sound soundOther works worksOther
          exact ih restOther later (resting.unblock order) (restingOther.unblock orderOther)
            finished

end Related

end Round

end MemoGraph
