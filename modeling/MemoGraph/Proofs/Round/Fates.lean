import MemoGraph.Proofs.Round.Accounts
import MemoGraph.Proofs.Round.Confluence
import MemoGraph.Proofs.Round.Invariants

namespace MemoGraph

variable {κ ν φ : Type}

namespace Node

variable {node other : Node κ ν φ}

theorem dependencies_of_bare (same : node.bare = other.bare) :
    node.dependencies = other.dependencies :=
  (Node.mk.inj same).2.1

theorem lastEvaluated_of_bare (same : node.bare = other.bare) :
    node.lastEvaluated = other.lastEvaluated :=
  (Node.mk.inj same).2.2.2.2.1

theorem alike_revalidate (same : node.bare = other.bare) (version : Version) :
    Alike (node.revalidate version) (other.revalidate version) := by
  have revalidated : ∀ given : Node κ ν φ, (given.revalidate version).bare =
      (given.bare.revalidate version).bare := fun _ => rfl
  exact alike_of_bare (by rw [revalidated, same, ← revalidated]) rfl rfl

theorem alike_commit [BEq ν] (same : node.bare = other.bare) (version : Version)
    (result : Result κ ν φ) (dependencies : Grouping κ) :
    Alike (node.commit version result dependencies) (other.commit version result dependencies) :=
  alike_of_bare (bare_commit same version result dependencies) rfl rfl

end Node

variable [Key κ]

namespace Graph

variable {before after graph : Graph κ ν φ} {recorded : Grouping κ} {since : Version}

/-- A recorded dependency changed after the given version, and the groups up to
its own have results. -/
def Overtakes (graph : Graph κ ν φ) (recorded : Grouping κ) (since : Version) : Prop :=
  ∃ group dependencies, recorded.group? group = some dependencies ∧
    (∀ earlier ≤ group, ∀ others, recorded.group? earlier = some others →
      ∀ other ∈ others, (graph.nodeAt other).isSettled = true) ∧
    ∃ dependency ∈ dependencies, since < (graph.nodeAt dependency).lastChanged

theorem overtakes_iff : graph.Overtakes recorded since ↔
    ∃ group ∈ List.range recorded.groupCount, ∃ dependencies ∈ (recorded.group? group).toList,
      (∀ earlier ∈ List.range (group + 1), ∀ others ∈ (recorded.group? earlier).toList,
        ∀ other ∈ others, (graph.nodeAt other).isSettled = true) ∧
      ∃ dependency ∈ dependencies, since < (graph.nodeAt dependency).lastChanged := by
  constructor
  · rintro ⟨group, dependencies, found, settled, newer⟩
    obtain ⟨stop, isStop, _⟩ := Option.map_eq_some_iff.mp found
    obtain ⟨inside, _⟩ := List.getElem?_eq_some_iff.mp isStop
    exact ⟨group, List.mem_range.mpr inside, dependencies, Option.mem_toList.mpr found,
      fun earlier member others isRecorded =>
        settled earlier (Nat.le_of_lt_succ (List.mem_range.mp member)) others
          (Option.mem_toList.mp isRecorded), newer⟩
  · rintro ⟨group, _, dependencies, found, settled, newer⟩
    exact ⟨group, dependencies, Option.mem_toList.mp found, fun earlier le others isRecorded =>
      settled earlier (List.mem_range.mpr (Nat.lt_succ_of_le le)) others
        (Option.mem_toList.mpr isRecorded), newer⟩

instance : Decidable (graph.Overtakes recorded since) := decidable_of_iff _ overtakes_iff.symm

/-- All recorded dependencies have results that did not change since. -/
def Confirms (graph : Graph κ ν φ) (recorded : Grouping κ) (since : Version) : Prop :=
  ∀ dependency ∈ recorded, (graph.nodeAt dependency).isSettled = true ∧
    (graph.nodeAt dependency).lastChanged ≤ since

theorem Overtakes.extend (overtakes : before.Overtakes recorded since)
    (extended : before.Extends after) : after.Overtakes recorded since := by
  obtain ⟨group, dependencies, found, settled, dependency, member, newer⟩ := overtakes
  refine ⟨group, dependencies, found, fun earlier le others isRecorded other isMember => ?_,
    dependency, member, ?_⟩
  · have before := settled earlier le others isRecorded other isMember
    rw [(extended other before).isSettled]
    exact before
  · rw [(extended dependency (settled group (Nat.le_refl _) _ found dependency member)).lastChanged]
    exact newer

theorem Confirms.extend (confirms : before.Confirms recorded since)
    (extended : before.Extends after) : after.Confirms recorded since := by
  intro dependency member
  obtain ⟨settled, older⟩ := confirms dependency member
  have alike := extended dependency settled
  exact ⟨alike.isSettled.trans settled, alike.lastChanged ▸ older⟩

theorem Confirms.not_overtakes (confirms : graph.Confirms recorded since) :
    ¬ graph.Overtakes recorded since := by
  rintro ⟨group, dependencies, found, _, dependency, member, newer⟩
  have older := (confirms dependency (Grouping.mem_of_group? found member)).2
  exact absurd newer (Nat.not_lt_of_le older)

theorem Refuted.overtakes {key : κ} (refuted : graph.Refuted key) :
    graph.Overtakes (graph.nodeAt key).dependencies (graph.nodeAt key).lastEvaluated := by
  obtain ⟨group, dependencies, upheld, found, settled, dependency, member, changed⟩ := refuted
  refine ⟨group, dependencies, found, fun earlier le others isRecorded other isMember => ?_,
    dependency, member, Nat.lt_of_not_le fun older => changed ⟨settled dependency member, older⟩⟩
  rcases Nat.lt_or_eq_of_le le with isEarlier | rfl
  · exact (upheld earlier isEarlier others isRecorded other isMember).1
  · rw [found, Option.some.injEq] at isRecorded
    exact settled other (isRecorded ▸ isMember)

end Graph

namespace Round

variable [BEq ν] {registry : Registry κ ν φ} {roots ready : List κ}
  {round now before after : Round κ ν φ} {key : κ} {told : List (Signal κ φ)}

/-- The round and its ready keys are what a round for the roots comes to on its way. -/
def ComesTo (registry : Registry κ ν φ) (roots : List κ) (round : Round κ ν φ)
    (now : Round κ ν φ × List κ) : Prop :=
  ∃ ready : List κ, ready.Perm (round.begin roots).2 ∧
    Advances registry roots ((round.begin roots).1, ready) now

/-- On the way the key was computed, and that made of it what it is now. -/
def ComputedIn (registry : Registry κ ν φ) (roots : List κ) (round now : Round κ ν φ)
    (key : κ) : Prop :=
  ∃ (moment : Round κ ν φ) (ready : List κ) (work : Work κ φ),
    ComesTo registry roots round (moment, ready) ∧ key ∈ ready ∧
      (moment.graph.nodeAt key).work = some work ∧ work.phase = .computing ∧
      (now.graph.nodeAt key).Alike ((moment.compute registry key work).1.graph.nodeAt key)

/-- What is told of a key that is taken up and run with the given attempts. -/
def attemptStory (key : κ) (runs : List Nat) : List (Signal κ φ) :=
  .start key :: runs.map (.compute key)

omit [Key κ] [BEq ν] in
theorem attemptStory_append (runs more : List Nat) :
    (attemptStory key runs ++ more.map (.compute key) : List (Signal κ φ)) =
      attemptStory key (runs ++ more) := by
  simp [attemptStory]

omit [Key κ] [BEq ν] in
@[simp] theorem finish_not_mem_attemptStory (runs : List Nat) (ending : Ending κ φ) :
    .finish key ending ∉ attemptStory key runs := by
  simp [attemptStory]

/-- What has become of a key since a round opened, with the story that was told
of it. -/
inductive Fate (registry : Registry κ ν φ) (roots : List κ) (round now : Round κ ν φ) (key : κ) :
    List (Signal κ φ) → Prop
  | aside (same : (now.graph.nodeAt key).Alike (round.graph.nodeAt key)) :
      Fate registry roots round now key []
  | cached (same : (now.graph.nodeAt key).Alike (round.graph.nodeAt key))
      (settled : round.isSettled key = true) :
      Fate registry roots round now key [.finish key .cacheHit]
  | underway (idle : round.isIdle key = true) (work : Work κ φ)
      (found : (now.graph.nodeAt key).work = some work)
      (same : (now.graph.nodeAt key).bare = (round.graph.nodeAt key).bare) (runs : List Nat)
      (checked : ∀ group awaiting, work.phase = .checking group awaiting → runs = [])
      (untried : runs = [] → work.requested = .empty) :
      Fate registry roots round now key (attemptStory key runs)
  | revalidated (idle : round.isIdle key = true) (old : Result κ ν φ)
      (memo : (round.graph.nodeAt key).memo = .dirty old)
      (same : (now.graph.nodeAt key).Alike ((round.graph.nodeAt key).revalidate round.version))
      (confirmed : now.graph.Confirms (round.graph.nodeAt key).dependencies
        (round.graph.nodeAt key).lastEvaluated) :
      Fate registry roots round now key [.start key, .finish key .revalidated]
  | computed (idle : round.isIdle key = true) (result : Result κ ν φ) (dependencies : Grouping κ)
      (same : (now.graph.nodeAt key).Alike
        ((round.graph.nodeAt key).commit round.version result dependencies))
      (overtaken : ∀ old, (round.graph.nodeAt key).memo = .dirty old →
        now.graph.Overtakes (round.graph.nodeAt key).dependencies
          (round.graph.nodeAt key).lastEvaluated)
      (moment : ComputedIn registry roots round now key)
      (noted : isTransient result = true → key ∈ now.transient.toList) (runs : List Nat)
      (absent : runs = [] → registry.function? key = none) :
      Fate registry roots round now key (attemptStory key runs ++
        [.finish key (.ofResult ((round.graph.nodeAt key).keeps result) result)])
  | broken (idle : round.isIdle key = true) (path : List κ) (dependencies : Grouping κ)
      (same : (now.graph.nodeAt key).Alike ((round.graph.nodeAt key).commit round.version
        (.error (.cycle key path)) dependencies))
      (noted : key ∈ now.transient.toList) (component : List κ) (member : key ∈ component)
      (runs : List Nat) :
      Fate registry roots round now key (attemptStory key runs ++
        [.cycle component, .finish key .cycleDetected])

theorem ComputedIn.of_alike (moment : ComputedIn registry roots round before key)
    (alike : (after.graph.nodeAt key).Alike (before.graph.nodeAt key)) :
    ComputedIn registry roots round after key := by
  obtain ⟨then', ready, work, comes, member, found, phase, same⟩ := moment
  exact ⟨then', ready, work, comes, member, found, phase, alike.trans same⟩

theorem Fate.keep (fate : Fate registry roots round before key told)
    (alike : (after.graph.nodeAt key).Alike (before.graph.nodeAt key))
    (extended : before.graph.Extends after.graph)
    (noted : key ∈ before.transient.toList → key ∈ after.transient.toList) :
    Fate registry roots round after key told := by
  cases fate with
  | aside same => exact .aside (alike.trans same)
  | cached same settled => exact .cached (alike.trans same) settled
  | underway idle work found same runs checked untried =>
      obtain ⟨later, isLater, phase, _, requested, _⟩ := alike.symm.work_some found
      refine .underway idle later isLater (alike.bare.trans same) runs ?_ ?_
      · rw [phase]
        exact checked
      · rw [requested]
        exact untried
  | revalidated idle old memo same confirmed =>
      exact .revalidated idle old memo (alike.trans same) (confirmed.extend extended)
  | computed idle result dependencies same overtaken moment isNoted runs absent =>
      exact .computed idle result dependencies (alike.trans same)
        (fun old memo => (overtaken old memo).extend extended) (moment.of_alike alike)
        (fun passes => noted (isNoted passes)) runs absent
  | broken idle path dependencies same isNoted component member runs =>
      exact .broken idle path dependencies (alike.trans same) (noted isNoted) component member runs

theorem Fate.of_idle (fate : Fate registry roots round now key told)
    (idle : now.isIdle key = true) :
    told = [] ∧ (now.graph.nodeAt key).Alike (round.graph.nodeAt key) := by
  have busy : ∀ {node : Node κ ν φ}, (now.graph.nodeAt key).Alike node → node.isSettled = true →
      False := by
    intro node alike settled
    rw [isIdle, alike.isIdle, Node.not_idle_of_settled settled] at idle
    cases idle
  cases fate with
  | aside same => exact ⟨rfl, same⟩
  | cached same settled => exact (busy same settled).elim
  | underway _ work found =>
      rw [isIdle, Node.not_idle_of_work (by simp [found])] at idle
      cases idle
  | revalidated _ old memo same =>
      refine (busy same (Node.isSettled_iff.mpr ⟨rfl, old, ?_⟩)).elim
      simp [Node.revalidate, memo, Memo.result?]
  | computed _ result dependencies same => exact (busy same rfl).elim
  | broken _ path dependencies same => exact (busy same rfl).elim

theorem Fate.of_work (fate : Fate registry roots round now key told) (rested : Rested round.graph)
    {work : Work κ φ} (found : (now.graph.nodeAt key).work = some work) :
    round.isIdle key = true ∧ (now.graph.nodeAt key).bare = (round.graph.nodeAt key).bare ∧
      ∃ runs : List Nat, told = attemptStory key runs ∧
        (∀ group awaiting, work.phase = .checking group awaiting → runs = []) ∧
        (runs = [] → work.requested = .empty) := by
  have taken : (now.graph.nodeAt key).work.isSome = true := by simp [found]
  have busy : ∀ {node : Node κ ν φ}, (now.graph.nodeAt key).Alike node → node.work = none →
      False := by
    intro node alike free
    rw [alike.work_isSome, free] at taken
    cases taken
  cases fate with
  | aside same => exact (busy same (rested key)).elim
  | cached same => exact (busy same (rested key)).elim
  | underway idle other isOther same runs checked untried =>
      obtain rfl : work = other := Option.some.inj (found.symm.trans isOther)
      exact ⟨idle, same, runs, rfl, checked, untried⟩
  | revalidated _ _ _ same => exact (busy same rfl).elim
  | computed _ _ _ same => exact (busy same rfl).elim
  | broken _ _ _ same => exact (busy same rfl).elim

theorem Fate.takeUp (fate : Fate registry roots round before key told)
    (idle : before.isIdle key = true) {phase : Phase}
    (alike : (after.graph.nodeAt key).Alike
      { before.graph.nodeAt key with work := some { phase } }) :
    Fate registry roots round after key (told ++ [.start key]) := by
  obtain ⟨rfl, same⟩ := fate.of_idle idle
  have wasIdle : round.isIdle key = true := by
    rw [isIdle, ← same.isIdle]
    exact idle
  have taken : ({ before.graph.nodeAt key with work := some { phase } } : Node κ ν φ).work =
      some { phase } := rfl
  obtain ⟨work, found, samePhase, _, requested, _⟩ := alike.symm.work_some taken
  exact .underway wasIdle work found (alike.bare.trans same.bare) [] (fun _ _ _ => rfl)
    fun _ => requested

section Step

variable {work : Work κ φ} {effect : Effect κ ν φ} {own : List (Signal κ φ)}

theorem Fate.stepped (fate : Fate registry roots round before key told)
    (rested : Rested round.graph) (version : before.version = round.version)
    (comes : ComesTo registry roots round (before, ready))
    (sound : Sound registry before ready) (member : key ∈ ready)
    (found : (before.graph.nodeAt key).work = some work) (free : work.pending = 0)
    (account : Account registry before key work effect own)
    (moved : Moved before (before.step registry key).1 key effect) :
    Fate registry roots round (before.step registry key).1 key (told ++ own) := by
  obtain ⟨idle, same, runs, rfl, checked, untried⟩ := fate.of_work rested found
  have extended := moved.extends found
  have established := sound.establishes key work found
  have dependencies := Node.dependencies_of_bare same
  have evaluated := Node.lastEvaluated_of_bare same
  have memo := Node.memo_of_bare same
  have alike := moved.self
  cases account with
  | check group awaiting phase asked change requested =>
      obtain ⟨later, isLater, _, _, sameRequested, _⟩ :=
        alike.symm.work_some (Node.updateWork_work_of_work change found)
      rw [List.append_nil]
      refine .underway idle later isLater (alike.bare.trans same) runs
        (fun _ _ _ => checked group awaiting phase) fun none => ?_
      rw [sameRequested, requested]
      exact untried none
  | revalidate group awaiting phase finished =>
      obtain ⟨old, dirty⟩ := (sound.underway key work found).2 group awaiting phase
      have upheld := upheld_of_last (established.upheld group awaiting phase) finished
      rw [checked group awaiting phase]
      refine .revalidated idle old (memo ▸ dirty)
        (alike.trans (version ▸ Node.alike_revalidate same before.version)) ?_
      rw [← dependencies, ← evaluated]
      exact Graph.Confirms.extend upheld extended
  | restart phase asked change samePhase attempt =>
      obtain ⟨later, isLater, laterPhase, _⟩ :=
        alike.symm.work_some (Node.updateWork_work_of_work change found)
      rw [← List.map_singleton (f := Signal.compute key), attemptStory_append]
      refine .underway idle later isLater (alike.bare.trans same) _ ?_ (by simp)
      intro group awaiting checking
      rw [laterPhase, samePhase, phase] at checking
      cases checking
  | compute phase result recorded run ran =>
      have kept : (before.graph.nodeAt key).keeps result =
          (round.graph.nodeAt key).keeps result := by
        unfold Node.keeps
        rw [memo]
      have attempts : ((run.map fun _ => .compute key work.attempts).toList : List (Signal κ φ)) =
          (run.map fun _ => work.attempts).toList.map (.compute key) := by
        cases run <;> rfl
      rw [kept, ← List.append_assoc, attempts, attemptStory_append]
      have self := Node.alike_commit same before.version result recorded
      rw [version] at self alike
      refine .computed idle result recorded (alike.trans self) ?_ ?_ ?_ _ ?_
      · intro old dirty
        rw [← dependencies, ← evaluated]
        exact (established.refuted old phase (memo.trans dirty)).overtakes.extend extended
      · refine ⟨before, ready, work, comes, member, found, phase, ?_⟩
        rw [step_of_computing found free phase]
        exact .refl _
      · exact fun passes => (moved.transient key).mpr (.inr ⟨rfl, passes⟩)
      · intro none
        obtain ⟨noRuns, noRun⟩ := List.append_eq_nil_iff.mp none
        rcases ran with isRun | asked | absent
        · obtain ⟨attempt, rfl⟩ := Option.isSome_iff_exists.mp isRun
          cases noRun
        · exact absurd (untried noRuns) asked
        · exact absent

theorem Fate.alongside {other : κ} (fate : Fate registry roots round before other told)
    (found : (before.graph.nodeAt key).work = some work)
    (moved : Moved before after key effect) (different : other ≠ key) :
    Fate registry roots round after other
      (told ++ if other ∈ effect.asked.filter before.isIdle then [.start other] else []) := by
  by_cases joins : other ∈ effect.asked.filter before.isIdle
  · obtain ⟨asked, idle⟩ := List.mem_filter.mp joins
    obtain ⟨phase, _, alike⟩ := moved.joins different asked idle
    rw [if_pos joins]
    exact fate.takeUp idle alike
  · have same := moved.kept different fun asked =>
      eq_false_of_ne_true fun idle => joins (List.mem_filter.mpr ⟨asked, idle⟩)
    rw [if_neg joins, List.append_nil]
    exact fate.keep same (moved.extends found) fun noted => (moved.transient other).mpr (.inl noted)

end Step

theorem Fate.unblocked (fate : Fate registry roots round before key told)
    (rested : Rested round.graph) (version : before.version = round.version)
    (waiting : Waiting before []) :
    Fate registry roots round (before.breakDeadlock roots).1 key
      (told ++ cycleStory (before.waits roots).cyclicComponents key) := by
  have failed := failed_breakDeadlock waiting roots
  cases unblocked_breakDeadlock waiting roots key with
  | failed path broken isFailure alike =>
      obtain ⟨work, found⟩ := exists_work ((mem_broken roots waiting).mp broken).1
      obtain ⟨idle, same, runs, rfl, _⟩ := fate.of_work rested found
      obtain ⟨component, inComponent, story⟩ := exists_cycleStory_of_mem
        (Digraph.nodup_cyclicComponents (closed_waits roots waiting)) broken
      rw [version] at alike
      rw [story]
      refine .broken idle path _ (alike.trans (Node.alike_commit same ..)) ?_ component inComponent
        runs
      exact (failed.transient key).mpr (.inr ⟨_, isFailure, rfl, rfl⟩)
  | spared whole alike =>
      rw [cycleStory_of_not_mem whole, List.append_nil]
      exact fate.keep alike (extends_breakDeadlock waiting roots)
        fun noted => (failed.transient key).mpr (.inl noted)

theorem Begun.fate (begun : Begun round roots after ready) (rested : Rested round.graph) (key : κ) :
    Fate registry roots round after key
      (if key ∈ roots then
        [if round.isIdle key then .start key else .finish key .cacheHit]
      else []) := by
  have node := begun.nodes key
  by_cases isRoot : key ∈ roots
  · rw [if_pos isRoot] at node ⊢
    cases idle : round.isIdle key with
    | true =>
        obtain ⟨phase, _, taken⟩ := Node.taken_of_idle idle
        rw [taken] at node
        have alike : (after.graph.nodeAt key).Alike
            { round.graph.nodeAt key with work := some { phase } } := node ▸ .refl _
        have aside : Fate registry roots round round key [] := .aside (.refl _)
        exact aside.takeUp idle alike
    | false =>
        rw [Node.taken_of_not_idle idle] at node
        have settled := rested.isSettled idle
        exact .cached (node ▸ .refl _) settled
  · rw [if_neg isRoot] at node ⊢
    exact .aside (node ▸ .refl _)

/-- What was told since a round opened gives each key the story of its fate. -/
structure Recounted (registry : Registry κ ν φ) (roots : List κ) (round now : Round κ ν φ) :
    Prop where
  version : now.version = round.version
  told : ∃ stories, Tells round now stories ∧
    ∀ key, Fate registry roots round now key (stories key)

section Recounted

theorem Recounted.begin (unique : roots.Nodup) (rested : Rested round.graph) :
    Recounted registry roots round (round.begin roots).1 :=
  ⟨(round.begin_spec unique).context.version,
    ⟨_, round.tells_begin unique, (round.begin_spec unique).fate rested⟩⟩

theorem Recounted.step (recounted : Recounted registry roots round before)
    (rested : Rested round.graph) (comes : ComesTo registry roots round (before, ready))
    (sound : Sound registry before ready) (member : key ∈ ready) :
    Recounted registry roots round (before.step registry key).1 := by
  obtain ⟨work, _, found, free, _⟩ := sound.moved member registry
  obtain ⟨effect, own, account, moved, tells⟩ := step_accounted registry found free
  obtain ⟨stories, told, fates⟩ := recounted.told
  refine ⟨moved.version.trans recounted.version, _, told.trans tells, fun other => ?_⟩
  by_cases same : other = key
  · rw [if_pos same, same]
    exact (fates key).stepped rested recounted.version comes sound member found free account moved
  · rw [if_neg same]
    exact (fates other).alongside found moved same

theorem Recounted.unblock (recounted : Recounted registry roots round before)
    (rested : Rested round.graph) (waiting : Waiting before []) :
    Recounted registry roots round (before.breakDeadlock roots).1 := by
  obtain ⟨stories, told, fates⟩ := recounted.told
  exact ⟨(failed_breakDeadlock waiting roots).version.trans recounted.version, _,
    told.trans (before.tells_breakDeadlock waiting roots),
    fun key => (fates key).unblocked rested recounted.version waiting⟩

/-- At any time of a round each key has a fate, and its story has been told. -/
theorem ComesTo.recounted {now : Round κ ν φ × List κ}
    (comes : ComesTo registry roots round now) (unique : roots.Nodup)
    (rested : Rested round.graph) :
    Sound registry now.1 now.2 ∧ Recounted registry roots round now.1 := by
  obtain ⟨ready, order, moves⟩ := comes
  induction moves with
  | refl => exact ⟨.begin unique rested order, .begin unique rested⟩
  | tail earlier move ih =>
      obtain ⟨sound, recounted⟩ := ih
      refine ⟨sound.advance move, ?_⟩
      cases move with
      | step going chosen later =>
          exact recounted.step rested ⟨ready, order, earlier⟩ sound
            (chosen.mem_iff.mpr List.mem_cons_self)
      | unblock => exact recounted.unblock rested sound.waiting

variable {final : Round κ ν φ} {halt : Halt}

/-- A round that is not cut short ends when its last deadlocks are broken. -/
theorem Ends.unblocked (ends : Ends registry roots round final .complete) (unique : roots.Nodup)
    (rested : Rested round.graph) :
    ∃ last, ComesTo registry roots round (last, []) ∧ last.breakDeadlock roots = (final, []) := by
  cases ends with
  | cached nothing =>
      have begun := round.begin_spec unique
      refine ⟨(round.begin roots).1, ⟨[], by rw [nothing], .refl⟩, breakDeadlock_of_idle roots ?_⟩
      intro key
      rw [← Bool.not_eq_true, ← begun.mem_ready rested, nothing]
      exact List.not_mem_nil
  | complete order moves going finished =>
      exact ⟨_, ⟨_, order, moves⟩, Prod.ext rfl finished⟩
  | cut _ _ short => exact absurd rfl short

theorem Ends.rolledBack (ends : Ends registry roots round final halt) (short : halt ≠ .complete) :
    ∃ last left, ComesTo registry roots round (last, left) ∧ final = last.rollBack := by
  cases ends with
  | cached => exact absurd rfl short
  | complete => exact absurd rfl short
  | cut order moves => exact ⟨_, _, ⟨_, order, moves⟩, rfl⟩

theorem Ends.recounted (ends : Ends registry roots round final .complete) (unique : roots.Nodup)
    (rested : Rested round.graph) : Recounted registry roots round final := by
  obtain ⟨last, comes, unblocked⟩ := ends.unblocked unique rested
  obtain ⟨sound, recounted⟩ := comes.recounted unique rested
  have ended := recounted.unblock rested sound.waiting
  rwa [unblocked] at ended

end Recounted

end Round

end MemoGraph
