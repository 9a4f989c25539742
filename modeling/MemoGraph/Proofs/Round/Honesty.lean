import MemoGraph.Proofs.Round.Deriving
import MemoGraph.Proofs.Round.Foundations

namespace MemoGraph

/-- Where equal values are the same, a node has the result that it is given. -/
theorem Node.committed_of_lawful {κ ν φ : Type} [BEq ν] [LawfulBEq ν] {node : Node κ ν φ}
    (result : Result κ ν φ) : node.committed result = result := by
  unfold committed
  split
  · rename_i kept
    unfold keeps at kept
    split at kept
    · rename_i value
      split at kept
      · rename_i old found
        rw [found, ← eq_of_beq kept]
        rfl
      · cases kept
    · cases kept
  · rfl

namespace Round

/-! Within a round, results are what the functions make of other results.

Some results are given: the values that were set from outside, and the failures
of keys on cycles, which have failed for what they waited for and not for what
they were told.
-/

variable {κ ν φ : Type} [Key κ] {round before after : Round κ ν φ} {inputs given : κ → Prop}
  {key : κ} {registry : Registry κ ν φ}

/-- The dependency is one of those that the result of the key was derived from. -/
def Needs (round : Round κ ν φ) (given : κ → Prop) (dependency key : κ) : Prop :=
  round.isSettled key = true ∧ ¬ given key ∧ dependency ∈ (round.graph.nodeAt key).dependencies

/-- Results are given, or derived without circles, and no result that is not to
last stays unnoticed. -/
structure Honest (registry : Registry κ ν φ) (inputs given : κ → Prop) (round : Round κ ν φ) :
    Prop where
  grounded : Grounded (registry.backing inputs) round
  derives : ∀ key result, (round.graph.nodeAt key).result? = some result → ¬ given key →
    registry.Derives key result (round.graph.nodeAt key).dependencies round.graph.result?
  founded : WellFounded (round.Needs given)
  lasting : ∀ key result, (round.graph.nodeAt key).memo = .dirty result →
    isTransient result = false
  noted : ∀ key result, (round.graph.nodeAt key).result? = some result →
    isTransient result = true → key ∈ round.transient.toList
  includes : ∀ key, inputs key → given key
  passing : ∀ key, given key → ∃ result, (round.graph.nodeAt key).result? = some result ∧
    (inputs key ∨ isTransient result = true)
  flagged : ∀ key, (round.graph.nodeAt key).injected = true ↔ inputs key
  rootless : ∀ key, inputs key → (round.graph.nodeAt key).dependencies = .empty ∧
    ∃ value, (round.graph.nodeAt key).result? = some (.ok value)

theorem Honest.settled_of_given (honest : Honest registry inputs given round) (isGiven : given key) :
    round.isSettled key = true := by
  obtain ⟨result, found, _⟩ := honest.passing key isGiven
  exact Node.isSettled_of_result? found

theorem Honest.not_given (honest : Honest registry inputs given round)
    (unsettled : round.isSettled key = false) : ¬ given key := by
  intro isGiven
  rw [honest.settled_of_given isGiven] at unsettled
  cases unsettled

theorem Honest.rootless_of_extends (honest : Honest registry inputs given before)
    (extended : before.graph.Extends after.graph) (key : κ) (isInput : inputs key) :
    (after.graph.nodeAt key).dependencies = .empty ∧
      ∃ value, (after.graph.nodeAt key).result? = some (.ok value) := by
  obtain ⟨dependencies, value, found⟩ := honest.rootless key isInput
  have alike := extended key (Node.isSettled_of_result? found)
  exact ⟨alike.dependencies.trans dependencies, value, alike.result?.trans found⟩

theorem Honest.settled (honest : Honest registry inputs given round) {dependency : κ}
    (needs : round.Needs given dependency key) : round.isSettled dependency = true := by
  obtain ⟨settled, own, needed⟩ := needs
  obtain ⟨result, found⟩ := Node.exists_result? settled
  have present := (honest.derives key result found own).present needed
  rw [Graph.result?_eq] at present
  exact present

/-- New results that are derived from earlier ones bring no circles. -/
theorem Honest.founded_of_extends (honest : Honest registry inputs given before)
    (extended : before.graph.Extends after.graph)
    (fresh : ∀ key, before.isSettled key = false → ∀ dependency,
      after.Needs given dependency key → before.isSettled dependency = true) :
    WellFounded (after.Needs given) := by
  refine wellFounded_of_fresh (fun key => before.isSettled key = true) honest.founded
    (fun settled needs => ?_) fun unsettled needs => fresh _ (eq_false_of_ne_true unsettled) _ needs
  obtain ⟨_, own, needed⟩ := needs
  rw [(extended _ settled).dependencies] at needed
  exact ⟨⟨settled, own, needed⟩, honest.settled ⟨settled, own, needed⟩⟩

section Step

variable [BEq ν] [LawfulBEq ν] {work : Work κ φ} {effect : Effect κ ν φ} {ready : List κ}

/-- A step gives a key what its function makes of the results so far. -/
theorem Progress.derives (strict : registry.Strict)
    (progress : Progress registry before key work effect)
    (found : (before.graph.nodeAt key).work = some work) (sound : Sound registry before ready)
    (member : key ∈ ready) (honest : Honest registry inputs given before) {result : Result κ ν φ}
    (isResult : effect.own.result? = some result) :
    registry.Derives key result effect.own.dependencies before.graph.result? ∧
      effect.failed = isTransient result := by
  have unsettled : before.isSettled key = false := Node.not_settled_of_work (by simp [found])
  have underway := sound.underway key
  have established := sound.establishes key work found
  have settles := progress.settles strict found underway established
    (sound.batch_present member found) (Node.isSettled_of_result? isResult)
  cases phase : work.phase with
  | computing =>
      rw [Graph.outlook_of_computing established phase] at settles
      obtain ⟨⟨made, dependencies⟩, computing, committed⟩ := Outlook.settles_of_map settles
      obtain ⟨own, failed⟩ := Prod.mk.inj committed
      have memo : Memo.valid ((before.graph.nodeAt key).bare.committed made) = effect.own.memo :=
        congrArg Node.memo own
      have recorded : dependencies = effect.own.dependencies := congrArg Node.dependencies own
      rw [Node.committed_of_lawful, (Node.result?_eq_some_iff.mp isResult).2, Memo.valid.injEq]
        at memo
      subst memo
      exact ⟨recorded ▸ strict.derives computing, failed.symm⟩
  | checking group awaiting =>
      cases progress with
      | revalidate index isAwaiting checking finished =>
          obtain ⟨old, memo⟩ := (underway work found).2 index isAwaiting checking
          have same : old = result := by
            simpa [Node.revalidate, memo, Memo.result?, Node.result?] using isResult
          subst same
          have lasting := honest.lasting key old memo
          refine ⟨?_, lasting.symm⟩
          have upheld := upheld_of_last (established.upheld index isAwaiting checking) finished
          rcases honest.grounded.dirty key old memo lasting with ⟨never, _⟩ |
            ⟨results, remembered, isInput | derives⟩
          · exact never.elim
          · exact absurd (honest.includes key isInput) (honest.not_given unsettled)
          · refine derives.congr fun dependency needed => ?_
            obtain ⟨settled, older⟩ := upheld dependency needed
            obtain ⟨other, isOther⟩ := Node.exists_result? settled
            rw [← remembered dependency needed older, Graph.result?_eq, isOther]
            exact Node.memo_result?_of_result? isOther
      | await | compare =>
          rw [Node.updateWork_result?, Node.result?_of_work (by simp [found])] at isResult
          cases isResult
      | fail dependency cause computing | refuse computing | finish _ _ _ _ _ _ computing
      | restart _ _ _ computing =>
          rw [phase] at computing
          cases computing

theorem Honest.step (strict : registry.Strict) (honest : Honest registry inputs given before)
    (sound : Sound registry before ready) (member : key ∈ ready)
    (found : (before.graph.nodeAt key).work = some work)
    (progress : Progress registry before key work effect)
    (moved : Moved before after key effect) : Honest registry inputs given after := by
  have extended := moved.extends found
  have underway := sound.underway key
  have unsettled : before.isSettled key = false := Node.not_settled_of_work (by simp [found])
  have derives : ∀ result, effect.own.result? = some result →
      registry.Derives key result effect.own.dependencies before.graph.result? ∧
        effect.failed = isTransient result :=
    fun result => progress.derives strict found sound member honest
  have freshDerives : ∀ result, (after.graph.nodeAt key).result? = some result →
      registry.Derives key result (after.graph.nodeAt key).dependencies before.graph.result? := by
    intro result isResult
    rw [moved.self.dependencies]
    exact (derives result (moved.self.result? ▸ isResult)).1
  constructor
  case grounded =>
    refine honest.grounded.step progress moved found underway (sound.establishes key work found)
      (sound.settled_of_batch member found) fun result _ isResult _ => .inr ?_
    exact (derives result isResult).1.congr fun dependency _ => Graph.result?_eq dependency
  case derives =>
    intro other result isResult own
    cases settled : before.isSettled other with
    | true =>
        have alike := extended other settled
        rw [alike.dependencies]
        exact (honest.derives other result (alike.result? ▸ isResult) own).extend extended
    | false =>
        obtain rfl := moved.eq_of_settled (Node.isSettled_of_result? isResult) settled
        exact (freshDerives result isResult).extend extended
  case founded =>
    refine honest.founded_of_extends extended fun other wasUnsettled dependency needs => ?_
    obtain ⟨settled, _, needed⟩ := needs
    obtain rfl := moved.eq_of_settled settled wasUnsettled
    obtain ⟨result, isResult⟩ := Node.exists_result? settled
    have present := (freshDerives result isResult).present needed
    rw [Graph.result?_eq] at present
    exact present
  case lasting =>
    intro other result memo
    refine honest.lasting other result ?_
    by_cases isKey : other = key
    · subst isKey
      have notSettled : effect.own.isSettled = false := by
        rw [← Bool.not_eq_true, Node.isSettled_iff, ← moved.self.memo, memo]
        simp
      rw [← Node.memo_of_bare (progress.unsettled found underway notSettled).1, ← moved.self.memo]
      exact memo
    · rw [← Node.memo_of_bare (moved.other_bare isKey).1]
      exact memo
  case noted =>
    intro other result isResult passes
    rw [moved.transient]
    cases settled : before.isSettled other with
    | true =>
        exact .inl (honest.noted other result ((extended other settled).result? ▸ isResult) passes)
    | false =>
        obtain rfl := moved.eq_of_settled (Node.isSettled_of_result? isResult) settled
        exact .inr ⟨rfl, (derives result (moved.self.result? ▸ isResult)).2.trans passes⟩
  case includes => exact honest.includes
  case passing =>
    intro other isGiven
    obtain ⟨result, isResult, reason⟩ := honest.passing other isGiven
    exact ⟨result, extended.result? isResult, reason⟩
  case flagged =>
    intro other
    rw [← honest.flagged]
    by_cases isKey : other = key
    · rw [isKey, moved.self.injected, progress.injected]
    · rw [Node.injected_of_bare (moved.other_bare isKey).1]
  case rootless => exact honest.rootless_of_extends extended

end Step

theorem Honest.without_results (honest : Honest registry inputs given before)
    (grounded : Grounded (registry.backing inputs) after)
    (extended : before.graph.Extends after.graph)
    (settled : ∀ key, after.isSettled key = true → before.isSettled key = true)
    (bare : ∀ key, (after.graph.nodeAt key).bare = (before.graph.nodeAt key).bare)
    (transient : after.transient = before.transient) : Honest registry inputs given after := by
  have same : ∀ key result, (after.graph.nodeAt key).result? = some result →
      (before.graph.nodeAt key).result? = some result ∧
        (after.graph.nodeAt key).dependencies = (before.graph.nodeAt key).dependencies := by
    intro key result found
    have alike := extended key (settled key (Node.isSettled_of_result? found))
    exact ⟨alike.result? ▸ found, alike.dependencies⟩
  constructor
  case grounded => exact grounded
  case derives =>
    intro key result found own
    obtain ⟨earlier, dependencies⟩ := same key result found
    rw [dependencies]
    exact (honest.derives key result earlier own).extend extended
  case founded =>
    refine honest.founded_of_extends extended fun key unsettled dependency needs => ?_
    rw [settled key needs.1] at unsettled
    cases unsettled
  case lasting => exact fun key result dirty =>
      honest.lasting key result (Node.memo_of_bare (bare key) ▸ dirty)
  case noted =>
    intro key result found passes
    rw [transient]
    exact honest.noted key result (same key result found).1 passes
  case includes => exact honest.includes
  case passing =>
    intro key isGiven
    obtain ⟨result, found, reason⟩ := honest.passing key isGiven
    exact ⟨result, extended.result? found, reason⟩
  case flagged =>
    intro key
    rw [← honest.flagged, Node.injected_of_bare (bare key)]
  case rootless => exact honest.rootless_of_extends extended

theorem Honest.begin {roots ready : List κ} (honest : Honest registry inputs given before)
    (begun : Begun before roots after ready) : Honest registry inputs given after := by
  have node : ∀ key, after.graph.nodeAt key = before.graph.nodeAt key ∨
      after.graph.nodeAt key = (before.graph.nodeAt key).taken := by
    intro key
    rw [begun.nodes]
    split
    · exact .inr rfl
    · exact .inl rfl
  refine honest.without_results (honest.grounded.begin begun) (fun key settled => ?_)
    (fun key settled => ?_) (fun key => ?_) begun.context.transient
  · have busy := Node.not_idle_of_settled settled
    rcases node key with same | taken
    · rw [same]
      exact .refl _
    · rw [taken, Node.taken_of_not_idle busy]
      exact .refl _
  · unfold isSettled at settled ⊢
    rcases node key with same | taken
    · exact same ▸ settled
    · cases idle : (before.graph.nodeAt key).isIdle with
      | true =>
          obtain ⟨phase, _, isTaken⟩ := Node.taken_of_idle idle
          rw [taken, isTaken, Node.not_settled_of_work rfl] at settled
          cases settled
      | false => rwa [taken, Node.taken_of_not_idle idle] at settled
  · rcases node key with same | taken
    · rw [same]
    · rw [taken, Node.bare_taken]

section Break

variable [BEq ν] {roots ready : List κ}

theorem Honest.breakDeadlock (honest : Honest registry inputs given before)
    (waiting : Waiting before []) (roots : List κ) :
    Honest registry inputs (fun key => given key ∨ key ∈ before.broken roots)
      (before.breakDeadlock roots).1 := by
  have failed := failed_breakDeadlock waiting roots
  have extended := failed.extends fun _ => evaluating_of_cycleFailuresAt waiting
  have unblocked := unblocked_breakDeadlock waiting roots
  constructor
  case grounded => exact honest.grounded.breakDeadlock waiting
  case derives =>
    intro key result found own
    obtain ⟨notGiven, whole⟩ := not_or.mp own
    have alike := (unblocked key).alike whole
    rw [alike.dependencies]
    exact (honest.derives key result (alike.result? ▸ found) notGiven).extend extended
  case founded =>
    refine Subrelation.wf (fun {dependency key} needs => ?_) honest.founded
    obtain ⟨settled, own, needed⟩ := needs
    obtain ⟨notGiven, whole⟩ := not_or.mp own
    have alike := (unblocked key).alike whole
    exact ⟨alike.isSettled.symm.trans settled, notGiven, alike.dependencies ▸ needed⟩
  case lasting =>
    intro key result memo
    cases unblocked key with
    | failed _ _ _ alike =>
        rw [alike.memo] at memo
        cases memo
    | spared _ alike => exact honest.lasting key result (alike.memo ▸ memo)
  case noted =>
    intro key result found passes
    rw [failed.transient]
    cases unblocked key with
    | failed _ _ isFailure _ => exact .inr ⟨_, isFailure, rfl, rfl⟩
    | spared _ alike => exact .inl (honest.noted key result (alike.result? ▸ found) passes)
  case includes => exact fun key isInput => .inl (honest.includes key isInput)
  case passing =>
    rintro key (isGiven | isBroken)
    · obtain ⟨result, found, reason⟩ := honest.passing key isGiven
      exact ⟨result, extended.result? found, reason⟩
    · obtain ⟨path, isFailure⟩ := exists_cycleFailureAt isBroken
      exact ⟨_, (failed.self _ isFailure).result?, .inr rfl⟩
  case flagged =>
    intro key
    rw [← honest.flagged]
    cases unblocked key with
    | failed _ _ _ alike => exact Bool.eq_iff_iff.mp alike.injected
    | spared _ alike => rw [alike.injected]
  case rootless => exact honest.rootless_of_extends extended

omit [BEq ν] in
theorem Honest.rollBack (honest : Honest registry inputs given before)
    (inOrder : InOrder before ready) : Honest registry inputs given before.rollBack := by
  have node := nodeAt_rollBack_of_waiting inOrder.waiting
  refine honest.without_results (honest.grounded.rollBack inOrder) (fun key settled => ?_)
    (fun key settled => ?_) (fun key => by rw [node]; rfl) rfl
  · rw [node]
    unfold Node.rollBack
    rw [← (Node.isSettled_iff.mp settled).1]
    exact .refl _
  · obtain ⟨_, result, memo⟩ := Node.isSettled_iff.mp settled
    rw [node] at memo
    have valid : (before.graph.nodeAt key).memo = .valid result := memo
    cases found : (before.graph.nodeAt key).work with
    | none => exact Node.isSettled_iff.mpr ⟨found, result, valid⟩
    | some work => exact absurd valid ((inOrder.underway key work found).1 result)

variable [LawfulBEq ν] {final : Round κ ν φ} {halt : Halt}

theorem Honest.advances (honest : Honest registry inputs given round) (strict : registry.Strict)
    (sound : Sound registry round ready) {now : Round κ ν φ × List κ}
    (moves : Advances registry roots (round, ready) now) :
    Sound registry now.1 now.2 ∧ ∃ later, Honest registry inputs later now.1 := by
  induction moves with
  | refl => exact ⟨sound, given, honest⟩
  | tail _ move ih =>
      obtain ⟨order, later, honest⟩ := ih
      refine ⟨order.advance move, ?_⟩
      cases move with
      | step going chosen _ =>
          have member := chosen.mem_iff.mpr List.mem_cons_self
          obtain ⟨work, effect, found, _, progress, moved⟩ := order.moved member registry
          exact ⟨later, honest.step strict order member found progress moved⟩
      | unblock => exact ⟨_, honest.breakDeadlock order.waiting roots⟩

theorem Ends.honest (ends : Ends registry roots round final halt) (strict : registry.Strict)
    (unique : roots.Nodup) (rested : Rested round.graph)
    (honest : Honest registry inputs given round) :
    ∃ later, Honest registry inputs later final := by
  have begun := honest.begin (round.begin_spec unique)
  cases ends with
  | cached => exact ⟨given, begun⟩
  | complete order moves going finished =>
      obtain ⟨sound, later, honest⟩ := begun.advances strict (.begin unique rested order) moves
      exact ⟨_, honest.breakDeadlock sound.waiting roots⟩
  | cut order moves short =>
      obtain ⟨sound, later, honest⟩ := begun.advances strict (.begin unique rested order) moves
      exact ⟨later, honest.rollBack sound.toInOrder⟩

end Break

end Round

end MemoGraph
