import MemoGraph.Proofs.Round.Invariants

namespace MemoGraph

/-- A relation stays well founded when something new is only related to what is old. -/
theorem wellFounded_of_fresh {α : Type} {before after : α → α → Prop} (old : α → Prop)
    (founded : WellFounded before)
    (kept : ∀ {low high : α}, old high → after low high → before low high ∧ old low)
    (fresh : ∀ {low high : α}, ¬ old high → after low high → old low) : WellFounded after := by
  have reached : ∀ high, old high → Acc after high := by
    intro high
    induction high using founded.induction with
    | _ high ih =>
        intro isOld
        refine ⟨high, fun low related => ?_⟩
        obtain ⟨earlier, lowOld⟩ := kept isOld related
        exact ih low earlier lowOld
  refine ⟨fun high => ⟨high, fun low related => ?_⟩⟩
  by_cases isOld : old high
  · exact (reached high isOld).inv related
  · exact reached low (fresh isOld related)

variable {κ ν φ : Type}

/-- Nothing is asked of results but that they rest on valid ones. -/
def Backing.plain : Backing κ ν φ where
  holds _ _ _ _ := True
  fleeting := False
  congr _ holds := holds

variable [Key κ]

namespace Graph

variable {before after graph : Graph κ ν φ} {version : Version} {dependency key : κ}

/-- A lasting result of the key rests on the dependency. -/
def Supports (graph : Graph κ ν φ) (dependency key : κ) : Prop :=
  ∃ result, (graph.nodeAt key).result? = some result ∧ Round.isTransient result = false ∧
    dependency ∈ (graph.nodeAt key).dependencies

/-- Lasting results rest on results that are valid and did not change since, and
not on themselves. -/
structure Firm (graph : Graph κ ν φ) (version : Version) : Prop where
  grounded : Grounded .plain graph version
  founded : WellFounded graph.Supports

theorem Supports.of_fades (fades : (before.nodeAt key).Fades version (after.nodeAt key))
    (supports : after.Supports dependency key) : before.Supports dependency key := by
  obtain ⟨result, found, lasting, needed⟩ := supports
  exact ⟨result, fades.settled result found, lasting, fades.dependencies ▸ needed⟩

theorem Firm.settled (firm : graph.Firm version) (supports : graph.Supports dependency key) :
    (graph.nodeAt dependency).isSettled = true := by
  obtain ⟨result, found, lasting, needed⟩ := supports
  exact ((firm.grounded.settled key result found lasting).1 dependency needed).1

end Graph

namespace Round

variable {round final before after : Round κ ν φ} {key : κ} {work : Work κ φ}
  {effect : Effect κ ν φ} {roots ready : List κ}

abbrev Firm (round : Round κ ν φ) : Prop := round.graph.Firm round.version

theorem Firm.rests (firm : round.Firm) : Grounded .plain round := firm.grounded

theorem Firm.begin (firm : before.Firm) (begun : Begun before roots after ready) : after.Firm :=
  ⟨firm.rests.begin begun,
    Subrelation.wf (fun supports => supports.of_fades (begun.fades _)) firm.founded⟩

theorem Firm.rollBack (firm : before.Firm) (inOrder : InOrder before ready) :
    before.rollBack.Firm :=
  ⟨firm.rests.rollBack inOrder,
    Subrelation.wf (fun supports => supports.of_fades (fades_rollBack inOrder _)) firm.founded⟩

variable [BEq ν] {registry : Registry κ ν φ} {halt : Halt}

/-- What a step computes rests on results that were there before it. -/
theorem Firm.step (firm : before.Firm) (sound : Sound registry before ready) (member : key ∈ ready)
    (found : (before.graph.nodeAt key).work = some work)
    (progress : Progress registry before key work effect)
    (moved : Moved before after key effect) : after.Firm := by
  have extended := moved.extends found
  have batch := sound.settled_of_batch member found
  have established := sound.establishes key work found
  have underway := sound.underway key
  refine ⟨firm.rests.step progress moved found underway established batch
    fun _ _ _ _ => trivial, ?_⟩
  refine wellFounded_of_fresh (fun other => before.isSettled other = true) firm.founded
    (fun {dependency other} settled supports => ?_) fun {dependency other} unsettled supports => ?_
  · obtain ⟨result, isResult, lasting, needed⟩ := supports
    have alike := extended other settled
    rw [alike.dependencies] at needed
    rw [alike.result?] at isResult
    have earlier : before.graph.Supports dependency other := ⟨result, isResult, lasting, needed⟩
    exact ⟨earlier, firm.settled earlier⟩
  · obtain ⟨result, isResult, lasting, needed⟩ := supports
    obtain rfl := moved.eq_of_settled (Node.isSettled_of_result? isResult)
      (eq_false_of_ne_true unsettled)
    rw [moved.self.dependencies] at needed
    rw [moved.self.result?] at isResult
    exact (progress.rests found underway established batch firm.rests (fun _ _ _ _ => trivial)
      isResult lasting).1 dependency needed

/-- Failures on cycles do not last, so nothing is asked of them. -/
theorem Firm.breakDeadlock (firm : before.Firm) (waiting : Waiting before []) (roots : List κ) :
    (before.breakDeadlock roots).1.Firm := by
  refine ⟨firm.rests.breakDeadlock waiting, Subrelation.wf (fun {dependency key} supports => ?_)
    firm.founded⟩
  cases unblocked_breakDeadlock waiting roots key with
  | failed path _ _ alike =>
      obtain ⟨result, isResult, lasting, _⟩ := supports
      rw [alike.result?, Node.commit_result?, Node.committed_error, Option.some.injEq] at isResult
      rw [← isResult] at lasting
      simp [isTransient, Failure.transience] at lasting
  | spared _ alike =>
      exact supports.of_fades ((Node.Fades.refl before.version _).alike alike)

theorem Ends.firm (ends : Ends registry roots round final halt) (unique : roots.Nodup)
    (rested : Rested round.graph) (firm : round.Firm) : final.Firm :=
  ends.invariant Firm unique rested (fun begun firm => firm.begin begun)
    (fun sound member found progress moved firm => firm.step sound member found progress moved)
    (fun sound firm => firm.breakDeadlock sound.waiting roots)
    (fun sound firm => firm.rollBack sound.toInOrder) firm

end Round

end MemoGraph
