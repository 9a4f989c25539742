import Mathlib.Logic.Relation
import MemoGraph.Record

namespace MemoGraph.Record

/-! Records whose fields fit together.

Every operation assigns some of the fields, and two of them take the state from
the other fields. A record that is only written by these operations keeps its
fields in step.
-/

variable {κ ν φ : Type} {record taken before after : Record κ ν φ} {building : Building κ φ}

/-- The fields of the record fit the given state of a key that no round works on. -/
def Suits (record : Record κ ν φ) : State → Prop
  | .new => record.value = none ∧ record.failure = none ∧ record.dependencies = .empty ∧
      record.lastChanged = .initial ∧ record.lastEvaluated = .initial ∧ record.injected = false
  | .done => record.value.isSome = true ∧ record.failure = none
  | .error => record.failure.isSome = true ∧ record.value = none
  | .dirty | .changed => (record.value.isSome = true ∧ record.failure = none) ∨
      (record.failure.isSome = true ∧ record.value = none)
  | .evaluating => False

/-- The fields fit, and no round works on the key. -/
structure AtRest (record : Record κ ν φ) : Prop where
  free : record.building = none
  suits : record.Suits record.state

/-- A round works on the key as the building says, and the other fields fit the
state to return to. -/
structure Underway (record : Record κ ν φ) (building : Building κ φ) : Prop where
  evaluating : record.state = .evaluating
  found : record.building = some building
  prior : building.prior = .new ∨ building.prior = .dirty ∨ building.prior = .changed
  suits : record.Suits building.prior
  checks : building.work.phase.isChecking = true → building.prior = .dirty

/-- A round took the key up from the old record, and what was stored is still
there. -/
structure TakenFrom (record old : Record κ ν φ) (building : Building κ φ) : Prop where
  found : record.building = some building
  prior : building.prior = old.state
  value : record.value = old.value
  failure : record.failure = old.failure
  dependencies : record.dependencies = old.dependencies
  lastChanged : record.lastChanged = old.lastChanged
  lastEvaluated : record.lastEvaluated = old.lastEvaluated
  injected : record.injected = old.injected

def WellFormed (record : Record κ ν φ) : Prop :=
  record.AtRest ∨ ∃ building, record.Underway building

/-- One write to a record. Work only goes back to checking from checking, and
only what is being checked is accepted again. -/
inductive Write [BEq ν] : Record κ ν φ → Record κ ν φ → Prop
  | takeUp {record taken : Record κ ν φ} (found : record.takeUp? = some taken) :
      Write record taken
  | progress (record : Record κ ν φ) (change : Work κ φ → Work κ φ)
      (onward : ∀ building, record.building = some building →
        (change building.work).phase.isChecking = true → building.work.phase.isChecking = true) :
      Write record (record.updateWork change)
  | commit (record : Record κ ν φ) (version : Version) (result : Result κ ν φ)
      (dependencies : Grouping κ) : Write record (record.commit version result dependencies)
  | revalidate {record : Record κ ν φ} (version : Version) {building : Building κ φ}
      (found : record.building = some building)
      (checking : building.work.phase.isChecking = true) : Write record (record.revalidate version)
  | rollBack (record : Record κ ν φ) : Write record record.rollBack
  | inject (record : Record κ ν φ) (version : Version) (value : ν) :
      Write record (record.inject version value)
  | markChanged (record : Record κ ν φ) : Write record record.markChanged
  | markDirty (record : Record κ ν φ) : Write record record.markDirty
  | relist (record : Record κ ν φ) (dependents : List κ) : Write record { record with dependents }
  | forget (record : Record κ ν φ) : Write record {}

/-- Any number of writes. -/
abbrev Writes [BEq ν] : Record κ ν φ → Record κ ν φ → Prop := Relation.ReflTransGen Write

/-- What can become of a new record. -/
def Written [BEq ν] (record : Record κ ν φ) : Prop := Writes {} record

theorem AtRest.blank : ({} : Record κ ν φ).AtRest := ⟨rfl, rfl, rfl, rfl, rfl, rfl, rfl⟩

theorem AtRest.not_evaluating (rest : record.AtRest) : record.state ≠ .evaluating := by
  intro evaluating
  have suits := rest.suits
  rw [evaluating] at suits
  exact suits

theorem AtRest.suits_of {state : State} (rest : record.AtRest) (is : record.state = state) :
    record.Suits state := by
  rw [← is]
  exact rest.suits

theorem WellFormed.atRest (wellFormed : record.WellFormed) (other : record.state ≠ .evaluating) :
    record.AtRest := by
  rcases wellFormed with rest | ⟨building, underway⟩
  · exact rest
  · exact absurd underway.evaluating other

theorem WellFormed.underway (wellFormed : record.WellFormed)
    (found : record.building = some building) : record.Underway building := by
  rcases wellFormed with rest | ⟨given, underway⟩
  · rw [rest.free] at found
    cases found
  · have same : given = building := Option.some.inj (underway.found.symm.trans found)
    exact same ▸ underway

theorem firstPhase?_eq_some {state : State} {phase : Phase}
    (first : firstPhase? state = some phase) :
    (state = .dirty ∧ phase.isChecking = true) ∨
      ((state = .new ∨ state = .changed) ∧ phase.isChecking = false) := by
  cases state <;> cases first
  case dirty => exact .inl ⟨rfl, rfl⟩
  case new => exact .inr ⟨.inl rfl, rfl⟩
  case changed => exact .inr ⟨.inr rfl, rfl⟩

theorem WellFormed.takeUp (wellFormed : record.WellFormed)
    (found : record.takeUp? = some taken) : taken.WellFormed := by
  obtain ⟨phase, first, rfl⟩ := Option.map_eq_some_iff.mp found
  have begun := firstPhase?_eq_some first
  have rest : record.AtRest := by
    refine wellFormed.atRest fun evaluating => ?_
    rw [evaluating] at first
    cases first
  refine .inr ⟨⟨record.state, { phase }⟩, rfl, rfl, ?prior, rest.suits, fun checking => ?checks⟩
  case prior =>
    rcases begun with ⟨dirty, _⟩ | ⟨new | changed, _⟩
    · exact .inr (.inl dirty)
    · exact .inl new
    · exact .inr (.inr changed)
  case checks =>
    rcases begun with ⟨dirty, _⟩ | ⟨_, computing⟩
    · exact dirty
    · exact absurd checking (ne_true_of_eq_false computing)

theorem WellFormed.progress (wellFormed : record.WellFormed) {change : Work κ φ → Work κ φ}
    (onward : ∀ building, record.building = some building →
      (change building.work).phase.isChecking = true → building.work.phase.isChecking = true) :
    (record.updateWork change).WellFormed := by
  rcases wellFormed with rest | ⟨building, underway⟩
  · refine .inl ⟨?_, rest.suits⟩
    rw [updateWork, rest.free]
    rfl
  · refine .inr ⟨{ building with work := change building.work }, underway.evaluating, ?_,
      underway.prior, underway.suits, fun checking => ?_⟩
    · rw [updateWork, underway.found]
      rfl
    · exact underway.checks (onward building underway.found checking)

theorem exists_value_of_holds [BEq ν] {value : ν} (held : record.holds value = true) :
    ∃ old, record.value = some old ∧ (old == value) = true := by
  unfold holds at held
  cases stored : record.value with
  | none => simp [stored] at held
  | some old =>
      rw [stored] at held
      exact ⟨old, rfl, held⟩

theorem atRest_commit [BEq ν] (record : Record κ ν φ) (version : Version) (result : Result κ ν φ)
    (dependencies : Grouping κ) : (record.commit version result dependencies).AtRest := by
  cases result with
  | error failure => exact ⟨rfl, rfl, rfl⟩
  | ok value =>
      refine ⟨rfl, ?_, rfl⟩
      cases unchanged : record.failure.isNone && record.holds value with
      | false => simp [commit, unchanged]
      | true =>
          obtain ⟨_, held⟩ := Bool.and_eq_true_iff.mp unchanged
          obtain ⟨old, stored, _⟩ := exists_value_of_holds held
          simp [commit, unchanged, stored]

/-- What is dirty has one result, and the failure tells which. -/
theorem Underway.revalidate (underway : record.Underway building)
    (checking : building.work.phase.isChecking = true) (version : Version) :
    (record.revalidate version).AtRest ∧
      (((record.revalidate version).state = .done ∧ record.value.isSome = true) ∨
        ((record.revalidate version).state = .error ∧ record.failure.isSome = true)) := by
  have suits := underway.suits
  rw [underway.checks checking] at suits
  rcases suits with ⟨value, noFailure⟩ | ⟨failure, noValue⟩
  · have done : (record.revalidate version).state = .done := by
      rw [Record.revalidate, noFailure]
      rfl
    exact ⟨⟨rfl, by rw [done]; exact ⟨value, noFailure⟩⟩, .inl ⟨done, value⟩⟩
  · have failed : (record.revalidate version).state = .error := by
      rw [Record.revalidate, failure]
      rfl
    exact ⟨⟨rfl, by rw [failed]; exact ⟨failure, noValue⟩⟩, .inr ⟨failed, failure⟩⟩

theorem AtRest.rollBack (rest : record.AtRest) : record.rollBack = record := by
  unfold Record.rollBack
  rw [rest.free]
  split
  · rename_i noBuilding
    cases noBuilding
  · rfl

theorem Underway.rollBack (underway : record.Underway building) :
    record.rollBack = { record with state := building.prior, building := none } := by
  unfold Record.rollBack
  rw [underway.evaluating, underway.found]

theorem WellFormed.rollBack (wellFormed : record.WellFormed) : record.rollBack.AtRest := by
  rcases wellFormed with rest | ⟨building, underway⟩
  · rw [rest.rollBack]
    exact rest
  · rw [underway.rollBack]
    exact ⟨rfl, underway.suits⟩

theorem WellFormed.inject [BEq ν] (wellFormed : record.WellFormed) (version : Version)
    (value : ν) : (record.inject version value).AtRest := by
  unfold Record.inject
  split
  · rename_i equal
    have done : record.state = .done := of_decide_eq_true (Bool.and_eq_true_iff.mp equal).1
    have rest := wellFormed.atRest (by simp [done])
    have suits : record.Suits .done := rest.suits_of done
    refine ⟨rest.free, ?_⟩
    rw [done]
    exact suits
  · exact ⟨rfl, rfl, rfl⟩

theorem WellFormed.markChanged (wellFormed : record.WellFormed) : record.markChanged.WellFormed := by
  unfold Record.markChanged
  split
  · exact wellFormed
  · cases state : record.state with
    | new | changed | evaluating => exact wellFormed
    | done =>
        have rest := wellFormed.atRest (by simp [state])
        exact .inl ⟨rest.free, .inl (rest.suits_of state)⟩
    | error =>
        have rest := wellFormed.atRest (by simp [state])
        exact .inl ⟨rest.free, .inr (rest.suits_of state)⟩
    | dirty =>
        have rest := wellFormed.atRest (by simp [state])
        have suits : record.Suits .dirty := rest.suits_of state
        exact .inl ⟨rest.free, suits⟩

theorem WellFormed.markDirty (wellFormed : record.WellFormed) : record.markDirty.WellFormed := by
  unfold Record.markDirty
  split
  · rename_i settled
    cases state : record.state with
    | new | changed | evaluating | dirty => simp [state, State.isSettled] at settled
    | done =>
        have rest := wellFormed.atRest (by simp [state])
        exact .inl ⟨rest.free, .inl (rest.suits_of state)⟩
    | error =>
        have rest := wellFormed.atRest (by simp [state])
        exact .inl ⟨rest.free, .inr (rest.suits_of state)⟩
  · exact wellFormed

theorem WellFormed.relist (wellFormed : record.WellFormed) (dependents : List κ) :
    ({ record with dependents } : Record κ ν φ).WellFormed :=
  wellFormed.imp (fun rest => ⟨rest.free, rest.suits⟩) fun ⟨building, underway⟩ =>
    ⟨building, underway.evaluating, underway.found, underway.prior, underway.suits, underway.checks⟩

theorem WellFormed.write [BEq ν] (wellFormed : before.WellFormed) (write : Write before after) :
    after.WellFormed := by
  cases write with
  | takeUp found => exact wellFormed.takeUp found
  | progress change onward => exact wellFormed.progress onward
  | commit version result dependencies => exact .inl (before.atRest_commit version result dependencies)
  | revalidate version found checking =>
      exact .inl ((wellFormed.underway found).revalidate checking version).1
  | rollBack => exact .inl wellFormed.rollBack
  | inject version value => exact .inl (wellFormed.inject version value)
  | markChanged => exact wellFormed.markChanged
  | markDirty => exact wellFormed.markDirty
  | relist dependents => exact wellFormed.relist dependents
  | forget => exact .inl .blank

/-- Whatever is written to a new record one operation after another, its fields
fit together. -/
theorem Written.wellFormed [BEq ν] (written : record.Written) : record.WellFormed := by
  induction written with
  | refl => exact .inl .blank
  | tail _ write ih => exact ih.write write

/-- Throwing the work away restores the old record, whoever depends on the key
now. -/
theorem Underway.rollBack_eq {old : Record κ ν φ} (underway : record.Underway building)
    (taken : record.TakenFrom old building) (free : old.building = none) :
    record.rollBack = { old with dependents := record.dependents } := by
  rw [underway.rollBack, taken.prior, taken.value, taken.failure, taken.dependencies,
    taken.lastChanged, taken.lastEvaluated, taken.injected, ← free]

/-- Only a key without a valid result is looked up in vain. -/
theorem WellFormed.lookup?_eq_none_iff (wellFormed : record.WellFormed) :
    record.lookup? = none ↔ record.state.isSettled = false := by
  unfold lookup?
  rcases wellFormed with ⟨_, suits⟩ | ⟨building, underway⟩
  · cases state : record.state <;> rw [state] at suits
    case done =>
      obtain ⟨value, found⟩ := Option.isSome_iff_exists.mp suits.1
      simp [found, State.isSettled]
    case error =>
      obtain ⟨failure, found⟩ := Option.isSome_iff_exists.mp suits.1
      simp [found, State.isSettled]
    all_goals simp [State.isSettled]
  · simp [underway.evaluating, State.isSettled]

end MemoGraph.Record
