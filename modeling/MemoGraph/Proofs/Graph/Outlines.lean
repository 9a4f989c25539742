import MemoGraph.Proofs.Graph.View

namespace MemoGraph

variable {κ ν φ : Type}

/-- The work without those who wait for it. -/
def Work.outline (work : Work κ φ) : Work κ φ :=
  { work with pending := 0, waiters := [], attempts := 0 }

namespace Node

variable {node other : Node κ ν φ}

/-- The node without those who need it. -/
def outline (node : Node κ ν φ) : Node κ ν φ :=
  { node with dependents := [], work := node.work.map Work.outline }

/-- The nodes differ at most in who needs them. -/
def Alike (node other : Node κ ν φ) : Prop := node.outline = other.outline

theorem Alike.refl (node : Node κ ν φ) : Alike node node := rfl

theorem Alike.symm (alike : Alike node other) : Alike other node := Eq.symm alike

theorem Alike.trans {third : Node κ ν φ} (left : Alike node other) (right : Alike other third) :
    Alike node third := Eq.trans left right

section Alike

variable (alike : Alike node other)
include alike

theorem Alike.memo : node.memo = other.memo := by
  have same := congrArg Node.memo alike
  exact same

theorem Alike.dependencies : node.dependencies = other.dependencies := by
  have same := congrArg Node.dependencies alike
  exact same

theorem Alike.lastChanged : node.lastChanged = other.lastChanged := by
  have same := congrArg Node.lastChanged alike
  exact same

theorem Alike.lastEvaluated : node.lastEvaluated = other.lastEvaluated := by
  have same := congrArg Node.lastEvaluated alike
  exact same

theorem Alike.injected : node.injected = other.injected := by
  have same := congrArg Node.injected alike
  exact same

theorem Alike.work : node.work.map Work.outline = other.work.map Work.outline := by
  have same := congrArg Node.work alike
  exact same

theorem Alike.work_isSome : node.work.isSome = other.work.isSome := by
  have same := congrArg Option.isSome alike.work
  simpa using same

theorem Alike.work_none : node.work = none ↔ other.work = none := by
  rw [← Option.isNone_iff_eq_none, ← Option.isNone_iff_eq_none, ← Option.not_isSome,
    ← Option.not_isSome, alike.work_isSome]

theorem Alike.result? : node.result? = other.result? := by
  unfold Node.result?
  rw [alike.memo]
  have free := alike.work_isSome
  cases found : node.work <;> cases foundOther : other.work <;> simp [found, foundOther] at free
  all_goals rfl

theorem Alike.isSettled : node.isSettled = other.isSettled := by
  rw [Node.isSettled, alike.result?, Node.isSettled]

theorem Alike.isIdle : node.isIdle = other.isIdle := by
  rw [Bool.eq_iff_iff, isIdle_iff, isIdle_iff, alike.result?, alike.work_none]

theorem Alike.work_some {work : Work κ φ} (found : node.work = some work) :
    ∃ same, other.work = some same ∧ same.phase = work.phase ∧ same.batch = work.batch ∧
      same.requested = work.requested ∧ same.handlers = work.handlers := by
  have outlines := alike.work
  rw [found, Option.map_some] at outlines
  obtain ⟨same, isWork, equal⟩ := Option.map_eq_some_iff.mp outlines.symm
  exact ⟨same, isWork, (Work.mk.inj equal).1, (Work.mk.inj equal).2.2.1,
    (Work.mk.inj equal).2.2.2.1, (Work.mk.inj equal).2.2.2.2.1⟩

end Alike

theorem Alike.of_fields (memo : node.memo = other.memo)
    (dependencies : node.dependencies = other.dependencies)
    (lastChanged : node.lastChanged = other.lastChanged)
    (lastEvaluated : node.lastEvaluated = other.lastEvaluated)
    (injected : node.injected = other.injected)
    (work : node.work.map Work.outline = other.work.map Work.outline) : Alike node other := by
  unfold Alike outline
  rw [memo, dependencies, lastChanged, lastEvaluated, injected, work]

theorem alike_updateWork {first second : Work κ φ → Work κ φ}
    (same : ∀ work, (first work).outline = (second work).outline) :
    Alike (node.updateWork first) (node.updateWork second) := by
  refine .of_fields rfl rfl rfl rfl rfl ?_
  rw [updateWork_work, updateWork_work, Option.map_map, Option.map_map]
  exact Option.map_congr fun work _ => same work

theorem alike_of_updateWork {change : Work κ φ → Work κ φ}
    (same : ∀ work, (change work).outline = work.outline) :
    Alike (node.updateWork change) node := by
  have alike : Alike (node.updateWork change) (node.updateWork id) := alike_updateWork same
  rwa [updateWork_id] at alike

variable [DecidableEq κ]

theorem alike_relinked (dependent : κ) (needed needs : Bool) :
    Alike (node.relinked dependent needed needs) node := rfl

end Node

end MemoGraph
