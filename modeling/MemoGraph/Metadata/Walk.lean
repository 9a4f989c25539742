import MemoGraph.Metadata.Basic

namespace MemoGraph.SharedSet

/-! Flattening without recursion.

The sets that are being expanded lie on a stack, each with the position of the
nested set to look at next. A set is met when it is put on the stack, not when
its items are listed.
-/

variable {α : Type}

def name : SharedSet α → Option Nat
  | .node name _ _ => name

def own : SharedSet α → List α
  | .node _ own _ => own

def nested : SharedSet α → List (SharedSet α)
  | .node _ _ nested => nested

/-- Whether two sets are the same one. Nothing is known of sets without a name. -/
def same (left right : SharedSet α) : Bool :=
  left.name.isSome && left.name == right.name

mutual

/-- How many steps it takes to list a set of which nothing was met before. -/
def steps : SharedSet α → Nat
  | .node _ _ nested => stepsAll nested + 1

def stepsAll : List (SharedSet α) → Nat
  | [] => 0
  | set :: sets => set.steps + 1 + stepsAll sets

end

theorem steps_eq (set : SharedSet α) : set.steps = stepsAll set.nested + 1 := by
  cases set
  rfl

theorem stepsAll_drop {sets : List (SharedSet α)} {position : Nat} {set : SharedSet α}
    (found : sets[position]? = some set) :
    stepsAll (sets.drop position) = set.steps + 1 + stepsAll (sets.drop (position + 1)) := by
  obtain ⟨bound, rfl⟩ := List.getElem?_eq_some_iff.mp found
  rw [List.drop_eq_getElem_cons bound]
  rfl

structure Walk (α : Type) where
  /-- The sets being expanded, the innermost first. -/
  stack : List (SharedSet α × Nat)
  flattening : Flattening α

namespace Walk

def start (set : SharedSet α) : Walk α :=
  { stack := [(set, 0)], flattening := (Flattening.meet {} set.name).1 }

def remaining (walk : Walk α) : Nat :=
  walk.stack.foldr (fun (set, position) rest => stepsAll (set.nested.drop position) + 1 + rest) 0

variable [DecidableEq α]

/-- Look at the next nested set of the innermost set, or list its own items if
there is none left. -/
def step (walk : Walk α) : Option (Walk α) :=
  match walk.stack with
  | [] => none
  | (set, position) :: outer =>
      match set.nested[position]? with
      | none => some ⟨outer, walk.flattening.append set.own⟩
      | some next =>
          match walk.flattening.meet next.name with
          | (flattening, true) => some ⟨(next, 0) :: (set, position + 1) :: outer, flattening⟩
          | (flattening, false) => some ⟨(set, position + 1) :: outer, flattening⟩

theorem remaining_step {walk next : Walk α} (stepped : walk.step = some next) :
    next.remaining < walk.remaining := by
  obtain ⟨stack, flattening⟩ := walk
  cases stack with
  | nil => cases stepped
  | cons frame outer =>
      obtain ⟨set, position⟩ := frame
      simp only [step] at stepped
      split at stepped
      · cases stepped
        simp only [remaining, List.foldr_cons]
        omega
      · rename_i inner found
        have look := stepsAll_drop found
        have enter := inner.steps_eq
        split at stepped <;> cases stepped <;>
          simp only [remaining, List.foldr_cons, List.drop_zero] <;>
          omega

def finish (walk : Walk α) : Flattening α :=
  match _stepped : walk.step with
  | none => walk.flattening
  | some next => finish next
termination_by walk.remaining
decreasing_by exact remaining_step _stepped

end Walk

variable [DecidableEq α]

/-- The items of the set as the walk lists them. -/
def walked (set : SharedSet α) : List α := (Walk.start set).finish.items

/-- Compare two sets, which takes a walk through each unless they are the same
one. -/
def agrees (left right : SharedSet α) : Bool :=
  left.same right || left.walked == right.walked

end MemoGraph.SharedSet

namespace MemoGraph.Metadata

variable {α : Type} [DecidableEq α]

def agrees (left right : Metadata α) : Bool :=
  left.propagated.agrees right.propagated && left.directOnly.agrees right.directOnly

end MemoGraph.Metadata
