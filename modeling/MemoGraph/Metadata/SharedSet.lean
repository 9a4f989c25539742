import MemoGraph.Distinct

namespace MemoGraph

/-! Ordered sets that are built from earlier sets without copying them.

A set lists items of its own and sets nested in it. The same set may be nested
in many others; a name tells that it is the same. Flattening expands a named set
only where it is met first, which changes nothing, since all of its items are
listed by then.
-/

inductive SharedSet (α : Type) where
  /-- A set with its name, if it has one, its own items and the sets nested in
  it. Sets with the same name are the same. -/
  | node (name : Option Nat) (own : List α) (nested : List (SharedSet α))

namespace SharedSet

variable {α : Type}

def empty : SharedSet α := .node none [] []

instance : Inhabited (SharedSet α) := ⟨empty⟩

mutual

/-- Whether neither the set nor one nested in it has an item. -/
def isEmpty : SharedSet α → Bool
  | .node _ own nested => own.isEmpty && allEmpty nested

def allEmpty : List (SharedSet α) → Bool
  | [] => true
  | set :: sets => set.isEmpty && allEmpty sets

end

/-- How far a set has been flattened. -/
structure Flattening (α : Type) where
  /-- The names of the sets that were met. -/
  met : List Nat := []
  items : List α := []

/-- Meet a set, and say whether it still has to be expanded. -/
def Flattening.meet (flattening : Flattening α) : Option Nat → Flattening α × Bool
  | none => (flattening, true)
  | some name =>
      if name ∈ flattening.met then (flattening, false)
      else ({ flattening with met := name :: flattening.met }, true)

variable [DecidableEq α]

def Flattening.append (flattening : Flattening α) (items : List α) : Flattening α :=
  { flattening with items := flattening.items ++ additions flattening.items items }

mutual

/-- Append the items of a set: those of the nested sets in order, then its own. -/
def expand (flattening : Flattening α) : SharedSet α → Flattening α
  | .node name own nested =>
      match flattening.meet name with
      | (flattening, true) => (expandAll flattening nested).append own
      | (flattening, false) => flattening

def expandAll (flattening : Flattening α) : List (SharedSet α) → Flattening α
  | [] => flattening
  | set :: sets => expandAll (expand flattening set) sets

end

/-- The items of the set, each at its first occurrence. -/
def toList (set : SharedSet α) : List α := (expand {} set).items

/-- Sets are equal if they list the same items in the same order, however they
are nested. -/
instance : BEq (SharedSet α) := ⟨fun left right => left.toList == right.toList⟩

def describe (showItem : α → String) (set : SharedSet α) : String :=
  "\x7b" ++ ", ".intercalate (set.toList.map showItem) ++ "\x7d"

end SharedSet

end MemoGraph
