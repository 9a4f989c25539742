import MemoGraph.Metadata.SharedSet

namespace MemoGraph

structure Metadata (α : Type) where
  propagated : SharedSet α
  directOnly : SharedSet α

namespace Metadata

variable {α : Type}

def empty : Metadata α := ⟨.empty, .empty⟩

def isEmpty (metadata : Metadata α) : Bool :=
  metadata.propagated.isEmpty && metadata.directOnly.isEmpty

/-- Metadata that is being put together. -/
structure Builder (α : Type) where
  own : List α := []
  propagated : List (SharedSet α) := []
  directOnly : List (SharedSet α) := []

namespace Builder

/-- Add an item of the value's own, which is propagated. -/
def add (builder : Builder α) (item : α) : Builder α :=
  { builder with own := builder.own ++ [item] }

def addAll (builder : Builder α) (items : List α) : Builder α :=
  { builder with own := builder.own ++ items }

/-- Add what a dependency propagates, and pass it on. -/
def addAndPropagate (builder : Builder α) (dependency : Metadata α) : Builder α :=
  if dependency.propagated.isEmpty then builder
  else { builder with propagated := builder.propagated ++ [dependency.propagated] }

/-- Add what a dependency propagates for this value only. -/
def addDirectOnly (builder : Builder α) (dependency : Metadata α) : Builder α :=
  if dependency.propagated.isEmpty then builder
  else { builder with directOnly := builder.directOnly ++ [dependency.propagated] }

/-- The finished metadata. Only the propagated part can be nested in other sets,
so it takes the name, if there is one. -/
def build (builder : Builder α) (name : Option Nat) : Metadata α :=
  { propagated := .node name builder.own builder.propagated
    directOnly := .node none [] builder.directOnly }

end Builder

variable [DecidableEq α]

/-- Every item visible at the value: the propagated ones first. -/
def items (metadata : Metadata α) : List α :=
  distinct (metadata.propagated.toList ++ metadata.directOnly.toList)

instance : BEq (Metadata α) :=
  ⟨fun left right =>
    left.propagated == right.propagated && left.directOnly == right.directOnly⟩

def describe (showItem : α → String) (metadata : Metadata α) : String :=
  "Metadata \x7b propagated: " ++ metadata.propagated.describe showItem
    ++ ", direct_only: " ++ metadata.directOnly.describe showItem ++ " \x7d"

end Metadata

end MemoGraph
