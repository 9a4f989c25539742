import MemoGraph.Metadata.Basic

namespace MemoGraph.Metadata

/-- A call to the builder. Dependencies are metadata, or positions of metadata
built earlier. -/
inductive Call (α δ : Type) where
  | add (item : α)
  | addAll (items : List α)
  | propagate (dependency : δ)
  | direct (dependency : δ)

variable {α δ : Type}

namespace Call

def apply (builder : Builder α) : Call α (Metadata α) → Builder α
  | .add item => builder.add item
  | .addAll items => builder.addAll items
  | .propagate dependency => builder.addAndPropagate dependency
  | .direct dependency => builder.addDirectOnly dependency

/-- The call with the dependency that stands at its position, if it is built
already. -/
def resolve (earlier : List (Metadata α)) : Call α Nat → Option (Call α (Metadata α))
  | .add item => some (.add item)
  | .addAll items => some (.addAll items)
  | .propagate position => earlier[position]?.map .propagate
  | .direct position => earlier[position]?.map .direct

end Call

def compose (name : Option Nat) (calls : List (Call α (Metadata α))) : Metadata α :=
  (calls.foldl Call.apply {}).build name

/-- The values built by lists of calls, each of which can refer to the values
before it. The value at a position gets the name that belongs to the position. -/
def family (names : Nat → Nat) (recipes : List (List (Call α Nat))) : List (Metadata α) :=
  recipes.foldl (fun earlier calls =>
    earlier ++ [compose (some (names earlier.length)) (calls.filterMap (Call.resolve earlier))]) []

end MemoGraph.Metadata
