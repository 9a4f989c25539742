namespace MemoGraph

inductive Reason where
  /-- The data behind the key changed outside the graph. -/
  | manual
  /-- The value of the key was set from outside. -/
  | injected
  /-- The key failed transiently in an earlier round. -/
  | transientRetry
  /-- Something that the key depends on stopped being valid. -/
  | dependencyInvalidated
deriving DecidableEq, Repr

structure Invalidation (κ : Type) where
  key : κ
  /-- The key whose own invalidation is behind this one. -/
  source : κ
  reason : Reason
deriving DecidableEq, Repr

/-- A key that is invalid because of itself. -/
def Invalidation.ofSource {κ : Type} (key : κ) (reason : Reason) : Invalidation κ :=
  ⟨key, key, reason⟩

end MemoGraph
