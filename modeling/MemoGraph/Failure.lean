import MemoGraph.Fault

namespace MemoGraph

/-! Why a key has no value.

A failure is a chain: the key failed because a dependency failed, which failed
because of another one, down to a root that is a fault or a dependency cycle.
-/

inductive Failure (κ φ : Type) where
  /-- The function of the key failed. -/
  | input (key : κ) (fault : Fault φ)
  /-- A dependency failed and the function did not handle it. -/
  | dependency (key dependency : κ) (cause : Failure κ φ)
  /-- The key waits for itself along the given keys, of which it is the first. -/
  | cycle (key : κ) (path : List κ)
  /-- The evaluator failed around the key. -/
  | infrastructure (key : κ) (fault : Fault φ)
deriving DecidableEq, Repr

/-- What became of a key. -/
abbrev Result (κ ν φ : Type) := Except (Failure κ φ) ν

namespace Failure

variable {κ φ : Type}

def key : Failure κ φ → κ
  | .input key _ | .dependency key _ _ | .cycle key _ | .infrastructure key _ => key

/-- The failure at the end of the chain, which no dependency explains. -/
def root : Failure κ φ → Failure κ φ
  | .dependency _ _ cause => cause.root
  | failure => failure

/-- The keys from this failure down to its root, both included. -/
def chain : Failure κ φ → List κ
  | .dependency key _ cause => key :: cause.chain
  | failure => [failure.key]

/-- A failure is as transient as its root, and a cycle may be gone in the next
round. -/
def transience : Failure κ φ → Transience
  | .input _ fault | .infrastructure _ fault => fault.transience
  | .dependency _ _ cause => cause.transience
  | .cycle _ _ => .transient

/-- The fault at the root, unless the root is a cycle. -/
def fault? : Failure κ φ → Option (Fault φ)
  | .input _ fault | .infrastructure _ fault => some fault
  | .dependency _ _ cause => cause.fault?
  | .cycle _ _ => none

/-- The error that the function at the root raised, if one raised it. -/
def error? (failure : Failure κ φ) : Option φ :=
  failure.fault?.bind Fault.error?

/-- The cycle at the root, if the root is one. -/
def cycle? : Failure κ φ → Option (List κ)
  | .cycle _ path => some path
  | .dependency _ _ cause => cause.cycle?
  | .input _ _ | .infrastructure _ _ => none

def isCycle (failure : Failure κ φ) : Bool := failure.cycle?.isSome

/-- The failure of a function with the given fault. -/
def ofFault (key : κ) (fault : Fault φ) : Failure κ φ :=
  if fault.infrastructure then .infrastructure key fault else .input key fault

/-- A cycle in words, from its first key back to it. -/
def cycleMessage (showKey : κ → String) (path : List κ) : String :=
  "dependency cycle detected: "
    ++ String.join (path.map fun key => showKey key ++ " -> ")
    ++ (path.head?.map showKey).getD "?"

def message (showKey : κ → String) (describe : φ → String) : Failure κ φ → String
  | .input key fault => showKey key ++ ": " ++ fault.message describe
  | .dependency key blamed _ =>
      showKey key ++ ": dependency " ++ showKey blamed ++ " failed"
  | .cycle key path => showKey key ++ ": " ++ cycleMessage showKey path
  | .infrastructure key fault =>
      showKey key ++ ": infrastructure failure: " ++ fault.message describe

theorem transience_root (failure : Failure κ φ) :
    failure.root.transience = failure.transience := by
  induction failure with
  | dependency _ _ _ ih => exact ih
  | _ => rfl

theorem head?_chain (failure : Failure κ φ) : failure.chain.head? = some failure.key := by
  cases failure <;> rfl

theorem getLast?_chain (failure : Failure κ φ) :
    failure.chain.getLast? = some failure.root.key := by
  induction failure with
  | dependency key _ cause ih =>
      simp only [chain, List.getLast?_cons, ih, root, Option.getD_some]
  | _ => rfl

end Failure

end MemoGraph
