namespace MemoGraph

inductive Severity where
  | info
  | progress
  | warning
  | error
deriving DecidableEq, Repr

structure Event (κ : Type) where
  severity : Severity
  /-- The key whose function reported the event. -/
  key : κ
  message : String
deriving DecidableEq, Repr

/-- A listener that keeps every event in the order of arrival. -/
structure EventStore (κ : Type) where
  events : Array (Event κ) := #[]

namespace EventStore

variable {κ : Type}

def handle (store : EventStore κ) (event : Event κ) : EventStore κ :=
  ⟨store.events.push event⟩

/-- Everything received since the store was last emptied, and the empty store. -/
def take (store : EventStore κ) : Array (Event κ) × EventStore κ :=
  (store.events, ⟨#[]⟩)

def size (store : EventStore κ) : Nat := store.events.size

def isEmpty (store : EventStore κ) : Bool := store.events.isEmpty

end EventStore

end MemoGraph
