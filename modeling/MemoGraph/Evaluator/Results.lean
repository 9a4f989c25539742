import MemoGraph.Failure

namespace MemoGraph

structure Results (κ ν φ : Type) where
  entries : List (κ × Result κ ν φ)

namespace Results

variable {κ ν φ : Type}

def size (results : Results κ ν φ) : Nat := results.entries.length

def isEmpty (results : Results κ ν φ) : Bool := results.entries.isEmpty

def hasFailure (results : Results κ ν φ) : Bool :=
  results.entries.any fun (_, result) => result matches .error _

def values (results : Results κ ν φ) : List (κ × ν) :=
  results.entries.filterMap fun (key, result) => result.toOption.map (key, ·)

def failures (results : Results κ ν φ) : List (κ × Failure κ φ) :=
  results.entries.filterMap fun
    | (key, .error failure) => some (key, failure)
    | (_, .ok _) => none

/-- The roots that failed because of a cycle. -/
def cycles (results : Results κ ν φ) : List (κ × List κ) :=
  results.failures.filterMap fun (key, failure) => failure.cycle?.map (key, ·)

variable [DecidableEq κ]

/-- The result of a key, if it was a root. -/
def get? (results : Results κ ν φ) (key : κ) : Option (Result κ ν φ) :=
  results.entries.lookup key

def value? (results : Results κ ν φ) (key : κ) : Option ν :=
  (results.get? key).bind Except.toOption

def failure? (results : Results κ ν φ) (key : κ) : Option (Failure κ φ) :=
  match results.get? key with
  | some (.error failure) => some failure
  | _ => none

end Results

end MemoGraph
