namespace MemoGraph

/-- How an evaluator runs functions. -/
structure Settings where
  /-- How many functions may run at once; as many as the machine allows if it
  is not given. -/
  parallelism : Option Nat := none
  /-- What the names of worker threads begin with. -/
  threadName : String := "evalgraph-worker"
deriving DecidableEq, Repr

namespace Settings

/-- At least one function runs at a time. -/
def withParallelism (settings : Settings) (parallelism : Nat) : Settings :=
  { settings with parallelism := some (max parallelism 1) }

def withThreadName (settings : Settings) (threadName : String) : Settings :=
  { settings with threadName }

def sequential : Settings := ({} : Settings).withParallelism 1

def isSequential (settings : Settings) : Bool := settings = sequential

def workerName (settings : Settings) (index : Nat) : String :=
  settings.threadName ++ "-" ++ toString index

/-- The name of the worker that runs all functions, if there is only one. -/
def onlyWorker? (settings : Settings) : Option String :=
  match settings.parallelism with
  | some parallelism => if parallelism ≤ 1 then some (settings.workerName 0) else none
  | none => none

end Settings

end MemoGraph
