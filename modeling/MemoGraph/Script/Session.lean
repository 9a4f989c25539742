import MemoGraph.Evaluator.Evaluate
import MemoGraph.Graph.Consistency
import MemoGraph.Script.Program

namespace MemoGraph.Script

abbrev ScriptEvaluator := Evaluator String Value UserError

/-- Keys are of one kind if they begin with the same character. -/
def kindOf (key : String) : Option Char := key.toList.head?

def kindName (key : String) : String :=
  match kindOf key with
  | some first => String.singleton first
  | none => "<none>"

structure Session where
  evaluator : ScriptEvaluator
  /-- The function of each kind of keys. -/
  functions : List (Option Char × Program)
  /-- Programs of single keys, which go before the function of their kind. -/
  programs : Std.TreeMap String Program
  /-- Whether anyone observes the evaluator and listens to its events. -/
  observed : Bool
  /-- The events delivered since they were last looked at. -/
  events : EventStore String := {}

namespace Session

/-- More steps than any evaluation that ends takes. -/
def stepBound : Nat := 1 <<< 60

/-- A session for functions given with an example of the keys that they compute;
of several for one kind the last counts. -/
def start (settings : Settings) (functions : List (String × Program))
    (programs : List (String × Program)) (injections : List (String × Value))
    (observed : Bool) : Session :=
  { evaluator := .build settings injections
    functions := (functions.map fun (key, program) => (kindOf key, program)).reverse
    programs := .ofList programs
    observed }

def registry (session : Session) : Registry String Value UserError :=
  { kindName
    function? := fun key => (session.functions.lookup (kindOf key)).map fun function run =>
      Program.computation { key, worker := session.evaluator.settings.workerName 0, run }
        (session.programs.getD key function) }

/-- What can be done with a session. -/
inductive Step where
  | define (key : String) (program : Option Program)
  /-- Evaluate the roots, and look up the results of the keys to probe. -/
  | evaluate (roots : List String) (probe : Option (List String))
  | invalidate (keys : List String)
  | inject (key : String) (value : Value)
  | prune (keep : List String)
  | interrupt
  | query (keys : List String)
  | edges (keys on : List String)
  | events

/-- Whether a key has a node, how many dependencies it has in how many groups,
and which of the given keys are among them. -/
structure Edges where
  contained : Bool
  counts : Option (Nat × Nat)
  found : List Bool

inductive Reply where
  | nothing
  | stopped (stop : Evaluator.Stop)
  | evaluated (results : Results String Value UserError) (probe : Option (List String))
  | invalidated (records : List (Invalidation String))
  | pruned (count : Nat)
  | nodes (keys : List String)
  | edges (edges : List Edges)
  | events (events : List (Event String))

def edgesOf (graph : Graph String Value UserError) (on : List String) (key : String) : Edges :=
  { contained := graph.contains key
    counts := (graph.node? key).map fun node =>
      (node.dependencies.size, node.dependencies.groupCount)
    found := on.map fun dependency => dependency ∈ graph.dependencies key }

def step (session : Session) : Step → Session × Reply
  | .define key (some program) =>
      ({ session with programs := session.programs.insert key program }, .nothing)
  | .define key none => ({ session with programs := session.programs.erase key }, .nothing)
  | .evaluate roots probe =>
      let (evaluator, answer) := session.evaluator.evaluate session.registry stepBound roots
      ({ session with evaluator },
        match answer with
        | .ok results => .evaluated results probe
        | .error stop => .stopped stop)
  | .invalidate keys =>
      let (evaluator, records) := session.evaluator.invalidate keys
      ({ session with evaluator }, .invalidated records)
  | .inject key value =>
      let (evaluator, records) := session.evaluator.inject key value
      ({ session with evaluator }, .invalidated records)
  | .prune keep =>
      let (evaluator, count) := session.evaluator.prune keep
      ({ session with evaluator }, .pruned count)
  | .interrupt => ({ session with evaluator := session.evaluator.interrupt }, .nothing)
  | .query keys => (session, .nodes keys)
  | .edges keys on => (session, .edges (keys.map (edgesOf session.evaluator.graph on)))
  | .events =>
      let (events, store) := session.events.take
      ({ session with events := store }, .events events.toList)

/-- What the observer was told since this was last asked. -/
def takeLog (session : Session) : Session × List (Signal String UserError) :=
  let signals := if session.observed then session.evaluator.log.toList else []
  ({ session with
    evaluator := session.evaluator.clearLog
    events := (signals.filterMap Signal.event?).foldl EventStore.handle session.events }, signals)

end Session

/-- Every maximal run of items that stand in no order of their own, sorted; the
run up to the first item is given. -/
def sortRuns {α : Type} (inRun : α → Bool) (before : α → α → Bool) : List α → List α → List α
  | run, [] => run.mergeSort before
  | run, item :: items =>
      if inRun item then sortRuns inRun before (item :: run) items
      else run.mergeSort before ++ item :: sortRuns inRun before [] items

/-- The records with the dependents of each invalidated key in the order of
their keys. -/
def sortInvalidations (records : List (Invalidation String)) : List (Invalidation String) :=
  sortRuns (fun record => record.reason = .dependencyInvalidated)
    (fun left right => left.key ≤ right.key) [] records

/-- The key of a signal that stands in no order of its own. -/
def unorderedKey? : Signal String UserError → Option String
  | .invalidated key .dependencyInvalidated => some key
  | _ => none

/-- The signals with the dependents of each invalidated key in the order of
their keys. -/
def sortSignals (signals : List (Signal String UserError)) : List (Signal String UserError) :=
  sortRuns (fun signal => (unorderedKey? signal).isSome)
    (fun left right => (unorderedKey? left).getD "" ≤ (unorderedKey? right).getD "") [] signals

def sortKeys (keys : List String) : List String := keys.mergeSort (fun left right => left ≤ right)

end MemoGraph.Script
