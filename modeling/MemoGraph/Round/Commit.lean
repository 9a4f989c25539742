import MemoGraph.Round.Waiting

namespace MemoGraph.Round

variable {κ ν φ : Type} [Key κ]

/-- What the observer is told about a result, which may equal the one before. -/
def commitSignals (key : κ) (kept : Bool) (events : List (Event κ)) :
    Result κ ν φ → List (Signal κ φ)
  | .ok _ =>
      .cutoff key (!kept) ::
        (events.map .event ++ [.finish key (if kept then .unchanged else .changed)])
  | .error failure => events.map .event ++ [.finish key (.ofFailure failure)]

/-- Whether the result is worth another attempt in the next round. -/
def isTransient : Result κ ν φ → Bool
  | .ok _ => false
  | .error failure => failure.transience = .transient

/-- Record the result of a key, and the keys that wait for it. -/
def record [BEq ν] (round : Round κ ν φ) (key : κ) (result : Result κ ν φ)
    (dependencies : Grouping κ) (events : List (Event κ)) : Round κ ν φ × List κ :=
  let node := (round.graph.node? key).getD {}
  let waiters := (node.work.map Work.waiters).getD []
  let round := round.update key (·.commit round.version result dependencies)
  let round :=
    { round with
      graph := round.graph.relink key node.dependencies dependencies
      transient := if isTransient result then round.transient.push key else round.transient }
  (round.tellAll (commitSignals key (node.keeps result) events result), waiters)

/-- Record the result of a key and wake the keys that wait for it. -/
def commit [BEq ν] (round : Round κ ν φ) (key : κ) (result : Result κ ν φ)
    (dependencies : Grouping κ) (events : List (Event κ)) : Round κ ν φ × List κ :=
  let (round, waiters) := round.record key result dependencies events
  round.wake waiters

/-- Keep the result of a key whose dependencies did not change. -/
def revalidate (round : Round κ ν φ) (key : κ) : Round κ ν φ × List κ :=
  let waiters := (((round.graph.node? key).bind Node.work).map Work.waiters).getD []
  let round := round.update key (·.revalidate round.version)
  (round.tellAll [.dirtyCheck key false, .finish key .revalidated]).wake waiters

end MemoGraph.Round
