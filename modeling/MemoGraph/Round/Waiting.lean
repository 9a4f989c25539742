import MemoGraph.Round.Basic

namespace MemoGraph.Round

variable {κ ν φ : Type} [Key κ]

/-- What a key finds when it asks for a dependency. -/
inductive Joining where
  /-- There is a result; nothing to wait for. -/
  | settled
  /-- The round works on it already. -/
  | underway
  /-- It was taken up because of this request, so it has to be stepped. -/
  | started
deriving DecidableEq

/-- Ask for a dependency, and wait for it if it has no result. -/
def join (round : Round κ ν φ) (waiter dependency : κ) : Round κ ν φ × Joining :=
  let (round, started) := round.start dependency
  if (round.graph.result? dependency).isSome then (round, .settled)
  else
    (round.updateWork dependency fun work => { work with waiters := work.waiters ++ [waiter] },
      if started then .started else .underway)

/-- One of the awaited dependencies is there. Says whether it was the last. -/
def release (round : Round κ ν φ) (key : κ) : Round κ ν φ × Bool :=
  match (round.graph.node? key).bind Node.work with
  | some work =>
      if 0 < work.pending then
        (round.updateWork key fun work => { work with pending := work.pending - 1 },
          work.pending = 1)
      else (round, false)
  | none => (round, false)

/-- Release the waiters of a key in order, and collect those that became ready. -/
def wake (round : Round κ ν φ) : List κ → Round κ ν φ × List κ
  | [] => (round, [])
  | waiter :: waiters =>
      let (round, last) := round.release waiter
      let (round, ready) := round.wake waiters
      (round, if last then waiter :: ready else ready)

/-- Ask for the dependencies in order, and collect those that have to be stepped. -/
def joinAll (round : Round κ ν φ) (waiter : κ) : List κ → Round κ ν φ × List κ
  | [] => (round, [])
  | dependency :: dependencies =>
      match round.join waiter dependency with
      | (round, .settled) => (round.release waiter).1.joinAll waiter dependencies
      | (round, .underway) => round.joinAll waiter dependencies
      | (round, .started) =>
          let (round, ready) := round.joinAll waiter dependencies
          (round, dependency :: ready)

/-- Let a key wait for dependencies, and collect everything that has to be
stepped. One more than the dependencies is awaited at first, so that the key is
not ready before all of them were asked for. -/
def await (round : Round κ ν φ) (key : κ) (dependencies : List κ) : Round κ ν φ × List κ :=
  let round := round.updateWork key fun work =>
    { work with pending := dependencies.length + 1, batch := dependencies }
  let (round, ready) := round.joinAll key dependencies
  let (round, last) := round.release key
  (round, if last then ready ++ [key] else ready)

end MemoGraph.Round
