import MemoGraph.Graph.Basic
import MemoGraph.Signal

namespace MemoGraph

/-! One round: everything that the roots of an evaluation need is brought up to
date.

A round steps one key at a time, and a step never waits: a key that needs
results of other keys is listed with each of them as a waiter, and the last of
them to get its result makes the key ready again. This module holds the state of
a round; what a step does is split over the modules beside it.
-/

structure Round (κ ν φ : Type) [Key κ] where
  graph : Graph κ ν φ
  version : Version
  /-- The keys taken up in this round, in the order in which they were. -/
  started : Array κ := #[]
  /-- The keys that failed transiently in this round. -/
  transient : Array κ := #[]
  /-- Whether the round is to be cancelled. -/
  interrupted : Bool
  /-- How many runs of functions went before. -/
  runs : Nat
  log : Array (Signal κ φ)

namespace Round

variable {κ ν φ : Type} [Key κ]

def tell (round : Round κ ν φ) (signal : Signal κ φ) : Round κ ν φ :=
  { round with log := round.log.push signal }

def tellAll (round : Round κ ν φ) (signals : List (Signal κ φ)) : Round κ ν φ :=
  { round with log := round.log.appendList signals }

def update (round : Round κ ν φ) (key : κ) (change : Node κ ν φ → Node κ ν φ) : Round κ ν φ :=
  { round with graph := round.graph.update key change }

def updateWork (round : Round κ ν φ) (key : κ) (change : Work κ φ → Work κ φ) : Round κ ν φ :=
  { round with graph := round.graph.updateWork key change }

/-- Take up a key unless its result is valid or the round works on it already,
and say whether it was taken up. -/
def start (round : Round κ ν φ) (key : κ) : Round κ ν φ × Bool :=
  let round := { round with graph := round.graph.ensure key }
  match (round.graph.node? key).bind Node.takeUp? with
  | some node =>
      (({ round with started := round.started.push key }.update key fun _ => node).tell
        (.start key), true)
  | none => (round, false)

/-- Return every key that the round still works on to where it was before. -/
def rollBack (round : Round κ ν φ) : Round κ ν φ :=
  { round with
    graph := round.started.foldl (fun graph key => graph.update key Node.rollBack) round.graph }

end Round

end MemoGraph
