import MemoGraph.Round.Step
import MemoGraph.Round.Deadlock

namespace MemoGraph.Round

/-! The order in which a round steps its keys.

Ready keys stand on a stack. After a step the round goes on with the first key
that became ready; the others are put on the stack, the last of them on top.
When the stack is empty, deadlocks are broken, and the round is over when none
is left.
-/

variable {κ ν φ : Type} [Key κ]

/-- How a round ends. -/
inductive Halt where
  /-- Everything that was taken up has a result. -/
  | complete
  | interrupted
  /-- The bound on the number of steps was reached. -/
  | exhausted
deriving DecidableEq, Repr

/-- The stack after a step that made the given keys ready. -/
def push (stack : List κ) : List κ → List κ
  | [] => stack
  | first :: others => first :: (others.reverse ++ stack)

/-- Take up the roots, and collect those that have to be stepped. -/
def begin : Round κ ν φ → List κ → Round κ ν φ × List κ
  | round, [] => (round, [])
  | round, root :: roots =>
      match round.start root with
      | (round, true) =>
          let (round, ready) := round.begin roots
          (round, root :: ready)
      | (round, false) => (round.tell (.finish root .cacheHit)).begin roots

/-- Step the keys on the stack until everything that was taken up has a result.
Once the round is cancelled, the keys left on the stack are dropped. -/
def drive [BEq ν] (registry : Registry κ ν φ) (roots : List κ) :
    Nat → List κ → Round κ ν φ → Round κ ν φ × Halt
  | 0, _, round => (round, .exhausted)
  | bound + 1, key :: stack, round =>
      if round.interrupted then drive registry roots bound stack round
      else
        let (round, ready) := round.step registry key
        drive registry roots bound (push stack ready) round
  | bound + 1, [], round =>
      if round.interrupted then (round, .interrupted)
      else
        match round.breakDeadlock roots with
        | (round, []) => (round, .complete)
        | (round, ready) => drive registry roots bound ready.reverse round

/-- Run a round for distinct roots, in at most `bound` steps. A round that does
not end by itself is rolled back. -/
def run [BEq ν] (registry : Registry κ ν φ) (bound : Nat) (roots : List κ)
    (round : Round κ ν φ) : Round κ ν φ × Halt :=
  match round.begin roots with
  | (round, []) => (round, .complete)
  | (round, ready) =>
      match drive registry roots bound ready.reverse round with
      | (round, .complete) => (round, .complete)
      | (round, halt) => (round.rollBack, halt)

end MemoGraph.Round
