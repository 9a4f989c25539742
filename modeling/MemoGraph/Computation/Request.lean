import MemoGraph.Computation.Attempt

namespace MemoGraph

/-- The ways in which a function asks for keys. -/
inductive Request (κ φ : Type) where
  | value (key : κ)
  | values (keys : List κ)
  /-- Ask for a key, and handle a failure whose error passes the handler. -/
  | valueOrThrow (key : κ) (handler : Handler φ)
  | valuesOrThrow (keys : List κ) (handler : Handler φ)
  /-- Depend on keys without looking at them. -/
  | dependencies (keys : List κ)

namespace Request

variable {κ ν φ : Type}

/-- The group that is asked for. -/
def keys : Request κ φ → List κ
  | .value key | .valueOrThrow key _ => [key]
  | .values keys | .valuesOrThrow keys _ | .dependencies keys => keys

def handler? : Request κ φ → Option (Handler φ)
  | .value _ | .values _ | .dependencies _ => none
  | .valueOrThrow _ handler | .valuesOrThrow _ handler => some handler

end Request

/-- Serve requests one after another. Gives what they were answered. -/
def Attempt.serve {κ ν φ : Type} [DecidableEq κ] (results : κ → Option (Result κ ν φ)) :
    Attempt κ φ → List (Request κ φ) → Attempt κ φ × List (List (Answer ν φ))
  | attempt, [] => (attempt, [])
  | attempt, request :: requests =>
      let (attempt, answers) := attempt.request results request.keys request.handler?
      let (attempt, rest) := serve results attempt requests
      (attempt, answers :: rest)

end MemoGraph
