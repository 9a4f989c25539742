namespace MemoGraph

/-- Whether a failure may be kept. -/
inductive Transience where
  /-- It stays until one of the inputs behind it changes. -/
  | persistent
  /-- It is attempted again in the next round. -/
  | transient
deriving DecidableEq, Repr

/-- What happened. -/
inductive Cause (φ : Type) where
  /-- A function failed with an error of its own. -/
  | raised (error : φ)
  /-- No function computes keys of the named kind. -/
  | unregistered (kind : String)
  /-- A function crashed, with a message if it left one. -/
  | crashed (message : Option String)
  /-- A function asked to be run again although nothing it needs is missing. -/
  | incomplete
  /-- A round had nothing left to run while the key still waited. -/
  | stalled
  /-- A round ended without a result for a root. -/
  | unfinished
deriving DecidableEq, Repr

def Cause.message {φ : Type} (describe : φ → String) : Cause φ → String
  | .raised error => describe error
  | .unregistered kind => "no function registered for kind " ++ kind
  | .crashed message => "function panicked: " ++ message.getD "unknown panic payload"
  | .incomplete => "function returned Incomplete without a missing dependency"
  | .stalled => "evaluation stalled"
  | .unfinished => "root finished the round without a result"

/-- A cause with its classification. -/
structure Fault (φ : Type) where
  cause : Cause φ
  transience : Transience
  /-- Whether the evaluator, and not the input, is to blame. -/
  infrastructure : Bool
deriving DecidableEq, Repr

namespace Fault

variable {φ : Type}

/-- A failure on a function's input that stays until the input changes. -/
def ofError (error : φ) : Fault φ := ⟨.raised error, .persistent, false⟩

/-- A failure on a function's input that is worth another attempt. -/
def transientOfError (error : φ) : Fault φ := ⟨.raised error, .transient, false⟩

/-- A failure around a function, which is worth another attempt unless it is
classified otherwise. -/
def ofInfrastructure (cause : Cause φ) : Fault φ := ⟨cause, .transient, true⟩

def withTransience (fault : Fault φ) (transience : Transience) : Fault φ :=
  { fault with transience }

/-- The error that the function raised, if it raised one. -/
def error? (fault : Fault φ) : Option φ :=
  match fault.cause with
  | .raised error => some error
  | _ => none

/-- The fault with the raised error, if any, replaced. -/
def mapError (change : φ → φ) (fault : Fault φ) : Fault φ :=
  match fault.cause with
  | .raised error => { fault with cause := .raised (change error) }
  | _ => fault

def message (describe : φ → String) (fault : Fault φ) : String :=
  fault.cause.message describe

end Fault

/-- What a function returns instead of a value. -/
inductive Refusal (φ : Type) where
  /-- Run it again once everything it asked for is available. -/
  | incomplete
  | failed (fault : Fault φ)
deriving DecidableEq, Repr

def Refusal.message {φ : Type} (describe : φ → String) : Refusal φ → String
  | .incomplete => "dependencies missing, restart required"
  | .failed fault => "function failed: " ++ fault.message describe

end MemoGraph
