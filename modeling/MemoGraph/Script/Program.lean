import MemoGraph.Computation.Basic
import MemoGraph.Script.Template
import MemoGraph.Script.UserError
import MemoGraph.Script.Value

namespace MemoGraph.Script

/-! A small language of functions.

A program is a list of instructions. It collects the answers to its requests in
numbered slots, which later instructions refer to. Texts in requests and
messages are templates.
-/

abbrev Slot := Answer Value UserError

/-- How the metadata of a value is put together. -/
inductive MetadataCall where
  | add (item : String)
  | propagate (slot : Nat)
  | direct (slot : Nat)
deriving Repr

/-- What a program can return. -/
inductive Expression where
  | constant (value : Value)
  | sum (plus modulus : Int64)
  | tag (plus modulus : Int64) (note : String)
  | mix (seed : Int64)
  | copy (slot : Nat)
  /-- How many slots hold a value. -/
  | count
  /-- The messages of all caught errors. -/
  | errors
  | metadata (calls : List MetadataCall)
  /-- The name of the worker that runs the program. -/
  | worker

/-- What a branch is taken on. -/
inductive Condition where
  | hasValue (slot : Nat)
  | isAbsent (slot : Nat)
  | hasError (slot : Nat)
  | isMissing
  | hasNumber (slot : Nat) (number : Int64)

inductive Instruction where
  | get (keys : List String)
  /-- Ask for keys, and handle failures with an error of the given type. -/
  | catching (type : ErrorType) (keys : List String)
  /-- Depend on keys without looking at them. -/
  | declare (keys : List String)
  /-- Ask for the keys that the value in a slot names. -/
  | getFrom (slot : Nat)
  | check
  | report (severity : Severity) (message : String)
  | branch (condition : Condition) (yes no : List Instruction)
  | interrupt
  /-- Fail, naming the error in a slot if one is given. -/
  | fail (fault : Fault UserError) (cause : Option Nat)
  /-- Fail with the error in a slot, if there is one. -/
  | rethrow (slot : Nat)
  | incomplete
  | crash (message : Option String)
  | ret (expression : Expression)

abbrev Program := List Instruction

/-- What a program knows besides its slots. -/
structure Context where
  key : String
  /-- The name of the worker that runs it. -/
  worker : String
  /-- How many runs of functions went before. -/
  run : Nat

abbrev ScriptComputation := Computation String Value UserError

namespace Context

def fill (context : Context) (template : String) : String := instantiate context.key template

def fillAll (context : Context) (templates : List String) : List String :=
  templates.map context.fill

end Context

def slotValue? (slots : List Slot) (index : Nat) : Option Value :=
  match slots[index]? with
  | some (.value value) => some value
  | _ => none

def slotError? (slots : List Slot) (index : Nat) : Option UserError :=
  match slots[index]? with
  | some (.caught error) => some error
  | _ => none

def slotNumbers (slots : List Slot) : List Int64 :=
  slots.filterMap fun
    | .value value => some value.number
    | _ => none

/-- The sum of all numbers, wrapping around, and then its remainder if a
modulus is given. -/
def slotSum (slots : List Slot) (plus modulus : Int64) : Int64 :=
  let sum := (slotNumbers slots).foldl (· + ·) plus
  if 0 < modulus then Int64.ofInt (sum.toInt % modulus.toInt) else sum

def Condition.holds (slots : List Slot) : Condition → Bool
  | .hasValue slot => (slotValue? slots slot).isSome
  | .isAbsent slot => (slotValue? slots slot).isNone && (slotError? slots slot).isNone
  | .hasError slot => (slotError? slots slot).isSome
  | .hasNumber slot number => (slotValue? slots slot).any fun value => value.number == number
  | .isMissing => false

def MetadataCall.apply (context : Context) (slots : List Slot)
    (builder : Metadata.Builder String) : MetadataCall → Metadata.Builder String
  | .add item => builder.add (context.fill item)
  | .propagate slot =>
      match slotValue? slots slot with
      | some (.metadata metadata) => builder.addAndPropagate metadata
      | _ => builder
  | .direct slot =>
      match slotValue? slots slot with
      | some (.metadata metadata) => builder.addDirectOnly metadata
      | _ => builder

/-- The value of an expression. Metadata is named after the run, which no other
metadata is. -/
def Expression.eval (context : Context) (slots : List Slot) : Expression → Value
  | .constant value => value
  | .sum plus modulus => .int (slotSum slots plus modulus)
  | .tag plus modulus note => .tag (slotSum slots plus modulus) (context.fill note)
  | .mix seed => .int ((slotNumbers slots).foldl (fun mixed number => mixed * 31 + number) seed)
  | .copy slot => (slotValue? slots slot).getD (.int 0)
  | .count => .int (Int64.ofNat (slotNumbers slots).length)
  | .errors =>
      .text ("; ".intercalate (slots.filterMap fun
        | .caught error => some error.innerMessage
        | _ => none))
  | .metadata calls =>
      .metadata ((calls.foldl (MetadataCall.apply context slots) {}).build (some context.run))
  | .worker => .text context.worker

/-- The fault of a failing program, in words that fit its key and cause. -/
def failureOf (context : Context) (slots : List Slot) (fault : Fault UserError)
    (cause : Option Nat) : Fault UserError :=
  fault.mapError fun error =>
    let text := context.fill error.text
    match cause with
    | none => { error with text }
    | some slot =>
        let reason := ((slotError? slots slot).map UserError.innerMessage).getD ""
        { error with text := text ++ ": " ++ reason }

mutual

/-- The computation of one instruction, followed by the rest of the program. -/
def Instruction.compute (context : Context) (slots : List Slot)
    (rest : List Slot → ScriptComputation) : Instruction → ScriptComputation
  | .get keys =>
      .request (context.fillAll keys) none fun answers => rest (slots ++ answers)
  | .catching type keys =>
      .request (context.fillAll keys) (some (UserError.hasType type)) fun answers =>
        rest (slots ++ answers)
  | .declare keys => .request (context.fillAll keys) none fun _ => rest slots
  | .getFrom slot =>
      .request (((slotValue? slots slot).map Value.namedKeys).getD []) none fun answers =>
        rest (slots ++ answers)
  | .check => .check (rest slots)
  | .report severity message => .report severity (context.fill message) (rest slots)
  | .branch .isMissing yes no =>
      .inspect fun missing =>
        if missing then Program.compute context slots rest yes
        else Program.compute context slots rest no
  | .branch condition yes no =>
      if condition.holds slots then Program.compute context slots rest yes
      else Program.compute context slots rest no
  | .interrupt => .interrupt (rest slots)
  | .fail fault cause => .finish (.refused (.failed (failureOf context slots fault cause)))
  | .rethrow slot =>
      match slotError? slots slot with
      | some error => .finish (.refused (.failed (.ofError error)))
      | none => rest slots
  | .incomplete => .finish (.refused .incomplete)
  | .crash message => .finish (.crashed (message.map context.fill))
  | .ret expression => .finish (.value (expression.eval context slots))

/-- The computation of a program, followed by what comes after it. -/
def Program.compute (context : Context) (slots : List Slot)
    (rest : List Slot → ScriptComputation) : List Instruction → ScriptComputation
  | [] => rest slots
  | instruction :: program =>
      instruction.compute context slots
        fun slots => Program.compute context slots rest program

end

/-- A program starts without slots, and returns zero unless it ends before. -/
def Program.computation (context : Context) (program : Program) : ScriptComputation :=
  Program.compute context [] (fun _ => .finish (.value (.int 0))) program

end MemoGraph.Script
