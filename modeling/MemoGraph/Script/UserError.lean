import MemoGraph.Failure

namespace MemoGraph.Script

/-- The types of errors that a request can offer to handle. -/
inductive ErrorType where
  | a
  | b
deriving DecidableEq, Repr

inductive ErrorKind where
  | a
  | b (code : Int64)
  /-- A bare message. -/
  | untyped
deriving DecidableEq

/-- An error, which may be wrapped into a context that is shown in its place. -/
structure UserError where
  kind : ErrorKind
  text : String
  context : Option String := none
deriving DecidableEq

namespace UserError

/-- The error in words, without its context. -/
def innerMessage (error : UserError) : String :=
  match error.kind with
  | .a => "A: " ++ error.text
  | .b code => "B" ++ toString code.toInt ++ ": " ++ error.text
  | .untyped => error.text

def message (error : UserError) : String :=
  error.context.getD error.innerMessage

/-- Whether the error is of the given type, in whatever context. -/
def hasType (type : ErrorType) (error : UserError) : Bool :=
  match type, error.kind with
  | .a, .a => true
  | .b, .b _ => true
  | _, _ => false

end UserError

end MemoGraph.Script
