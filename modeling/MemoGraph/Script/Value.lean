import MemoGraph.Metadata.Basic

namespace MemoGraph.Script

inductive Value where
  | int (value : Int64)
  | text (value : String)
  | keys (keys : List String)
  /-- Tags are told apart by their number alone. -/
  | tag (id : Int64) (note : String)
  /-- A value that differs from every value, itself included. -/
  | never
  | metadata (metadata : Metadata String)

namespace Value

def equal : Value → Value → Bool
  | .int left, .int right => left == right
  | .text left, .text right => left == right
  | .keys left, .keys right => left == right
  | .tag left _, .tag right _ => left == right
  | .metadata left, .metadata right => left == right
  | _, _ => false

instance : BEq Value := ⟨equal⟩

/-- What a value counts for in sums. -/
def number : Value → Int64
  | .int number => number
  | .text characters => Int64.ofNat characters.utf8ByteSize
  | .keys named => Int64.ofNat named.length
  | .tag id _ => id
  | .never => 0
  | .metadata collected => Int64.ofNat collected.items.length

/-- The keys that a value names. -/
def namedKeys : Value → List String
  | .keys named => named
  | .text named => [named]
  | _ => []

end Value

end MemoGraph.Script
