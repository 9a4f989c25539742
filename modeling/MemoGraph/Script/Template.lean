namespace MemoGraph.Script

def digitValue (digit : Char) : Nat := digit.toNat - '0'.toNat

/-- The number that a non-empty run of decimal digits writes. -/
def readDigits? (digits : List Char) : Option Nat :=
  if !digits.isEmpty && digits.all Char.isDigit then
    some (digits.foldl (fun number digit => 10 * number + digitValue digit) 0)
  else none

def readSigned? : List Char → Option Int
  | '-' :: digits => (readDigits? digits).map fun number => -(number : Int)
  | '+' :: digits => (readDigits? digits).map Int.ofNat
  | digits => (readDigits? digits).map Int.ofNat

/-- A signed decimal number of 64 bits, or zero for any other text. -/
def readNumber (text : List Char) : Int64 :=
  match readSigned? text with
  | some number =>
      if Int64.minValue.toInt ≤ number ∧ number ≤ Int64.maxValue.toInt then Int64.ofInt number
      else 0
  | none => 0

/-- What stands for a gap. Sums wrap around. -/
def fill (argument gap : List Char) : List Char :=
  if gap.isEmpty then argument
  else (toString (readNumber argument + readNumber gap).toInt).toList

/-- Fill the gaps of a text, of which an open one has been read up to here,
backwards. A gap that is never closed stays as it is. -/
def fillGaps (argument : List Char) : Option (List Char) → List Char → List Char
  | none, [] => []
  | some gap, [] => '{' :: gap.reverse
  | none, '{' :: rest => fillGaps argument (some []) rest
  | none, char :: rest => char :: fillGaps argument none rest
  | some gap, '}' :: rest => fill argument gap.reverse ++ fillGaps argument none rest
  | some gap, char :: rest => fillGaps argument (some (char :: gap)) rest

/-- The text of a template for a key: what follows the key's first character is
its argument. -/
def instantiate (key template : String) : String :=
  String.ofList (fillGaps (key.toList.drop 1) none template.toList)

end MemoGraph.Script
