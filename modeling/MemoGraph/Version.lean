namespace MemoGraph

/-- How often the inputs of a graph have changed. A node records the version at
which its result last changed and the version at which it was last evaluated;
comparing the two along an edge tells whether the dependency changed since. -/
abbrev Version := Nat

namespace Version

def initial : Version := 0

def next (version : Version) : Version := version + 1

def isInitial (version : Version) : Bool := version == initial

/-- The given versions from the oldest to the newest. -/
def sorted (versions : List Version) : List Version :=
  versions.mergeSort (fun earlier later => earlier ≤ later)

def newest? (versions : List Version) : Option Version :=
  versions.max?

/-- The version as it is stored, in 64 bits. -/
def word (version : Version) : UInt64 := .ofNat version

/-- The version is stored as it is. -/
def Fits (version : Version) : Prop := version < UInt64.size

variable {version left right : Version}

theorem toNat_word (fits : version.Fits) : version.word.toNat = version :=
  UInt64.toNat_ofNat_of_lt' fits

theorem word_next (version : Version) : version.next.word = version.word + 1 :=
  UInt64.ofNat_add version 1

theorem Fits.of_le (fits : right.Fits) (order : left ≤ right) : left.Fits :=
  Nat.lt_of_le_of_lt order fits

theorem word_lt_word (leftFits : left.Fits) (rightFits : right.Fits) :
    left.word < right.word ↔ left < right := by
  rw [UInt64.lt_iff_toNat_lt, toNat_word leftFits, toNat_word rightFits]

end Version

end MemoGraph
