import Std.Data.TreeMap
import Std.Data.TreeSet

namespace MemoGraph

/-- Keys name what is computed. They are told apart by a total order, which
finds them in maps and sets; nothing else depends on it. -/
class Key (κ : Type) extends Ord κ where
  [decidableEq : DecidableEq κ]
  [transOrd : Std.TransOrd κ]
  [lawfulEqOrd : Std.LawfulEqOrd κ]

attribute [reducible, instance] Key.decidableEq
attribute [instance] Key.transOrd Key.lawfulEqOrd

-- Found by name, and so the same term whatever a module imports.
instance Key.lawfulBEq {κ : Type} [Key κ] : LawfulBEq κ := inferInstance

instance : Key Nat := {}

instance : Key String := {}

end MemoGraph
