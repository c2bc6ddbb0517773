import JsonShape.Decimal

/-!
Trees of values as documents and callers bring them. Keys of dictionaries need not be text; a
dictionary keeps its entries in order.
-/

set_option autoImplicit false

namespace JsonShape

/-- A key of a dictionary. Its text is well formed: keys with half of a surrogate pair in them,
which no document brings, are left out. -/
inductive Key
  | text (s : String)
  | int (n : Int)
  | bool (b : Bool)
  | null
  | float (x : Binary64)
  deriving DecidableEq

/-- A value tree. A foreign value is one that no document can hold; of it only the kind is known. -/
inductive Value
  | null
  | bool (b : Bool)
  | int (n : Int)
  | float (x : Binary64)
  | decimal (d : Decimal)
  | text (s : String)
  | illFormedText (codePoints : List Nat)
  | list (items : List Value)
  | dict (entries : List (Key × Value))
  | foreign (kind : String)

namespace Value

/-- The text of some code points, which is ill-formed if one of them is a surrogate. -/
def ofCodePoints (codePoints : List Nat) : Value :=
  if codePoints.all fun c => c.isValidChar then .text (String.ofList (codePoints.map Char.ofNat))
  else .illFormedText codePoints

end Value

end JsonShape
