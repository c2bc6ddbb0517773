/-!
Counts with their digits in groups of three.
-/

set_option autoImplicit false

namespace JsonShape.Text

/-- Digits with a comma wherever a multiple of three of them follow. -/
def groupDigits : List Char → List Char
  | [] => []
  | d :: rest =>
    if rest.length % 3 = 0 ∧ rest ≠ [] then d :: ',' :: groupDigits rest else d :: groupDigits rest

/-- A count with its digits in groups. -/
def grouped (n : Nat) : String := String.ofList (groupDigits (Nat.toDigits 10 n))

end JsonShape.Text
