import JsonShape.Binary64.Rounding

/-!
Decimal numbers of any precision, with the special values that a decimal arithmetic has.
-/

set_option autoImplicit false

namespace JsonShape

/-- A decimal number: a signed coefficient times a power of ten, or a special value. -/
inductive Decimal
  | finite (negative : Bool) (coefficient : Nat) (exponent : Int)
  | infinity (negative : Bool)
  | nan
  | signalingNaN
  deriving DecidableEq

namespace Decimal

/-- The nearest double; a signaling NaN has none. -/
def toBinary64? : Decimal → Option Binary64
  | finite negative c e => some (.ofCode negative (Binary64.codeOfDecimal c e))
  | infinity negative => some (.infinity negative)
  | nan => some .nan
  | signalingNaN => none

/-- The exponents of decimals that can be held: the last digit's place is at least
`-1999999999999999997`, and the first digit's at most `999999999999999999`. -/
def inRange (coefficient : Nat) (exponent : Int) : Bool :=
  -1999999999999999997 ≤ exponent &&
    exponent + Binary64.digitCount coefficient - 1 ≤ 999999999999999999

end Decimal

end JsonShape
