import JsonShape.Digits
import JsonShape.Text.Hex
import JsonShape.Value

/-!
The tokens of JSON text, and why a text cannot be read.
-/

set_option autoImplicit false

namespace JsonShape.Json

/-- The first byte of a sequence that encodes no character, and its position in the text. -/
structure Flaw where
  byte : Nat
  position : Nat
  deriving DecidableEq

namespace Flaw

/-- The byte begins no sequence of UTF-8; otherwise the one after it is out of place. -/
def isStart (f : Flaw) : Bool := f.byte < 0xc2 || 0xf4 < f.byte

/-- The wording of a flaw. -/
def message (f : Flaw) : String :=
  let part := if f.isStart then "start" else "continuation"
  "'utf-8' codec can't decode byte 0x" ++ String.ofList (Text.hex 2 f.byte) ++ " in position " ++
    toString f.position ++ ": invalid " ++ part ++ " byte"

end Flaw

/-- Why a text cannot be read: it is not JSON, it holds text that is not Unicode, or it holds a
number outside the range of decimals or an integer of too many digits. -/
inductive ReadFault
  | malformed
  | undecodable (f : Flaw)
  | numberOutOfRange
  | tooManyDigits (count : Nat)
  deriving DecidableEq

/-- A number as it is written. The coefficient has the digits before and after the point. -/
structure NumberToken where
  negative : Bool
  coefficient : Nat
  places : Nat
  exponent : Int
  integral : Bool
  deriving DecidableEq

namespace NumberToken

/-- The value of a number: an integer if it has neither point nor exponent, else a decimal. -/
def value? (n : NumberToken) : Except ReadFault Value :=
  if n.integral then
    let count := Binary64.digitCount n.coefficient
    if digitLimit < count then .error (.tooManyDigits count)
    else .ok (.int (if n.negative then -(n.coefficient : Int) else n.coefficient))
  else
    let e := n.exponent - n.places
    if Decimal.inRange n.coefficient e then .ok (.decimal (.finite n.negative n.coefficient e))
    else .error .numberOutOfRange

end NumberToken

/-- A token. A text may have a flaw in place of its characters; an invalid token stands where no
token can be made out. -/
inductive Token
  | openList
  | closeList
  | openDict
  | closeDict
  | comma
  | colon
  | null
  | bool (b : Bool)
  | number (n : NumberToken)
  | text (s : Except Flaw String)
  | invalid

end JsonShape.Json
