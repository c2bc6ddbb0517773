/-!
Hexadecimal numbers of a fixed width.
-/

set_option autoImplicit false

namespace JsonShape.Text

/-- A number in lower-case hexadecimal, with zeros in front up to a width. -/
def hex (width n : Nat) : List Char :=
  let digits := Nat.toDigits 16 n
  List.replicate (width - digits.length) '0' ++ digits

/-- A number in upper-case hexadecimal, with zeros in front up to a width. -/
def upperHex (width n : Nat) : List Char := (hex width n).map Char.toUpper

end JsonShape.Text
