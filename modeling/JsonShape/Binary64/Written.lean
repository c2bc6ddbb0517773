import JsonShape.Binary64.Shortest

/-!
Doubles in writing: the shortest digits, in positional form when the decimal exponent is at least
-4 and below 16, and with an exponent of at least two digits otherwise. What differs between
formats is a `FloatStyle`.
-/

set_option autoImplicit false

namespace JsonShape

/-- The choices of a format that writes doubles. -/
structure FloatStyle where
  /-- A mantissa of one digit is followed by `.0` before an exponent. -/
  pointBeforeExponent : Bool
  infinity : String
  nan : String

namespace Binary64

/-- A decimal exponent with its sign and at least two digits. -/
def exponentText (e : Int) : String :=
  let digits := toString e.natAbs
  (if e < 0 then "-" else "+") ++ (if digits.length < 2 then "0" else "") ++ digits

/-- Digits with the point after the first one moved by a decimal exponent. -/
def digitsText (style : FloatStyle) (digits : List Char) (e : Int) : String :=
  if -4 ≤ e ∧ e < 16 then
    match e with
    | .ofNat k =>
      let whole := digits.take (k + 1) ++ List.replicate (k + 1 - digits.length) '0'
      let fraction := digits.drop (k + 1)
      String.ofList (whole ++ '.' :: (if fraction.isEmpty then ['0'] else fraction))
    | .negSucc k => "0." ++ String.ofList (List.replicate k '0' ++ digits)
  else
    let mantissa :=
      match digits with
      | [d] => if style.pointBeforeExponent then [d, '.', '0'] else [d]
      | d :: rest => d :: '.' :: rest
      | [] => []
    String.ofList mantissa ++ "e" ++ exponentText e

/-- A magnitude in writing. -/
def magnitudeText (style : FloatStyle) (code : Nat) : String :=
  if code = infinityCode then style.infinity
  else if code = 0 then "0.0"
  else
    let shortest := shortestDigits code
    let digits := Nat.toDigits 10 shortest.coefficient
    let significant := (digits.reverse.dropWhile (· == '0')).reverse
    digitsText style significant (shortest.exponent + digits.length - 1)

/-- A double in writing. -/
def text (style : FloatStyle) : Binary64 → String
  | nan => style.nan
  | number negative code _ => (if negative then "-" else "") ++ magnitudeText style code

end Binary64

end JsonShape
