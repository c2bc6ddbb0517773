import JsonShape.Binary64.Rounding

/-!
The shortest decimal of a finite magnitude: on the first grid of one, two, … seventeen digits that
has a point which rounds to the magnitude, the nearest such point. The two grid points around the
magnitude are the only ones to try.
-/

set_option autoImplicit false

namespace JsonShape.Binary64

/-- The decimal `coefficient * 10 ^ exponent`. -/
structure Digits where
  coefficient : Nat
  exponent : Int
  deriving DecidableEq

/-- A magnitude as a quotient of natural numbers. -/
def ratioOfCode (code : Nat) : Nat × Nat :=
  match significand code with
  | (m, .ofNat k) => (m * Nat.pow 2 k, 1)
  | (m, .negSucc k) => (m, Nat.pow 2 (k + 1))

/-- The largest exponent whose power of ten is at most a positive quotient. -/
def floorLog10 (num den : Nat) : Int :=
  let e : Int := (digitCount num : Int) - digitCount den
  if powerLe 10 e num den then e else e - 1

/-- A quotient in units of `10 ^ e`, as a quotient again. -/
def inUnitsOf (e : Int) (ratio : Nat × Nat) : Nat × Nat :=
  match e with
  | .ofNat k => (ratio.1, ratio.2 * Nat.pow 10 k)
  | .negSucc k => (ratio.1 * Nat.pow 10 (k + 1), ratio.2)

/-- The point of the grid of `10 ^ e` nearest to a magnitude, among those that round to it. -/
def nearestOnGrid? (code : Nat) (e : Int) : Option Digits :=
  let (num, den) := inUnitsOf e (ratioOfCode code)
  let c := num / den
  let r := num % den
  let lower := codeOfDecimal c e == code
  let upper := codeOfDecimal (c + 1) e == code
  if lower && upper then
    some ⟨if 2 * r < den then c else if den < 2 * r then c + 1 else c + c % 2, e⟩
  else if lower then some ⟨c, e⟩
  else if upper then some ⟨c + 1, e⟩
  else none

/-- All digits of a magnitude. -/
def exactDigits (code : Nat) : Digits :=
  match significand code with
  | (m, .ofNat k) => ⟨m * Nat.pow 2 k, 0⟩
  | (m, .negSucc k) => ⟨m * Nat.pow 5 (k + 1), .negSucc k⟩

/-- The fewest digits that round to a positive finite magnitude, and of those the nearest. -/
def shortestDigits (code : Nat) : Digits :=
  let (num, den) := ratioOfCode code
  let top := floorLog10 num den
  ((List.range 17).findSome? fun (n : Nat) => nearestOnGrid? code (top - n)).getD (exactDigits code)

end JsonShape.Binary64
