import JsonShape.Binary64

/-!
Exact quotients and decimals rounded to the nearest double, a half going to the even neighbour.
The grid of a magnitude is chosen by its binary exponent, and a rounding that reaches the next
power of two carries into the exponent field of the encoding by itself.
-/

set_option autoImplicit false

namespace JsonShape.Binary64

/-- The quotient of two natural numbers to the nearest, a half going to the even neighbour. -/
def roundHalfEven (num den : Nat) : Nat :=
  let q := num / den
  let r := num % den
  if 2 * r < den then q else if den < 2 * r then q + 1 else q + q % 2

/-- The power of a base is at most a quotient: `base ^ e ≤ num / den`. -/
def powerLe (base : Nat) (e : Int) (num den : Nat) : Bool :=
  match e with
  | .ofNat k => den * Nat.pow base k ≤ num
  | .negSucc k => den ≤ num * Nat.pow base (k + 1)

/-- The largest exponent whose power of two is at most a positive quotient. -/
def floorLog2 (num den : Nat) : Int :=
  let e : Int := (num.log2 : Int) - den.log2
  if powerLe 2 e num den then e else e - 1

/-- A quotient counted in units of `2 ^ q`, to the nearest. -/
def roundToGrid (num den : Nat) (q : Int) : Nat :=
  match q with
  | .ofNat k => roundHalfEven num (den * Nat.pow 2 k)
  | .negSucc k => roundHalfEven (num * Nat.pow 2 (k + 1)) den

/-- The encoded magnitude nearest to a quotient. -/
def codeOfRatio (num den : Nat) : Nat :=
  if num = 0 then 0
  else
    let q := max (floorLog2 num den - 52) (-1074)
    min infinityCode ((q + 1074).toNat * 0x10000000000000 + roundToGrid num den q)

/-- The number of decimal digits, one for zero. -/
def digitCount (n : Nat) : Nat := (Nat.toDigits 10 n).length

/-- The encoded magnitude nearest to `c * 10 ^ e`. Sizes far outside the range of doubles are
settled by the number of digits alone. -/
def codeOfDecimal (c : Nat) (e : Int) : Nat :=
  if c = 0 then 0
  else
    let size := e + digitCount c
    if 310 < size then infinityCode
    else if size < -330 then 0
    else
      match e with
      | .ofNat k => codeOfRatio (c * Nat.pow 10 k) 1
      | .negSucc k => codeOfRatio c (Nat.pow 10 (k + 1))

/-- The double nearest to an integer. -/
def ofInt (n : Int) : Binary64 := ofCode (n < 0) (codeOfRatio n.natAbs 1)

/-- The double nearest to an integer is finite. -/
def holdsInt (n : Int) : Bool := codeOfRatio n.natAbs 1 < infinityCode

end JsonShape.Binary64
