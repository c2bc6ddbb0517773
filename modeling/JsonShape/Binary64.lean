/-!
Double-precision numbers by their encodings. All NaNs are one value; every other number is a sign
and a magnitude in the 63-bit encoding, whose order is the order of the magnitudes themselves.
-/

set_option autoImplicit false

namespace JsonShape

/-- A double-precision number: NaN, or a sign and an encoded magnitude up to that of infinity. -/
inductive Binary64
  | nan
  | number (negative : Bool) (code : Nat) (bounded : code ≤ 0x7ff0000000000000)
  deriving DecidableEq

namespace Binary64

/-- The encoded magnitude of infinity; those of finite numbers lie below it. -/
def infinityCode : Nat := 0x7ff0000000000000

/-- The number of a sign and a magnitude; a magnitude beyond that of infinity is infinite. -/
def ofCode (negative : Bool) (code : Nat) : Binary64 :=
  .number negative (min code 0x7ff0000000000000) (Nat.min_le_right _ _)

/-- Infinity of either sign. -/
def infinity (negative : Bool) : Binary64 := ofCode negative infinityCode

/-- Zero of either sign. -/
def zero (negative : Bool) : Binary64 := ofCode negative 0

/-- The place of a number in the numeric order; both zeros share one, and NaN has none. -/
def rank? : Binary64 → Option Int
  | nan => none
  | number negative code _ => some (if negative then -(code : Int) else code)

/-- One number lies strictly below another; NaN lies below and above nothing. -/
def below (x y : Binary64) : Bool :=
  match x.rank?, y.rank? with
  | some a, some b => a < b
  | _, _ => false

instance : LT Binary64 := ⟨fun x y => x.below y = true⟩

instance : DecidableLT Binary64 := fun x y => inferInstanceAs (Decidable (x.below y = true))

/-- The 64 bits of the encoding, the sign topmost. -/
def toBits : Binary64 → Nat
  | nan => 0x7ff8000000000000
  | number negative code _ => if negative then 0x8000000000000000 + code else code

/-- The number that 64 bits encode. -/
def ofBits (bits : Nat) : Binary64 :=
  let code := bits % 0x8000000000000000
  if h : code ≤ 0x7ff0000000000000 then .number (0x8000000000000000 ≤ bits) code h else nan

/-- The magnitude of a finite number is `m * 2 ^ q`; this is `(m, q)`. -/
def significand (code : Nat) : Nat × Int :=
  if code < 0x10000000000000 then (code, -1074)
  else (code % 0x10000000000000 + 0x10000000000000, (code / 0x10000000000000 : Nat) - 1075)

end Binary64

end JsonShape
