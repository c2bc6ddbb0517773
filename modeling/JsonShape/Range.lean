import JsonShape.Binary64.Rounding

/-!
Ranges of observed numbers and lengths. The hull of two ranges keeps a bound of the left one
unless the right one lies strictly beyond it, which decides for NaN and for zeros of either sign.
-/

set_option autoImplicit false

namespace JsonShape

/-- The least and the greatest of the observed numbers or lengths. -/
structure Range (α : Type) where
  lo : α
  hi : α
  deriving DecidableEq

namespace Range

variable {α : Type}

/-- The range of a single observation. -/
def point (a : α) : Range α := ⟨a, a⟩

/-- The smallest range around two ranges. -/
def hull [LT α] [DecidableLT α] (r s : Range α) : Range α :=
  ⟨if s.lo < r.lo then s.lo else r.lo, if r.hi < s.hi then s.hi else r.hi⟩

/-- An integer range with its bounds rounded to doubles. A bound beyond the doubles is infinite
here, but a range with such a bound is not converted: see `fitsBinary64`. -/
def toBinary64 (r : Range Int) : Range Binary64 := ⟨.ofInt r.lo, .ofInt r.hi⟩

/-- Both bounds of an integer range are finite as doubles, so that the range can be converted. -/
def fitsBinary64 (r : Range Int) : Bool := Binary64.holdsInt r.lo && Binary64.holdsInt r.hi

end Range

end JsonShape
