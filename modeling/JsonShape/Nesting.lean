/-!
How deep values and shapes may be nested. The numbers are those of one runtime; all that is used of
them is how they fit each other.
-/

set_option autoImplicit false

namespace JsonShape

/-- The levels of nesting for which there is room, in values and in shapes. -/
structure NestingRoom where
  values : Nat
  shapes : Nat
  /-- A level of a value makes two levels of a shape at most, so that the shapes of values for which
  there is room have room to be merged and written. -/
  fits : 2 * values + 2 ≤ shapes

/-- The room for nesting that the runtime leaves. -/
def runtimeRoom : NestingRoom := ⟨900, 1900, by decide⟩

/-- The room for nesting in values: lists and dictionaries inside each other. -/
def Value.nestingRoom : Nat := runtimeRoom.values

/-- The room for nesting in shapes: lists, records and optional marks inside each other. -/
def Shape.nestingRoom : Nat := runtimeRoom.shapes

theorem nestingRoom_fits : 2 * Value.nestingRoom + 2 ≤ Shape.nestingRoom := runtimeRoom.fits

end JsonShape
