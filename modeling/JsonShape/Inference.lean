import JsonShape.Tally
import JsonShape.Value
import JsonShape.Binary64.Written

/-!
The shape of a value, and the shape around many values. The elements of a list are merged from left
to right into one shape; an integer too wide for 64 bits counts as the text of its digits.
-/

set_option autoImplicit false

namespace JsonShape

/-- The text of an integer, unless it has too many digits. -/
def intText (n : Int) : Tally String := (digits? n).elim (throw .tooManyDigits) pure

namespace Key

/-- Floats as names: no point before an exponent. -/
def floatStyle : FloatStyle := ⟨false, "inf", "nan"⟩

/-- The name that a key gives to a field. -/
def label : Key → Tally String
  | text s => return s
  | int n => intText n
  | bool b => return if b then "True" else "False"
  | null => return "None"
  | float x => return x.text floatStyle

end Key

namespace Value

/-- The integers of 64 bits. -/
def fitsInt64 (n : Int) : Bool := -0x8000000000000000 ≤ n && n ≤ 0x7fffffffffffffff

mutual

/-- The shape of a value within some room for nesting. -/
def infer : Nat → Value → Tally Shape
  | _, null => return .optional .unknown
  | _, bool _ => return .bool
  | _, int n =>
    if fitsInt64 n then return .int (.point n)
    else return .text (.point (← intText n).length)
  | _, float x => return .float (.point x)
  | _, decimal d =>
    match d.toBinary64? with
    | some x => return .float (.point x)
    | none => throw .signalingNaN
  | _, text s => return .text (.point s.utf8ByteSize)
  | _, illFormedText _ => throw .illFormedText
  | 0, list _ => throw .tooDeep
  | room + 1, list items => return .list (.point items.length) (← inferOnto room .unknown items)
  | 0, dict _ => throw .tooDeep
  | room + 1, dict entries => return .record (← inferFields room entries)
  | _, foreign kind => throw (.unsupported kind)

/-- The shape around a shape and further values, taken in order. -/
def inferOnto : Nat → Shape → List Value → Tally Shape
  | _, shape, [] => return shape
  | room, shape, v :: rest => do
    let next ← infer room v
    let merged ← shape.unify next
    inferOnto room merged rest

/-- The fields of a dictionary: the name of a key is found before the shape of its value. -/
def inferFields : Nat → List (Key × Value) → Tally (List (String × Shape))
  | _, [] => return []
  | room, (key, v) :: rest => do
    let name ← key.label
    let shape ← infer room v
    return (name, shape) :: (← inferFields room rest)

end

end Value

/-- The shape of a value. -/
def infer (v : Value) : Tally Shape := v.infer Value.nestingRoom

/-- The shape around some values, unknown for none. -/
def inferMany (vs : List Value) : Tally Shape := Value.inferOnto Value.nestingRoom .unknown vs

/-- The shape of a document. -/
def parse (v : Value) : Tally Shape := (infer v).ofDocument

/-- The shape around some documents. -/
def parseMany (vs : List Value) : Tally Shape := (inferMany vs).ofDocument

/-- What is handed back of parsed documents: their shape, and the count of all merges so far. -/
structure Parsed where
  root : Shape
  merges : Nat

/-- Reads the count once a shape is found. -/
def Parsed.ofTally (t : Tally Shape) : Tally Parsed := do
  let root ← t
  return ⟨root, ← get⟩

end JsonShape
