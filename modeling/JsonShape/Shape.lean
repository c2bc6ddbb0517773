import JsonShape.Digits
import JsonShape.Range
import JsonShape.Text.Quoted

/-!
Shapes: what is known of the values at one place of a document. An unknown shape has seen nothing,
an any shape has seen values of several kinds. Records keep their fields in order, and names may
repeat. A foreign node stands where a caller put something else than a shape.
-/

set_option autoImplicit false

namespace JsonShape

/-- Something that is not a shape and stands where a shape should. -/
inductive Foreign
  | null
  | int (n : Int)
  | text (s : String)
  deriving DecidableEq

/-- A foreign node as messages show it, unless it is an integer of too many digits. -/
def Foreign.shown? : Foreign → Option String
  | null => some "None"
  | int n => digits? n
  | text s => some (Text.quoted s)

/-- Two foreign nodes are of one kind, whatever they hold. -/
def Foreign.sameKind : Foreign → Foreign → Bool
  | null, null | int _, int _ | text _, text _ => true
  | _, _ => false

/-- The shape of the values at one place: their kind, with ranges of numbers and of lengths.
The length of a text is that of its UTF-8 form in bytes. -/
inductive Shape
  | unknown
  | any
  | bool
  | int (range : Range Int)
  | float (range : Range Binary64)
  | text (lengths : Range Int)
  | list (lengths : Range Int) (item : Shape)
  | record (fields : List (String × Shape))
  | optional (child : Shape)
  | foreign (node : Foreign)

namespace Shape

/-- Marks a shape as one that may be absent; a second mark changes nothing. -/
def makeOptional : Shape → Shape
  | optional s => optional s
  | s => optional s

/-- The names of a record's fields, in order. -/
def fieldNames : Shape → List String
  | record fields => fields.map Prod.fst
  | _ => []

/-- The shape of the first field of a name. -/
def get? (name : String) : Shape → Option Shape
  | record fields => (fields.find? (·.1 == name)).map Prod.snd
  | _ => none

end Shape

/-- A named shape in a record. -/
abbrev Field := String × Shape

/-- Marks a field as one that may be absent. -/
def Field.makeOptional (f : Field) : Field := (f.1, f.2.makeOptional)

end JsonShape
