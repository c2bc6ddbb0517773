import JsonShape.Schema

/-!
Schemas as JSON text: two blanks of indentation a level, one entry a line, and characters beyond
ASCII as they are.
-/

set_option autoImplicit false

namespace JsonShape.Schema.Json

/-- Floats in JSON text; infinities and NaN are words. -/
def floatStyle : FloatStyle := ⟨false, "Infinity", "NaN"⟩

/-- A character of a JSON string. -/
def escapeChar (c : Char) : List Char :=
  if c = '"' then ['\\', '"']
  else if c = '\\' then ['\\', '\\']
  else if c = '\n' then ['\\', 'n']
  else if c = '\r' then ['\\', 'r']
  else if c = '\t' then ['\\', 't']
  else if c = '\x08' then ['\\', 'b']
  else if c = '\x0c' then ['\\', 'f']
  else if c.toNat < 0x20 then '\\' :: 'u' :: Text.hex 4 c.toNat
  else [c]

/-- A text as a JSON string. -/
def string (s : String) : String := String.ofList ('"' :: (s.toList.flatMap escapeChar ++ ['"']))

/-- The start of a line at some depth. -/
def newline (depth : Nat) : String := String.ofList ('\n' :: List.replicate (2 * depth) ' ')

mutual

/-- A schema at some depth. -/
def textAt : Nat → Schema → String
  | _, .text s => string s
  | _, .int n => toString n
  | _, .float x => x.text floatStyle
  | _, .entries [] => "\x7b\x7d"
  | depth, .entries ((name, value) :: rest) =>
    "\x7b" ++ newline (depth + 1) ++ string name ++ ": " ++ textAt (depth + 1) value ++
      entriesAt (depth + 1) rest ++ newline depth ++ "\x7d"

/-- Further entries at some depth, each after a comma. -/
def entriesAt : Nat → List (String × Schema) → String
  | _, [] => ""
  | depth, (name, value) :: rest =>
    "," ++ newline depth ++ string name ++ ": " ++ textAt depth value ++ entriesAt depth rest

end

/-- A schema as a JSON document that ends in a line break. -/
def document (schema : Schema) : String := textAt 0 schema ++ "\n"

end JsonShape.Schema.Json
