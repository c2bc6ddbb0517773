import JsonShape.Schema
import JsonShape.Yaml.Scalar

/-!
Schemas as YAML block text, with two blanks of indentation a level. A name that cannot stand before
a colon takes a line of its own after a question mark, and its value follows after a colon.
-/

set_option autoImplicit false

namespace JsonShape.Schema.Yaml

open JsonShape.Yaml (scalar isSimpleKey)

/-- Floats in YAML: a mantissa has a point, infinities and NaN are words with a point. -/
def floatStyle : FloatStyle := ⟨true, ".inf", ".nan"⟩

/-- The start of a line at some indentation. -/
def newline (indent : Nat) : String := String.ofList ('\n' :: List.replicate indent ' ')

mutual

/-- A value after the colon of a simple name, in a block of some indentation. -/
def valueAt : Nat → Schema → String
  | indent, .text s => " " ++ scalar (indent + 2) s
  | _, .int n => " " ++ toString n
  | _, .float x => " " ++ x.text floatStyle
  | _, .entries [] => " \x7b\x7d"
  | indent, .entries (entry :: rest) =>
    newline (indent + 2) ++ entriesAt (indent + 2) (entry :: rest)

/-- A value after the colon that starts a line, in a block of some indentation. -/
def blockAt : Nat → Schema → String
  | indent, .text s => scalar (indent + 2) s
  | _, .int n => toString n
  | _, .float x => x.text floatStyle
  | _, .entries [] => "\x7b\x7d"
  | indent, .entries (entry :: rest) => entriesAt (indent + 2) (entry :: rest)

/-- Entries of a block, the first of them on the line already begun. -/
def entriesAt : Nat → List (String × Schema) → String
  | _, [] => ""
  | indent, (name, value) :: rest =>
    (if isSimpleKey name then scalar (indent + 2) name ++ ":" ++ valueAt indent value
      else "? " ++ scalar (indent + 2) name ++ newline indent ++ ": " ++ blockAt indent value) ++
      (if rest.isEmpty then "" else newline indent ++ entriesAt indent rest)

end

/-- A schema as a YAML document that ends in a line break. -/
def document : Schema → String
  | .entries (entry :: rest) => entriesAt 0 (entry :: rest) ++ "\n"
  | schema => blockAt 0 schema ++ "\n"

end JsonShape.Schema.Yaml
