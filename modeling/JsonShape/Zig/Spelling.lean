import JsonShape.Zig.Script

/-!
The spelling of primitive types in Zig, with overrides by name. A spelling may be taken away; a type
without one cannot be written.
-/

set_option autoImplicit false

namespace JsonShape.Zig

/-- How each primitive type is spelled in some kind of text, if at all. -/
structure SpellingIn (α : Type) [Script α] where
  string : Option α := some (Script.ofString "[]const u8")
  integer : Option α := some (Script.ofString "i64")
  float : Option α := some (Script.ofString "f64")
  bool : Option α := some (Script.ofString "bool")
  any : Option α := some (Script.ofString "std.json.Value")
  unknown : Option α := some (Script.ofString "UNKNOWN")
  deriving DecidableEq

/-- How each primitive type is spelled in plain text. -/
abbrev Spelling := SpellingIn String

/-- Sets the spelling of one name, or takes it away; other names change nothing. -/
def SpellingIn.set {α : Type} [Script α] (s : SpellingIn α) (name : String) (value : Option α) :
    SpellingIn α :=
  match name with
  | "string" => { s with string := value }
  | "integer" => { s with integer := value }
  | "float" => { s with float := value }
  | "bool" => { s with bool := value }
  | "any" => { s with any := value }
  | "unknown" => { s with unknown := value }
  | _ => s

namespace Spelling

/-- The names by which a spelling can be overridden. -/
def names : List String := ["string", "integer", "float", "bool", "any", "unknown"]

/-- Sets the spellings that are given; a name without a value keeps its spelling. -/
def override (s : Spelling) (given : List (String × Option String)) : Spelling :=
  given.foldl (fun s (name, value) => if value.isSome then s.set name value else s) s

/-- The given names that are not those of spellings, in order. -/
def unknownNames (given : List (String × Option String)) : List String :=
  ((given.map Prod.fst).filter fun name => !names.contains name).mergeSort fun a b => a ≤ b

/-- The wording for names that are not those of spellings. -/
def unknownNamesMessage (unexpected : List String) : String :=
  "Unknown render options: " ++ String.intercalate ", " unexpected

end Spelling

end JsonShape.Zig
