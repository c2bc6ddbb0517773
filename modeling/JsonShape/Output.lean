import JsonShape.Schema.Json
import JsonShape.Schema.Yaml
import JsonShape.Zig.Writing

/-!
The forms in which a shape is put out: a Zig type, or its schema as YAML or JSON.
-/

set_option autoImplicit false

namespace JsonShape

/-- The language of the output. -/
inductive OutputFormat
  | zig
  | yaml
  | json
  deriving DecidableEq

/-- What is put out, in some kind of text. The name of a declaration and the spellings matter for
Zig only. -/
structure OutputIn (α : Type) [Zig.Script α] where
  format : OutputFormat
  name : Option α
  spelling : Zig.SpellingIn α

/-- What is put out in plain text. -/
abbrev Output := OutputIn String

/-- Why there is nothing to put out. -/
inductive OutputFault
  | emptyName
  | write (f : Zig.WriteFault)
  | schema (f : SchemaFault)
  | tooManyDigits
  deriving DecidableEq

/-- The wording of a fault of output. -/
def OutputFault.message : OutputFault → String
  | emptyName => "--name must not be empty"
  | write f => f.message
  | schema f => f.message
  | tooManyDigits => tooManyDigitsMessage

/-- The schema of a shape in a data format, if all its integers can be written out. -/
def Shape.dump? (document : Schema → String) (shape : Shape) : Except OutputFault String := do
  let schema ← shape.schema?.mapError .schema
  if schema.isLegible then return document schema else throw .tooManyDigits

/-- The text of a shape. -/
def OutputIn.text? {α : Type} [Zig.Script α] [DecidableEq α] (output : OutputIn α) (shape : Shape) :
    Except OutputFault α :=
  match output.format with
  | .yaml => (shape.dump? Schema.Yaml.document).map Zig.Script.ofString
  | .json => (shape.dump? Schema.Json.document).map Zig.Script.ofString
  | .zig =>
    if output.name = some (Zig.Script.ofString "") then .error .emptyName
    else (Zig.write output.spelling output.name shape).mapError .write

end JsonShape
