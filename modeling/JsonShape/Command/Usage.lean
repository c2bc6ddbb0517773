import JsonShape.Command.Switch
import JsonShape.Output

/-!
What can be wrong with the words of a command line.
-/

set_option autoImplicit false

namespace JsonShape

namespace OutputFormat

/-- All formats, in the order in which messages list them. -/
def all : List OutputFormat := [.zig, .yaml, .json]

/-- The name of a format on the command line. -/
def name : OutputFormat → String
  | zig => "zig"
  | yaml => "yaml"
  | json => "json"

/-- The format of a name. -/
def ofName? (t : Loose) : Option OutputFormat := all.find? fun f => Loose.ofString f.name == t

end OutputFormat

namespace Command

/-- Why words are no use of the command. -/
inductive UsageFault
  | ambiguous (word : Loose) (switches : List Switch)
  | missingValue (s : Switch)
  | surplusValue (s : Switch) (value : Loose)
  | unknownFormat (value : Loose)
  | unrecognized (words : List Loose)
  deriving DecidableEq

private def commas (words : List String) : String := String.intercalate ", " words

/-- The wording of a fault of use. -/
def UsageFault.message : UsageFault → String
  | ambiguous word switches =>
    "ambiguous option: " ++ word.shown ++ " could match " ++ commas (switches.map Switch.long)
  | missingValue s => "argument " ++ s.text ++ ": expected one argument"
  | surplusValue s value =>
    "argument " ++ s.text ++ ": ignored explicit argument " ++ value.quoted
  | unknownFormat value =>
    "argument --format: invalid choice: " ++ value.quoted ++ " (choose from " ++
      commas (OutputFormat.all.map fun f => Text.quoted f.name) ++ ")"
  | unrecognized words =>
    "unrecognized arguments: " ++ String.intercalate " " (words.map Loose.shown)

end Command

end JsonShape
