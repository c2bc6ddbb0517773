import JsonShape.Message
import JsonShape.Source
import JsonShape.Text.Grouped
import JsonShape.Text.Markup
import JsonShape.Text.Shown
import JsonShape.Text.Wrapped

/-!
The lines that a run reports beside its output. Status lines are styled markup; lines of the log are
plain.
-/

set_option autoImplicit false

namespace JsonShape.Command

/-- What a status line is about. -/
inductive Tone
  | failure
  | success
  | notice
  deriving DecidableEq

/-- The style of a tone. -/
def Tone.style : Tone → String
  | failure => "bold red"
  | success => "bold green"
  | notice => "yellow"

/-- The columns of a status line, beyond which it is broken. -/
def lineLimit : Nat := 4000

/-- The status line of a message. -/
def statusLine (tone : Tone) (message : String) : String :=
  let markup := Text.Markup.styled tone.style (Text.Markup.escape message.toList)
  String.ofList (Text.wrapped lineLimit (Text.shown (Text.Markup.read markup))) ++ "\n"

/-- A line of the log, without blanks at its end. -/
def logLine (message : String) : String :=
  "DEBUG    " ++ String.ofList (Text.trimEnd (Text.shown message.toList)) ++ "\n"

/-- A source is begun. -/
def begunLine (mode : Mode) (name : String) : String :=
  logLine <| match mode with
    | .documents => "Reading document from " ++ name
    | .items => "Streaming array items from " ++ name

/-- What the log calls a shape. -/
def shapeName : Shape → String
  | .unknown => "UnknownType"
  | .any => "AnyType"
  | .bool => "BoolType"
  | .int _ => "IntegerType"
  | .float _ => "FloatType"
  | .text _ => "StringType"
  | .list _ _ => "ArrayType"
  | .record _ => "ObjectType"
  | .optional _ => "OptionalType"
  | .foreign .null => "NoneType"
  | .foreign (.int _) => "int"
  | .foreign (.text _) => "str"

/-- A shape is found. -/
def inferredLine (shape : Shape) (merges : Nat) : String :=
  logLine ("Inferred root " ++ shapeName shape ++ " after " ++ toString merges ++ " merges")

/-- Some items of some sources are taken. -/
def itemsLine (items sources : Nat) : String :=
  if items = 0 then statusLine .notice "No array items found in the input."
  else
    statusLine .success
      ("Merged " ++ Text.grouped items ++ " items from " ++ toString sources ++ " source(s)")

end JsonShape.Command
