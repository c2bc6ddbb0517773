import JsonShape.Command.Word
import JsonShape.Path

/-!
The words of a command line as what they ask for. Words are taken from left to right; the files are
one group of plain words, and of several values for one setting the last holds. A value of two
dashes is taken away, so that a setting may end up without one.
-/

set_option autoImplicit false

namespace JsonShape.Command

/-- Where the text goes: to the standard output, or to the file of a path, which may be missing. -/
inductive Target
  | standard
  | file (path : Option Path)
  deriving DecidableEq

/-- What a command line asks for. -/
structure Arguments where
  version : Bool := false
  items : Bool := false
  verbose : Bool := false
  files : List Loose := []
  name : Option Loose := none
  format : OutputFormat := .zig
  target : Target := .standard
  spelling : Zig.SpellingIn Loose := {}
  deriving DecidableEq

/-- Why there is nothing to be done for a command line: it asks for help, or is faulty. -/
inductive Halt
  | help
  | misuse (fault : UsageFault)
  deriving DecidableEq

/-- How one word ends: with nothing, with a value for a setting, or with a setting whose value is
the next word. -/
inductive Ending
  | none
  | value (s : Setting) (text : Loose)
  | awaited (switch : Switch) (s : Setting)
  deriving DecidableEq

/-- The flags that one word raises, and how it ends. -/
structure Cluster where
  flags : List Flag
  ending : Ending
  deriving DecidableEq

namespace Switch

/-- A switch and the letters behind its own. Those behind a flag are switches themselves, those
behind a setting its value. -/
def cluster (switch : Switch) : Loose → Except UsageFault Cluster
  | [] =>
    match switch.effect with
    | .flag f => .ok ⟨[f], .none⟩
    | .setting s => .ok ⟨[], .awaited switch s⟩
  | letter :: rest =>
    match switch.effect with
    | .setting s => .ok ⟨[], .value s (letter :: rest)⟩
    | .flag f =>
      match ofLetter? letter with
      | none => .error (.surplusValue switch (letter :: rest))
      | some next => do
        let others ← next.cluster rest
        return { others with flags := f :: others.flags }

/-- What a switch asks for with what follows it in its own word. -/
def request (switch : Switch) : Tail → Except UsageFault Cluster
  | .none => switch.cluster []
  | .letters t => switch.cluster t
  | .value t =>
    match switch.effect with
    | .setting s => .ok ⟨[], .value s t⟩
    | .flag _ => .error (.surplusValue switch t)

end Switch

namespace Arguments

/-- Raises a flag. -/
def raise (a : Arguments) : Flag → Except Halt Arguments
  | .help => .error .help
  | .version => .ok { a with version := true }
  | .items => .ok { a with items := true }
  | .verbose => .ok { a with verbose := true }

/-- Gives a setting its value, or leaves it without one: a name is empty then, and the format the
usual one. -/
def set (a : Arguments) (s : Setting) (value : Option Loose) : Except Halt Arguments :=
  match s with
  | .spelling name => .ok { a with spelling := a.spelling.set name value }
  | .name => .ok { a with name := some (value.getD []) }
  | .output => .ok { a with target := .file (value.map Path.ofLoose) }
  | .format =>
    match value with
    | none => .ok { a with format := .zig }
    | some text =>
      match OutputFormat.ofName? text with
      | some format => .ok { a with format }
      | none => .error (.misuse (.unknownFormat text))

end Arguments

/-- How far the group of files has come. -/
inductive FileGroup
  | ahead
  | here
  | behind
  deriving DecidableEq

/-- A command line up to some word: what it asks for, and the words that have no meaning. -/
structure Intake where
  arguments : Arguments
  group : FileGroup
  strays : List Loose

namespace Intake

/-- Before the first word. -/
def start : Intake := ⟨{}, .ahead, []⟩

/-- Takes a word as meaningless. -/
def stray (p : Intake) (text : Loose) : Intake := { p with strays := p.strays ++ [text] }

/-- Takes a plain word: a file, if the group of files is not over. -/
def plain (p : Intake) (text : Loose) : Intake :=
  if p.group = .behind then p.stray text
  else
    { p with
      group := .here
      arguments := { p.arguments with files := p.arguments.files ++ [text] } }

/-- Takes the separator, which belongs to the group of files. -/
def separate (p : Intake) : Intake :=
  if p.group = .behind then p.stray (.ofString "--") else { p with group := .here }

/-- Comes to a switch, where a group of files ends. -/
def endGroup (p : Intake) : Intake := if p.group = .here then { p with group := .behind } else p

/-- The value that a text gives to a setting: two dashes are none. -/
def valueOf (text : Loose) : Option Loose := if text = .ofString "--" then none else some text

/-- Does what one word asks for, given the value of a setting that awaits one. -/
def perform (p : Intake) (cluster : Cluster) (awaited : Option Loose) : Except Halt Intake := do
  let raised ← cluster.flags.foldlM Arguments.raise p.arguments
  match cluster.ending, awaited with
  | .value s text, _ => return { p with arguments := ← raised.set s (valueOf text) }
  | .awaited _ s, some text => return { p with arguments := ← raised.set s (valueOf text) }
  | _, _ => return { p with arguments := raised }

/-- Takes all words. A setting takes the next word as its value if that is a plain one. -/
def take (p : Intake) : List Word → Except Halt Intake
  | [] => .ok p
  | .plain text :: rest => take (p.plain text) rest
  | .separator :: rest => take p.separate rest
  | .unknown text :: rest => take (p.endGroup.stray text) rest
  | .switch switch tail :: rest =>
    match switch.request tail with
    | .error fault => .error (.misuse fault)
    | .ok cluster =>
      match cluster.ending, rest with
      | .awaited _ _, .plain text :: later => do
        take (← p.endGroup.perform cluster (some text)) later
      | .awaited last _, _ => .error (.misuse (.missingValue last))
      | _, rest => do take (← p.endGroup.perform cluster none) rest
termination_by words => words.length

end Intake

/-- What the texts of a command line ask for, if there is anything to be done. -/
def Arguments.ofTexts (texts : List Loose) : Except Halt Arguments := do
  let words ← (Word.ofTexts texts).mapError .misuse
  let intake ← Intake.start.take words
  if intake.strays ≠ [] then throw (.misuse (.unrecognized intake.strays))
  return intake.arguments

end JsonShape.Command
