import JsonShape.Command.Arguments
import JsonShape.Command.Help
import JsonShape.Command.Status
import JsonShape.Survey

/-!
A run of the command: from words, files and the standard input to an exit code, what is written to
the two outputs, and the files afterwards. A run that fails writes nothing but its complaint, except
that a file is emptied before it turns out that the text for it has no encoding.
-/

set_option autoImplicit false

namespace JsonShape.Command

/-- What a run leaves. -/
structure Outcome where
  code : Nat
  stdout : String
  stderr : String
  files : FileTree
  deriving DecidableEq

/-- The standard output as a run meets it: it takes the text of a shape whole, or fails. -/
inductive Outlet
  | ready
  | failing (reason : String)
  deriving DecidableEq

/-- Why a run fails. -/
inductive RunFault
  | survey (fault : SurveyFault)
  | output (fault : OutputFault)
  | pathless
  | unopened (path : Path) (fault : PathFault)
  | unencodable (stray : Stray)
  | unwritten (reason : String)
  deriving DecidableEq

/-- The wording of a fault of a run. -/
def RunFault.message : RunFault → String
  | survey fault => fault.message
  | output fault => fault.message
  | pathless => "expected str, bytes or os.PathLike object, not list"
  | unopened path .nullCharacter => PathFault.nullCharacter.message path
  | unopened path (.unencodable stray) => (PathFault.unencodable stray).message path
  | unopened path fault => Zig.outputMessage (fault.message path)
  | unencodable stray => stray.message
  | unwritten reason => Zig.outputMessage reason

/-- The complaint about a fault of use. -/
def UsageFault.complaint (fault : UsageFault) : String :=
  "json2zig: error: " ++ fault.message ++ "\n"

/-- The standard output takes a text, encoded before it is written. -/
def Outlet.take (outlet : Outlet) (text : Loose) : Except RunFault String :=
  match text.plain?, outlet with
  | .error stray, _ => .error (.unencodable stray)
  | .ok _, .failing reason => .error (.unwritten reason)
  | .ok plain, .ready => .ok plain

/-- A text saved in the file of a path: the files afterwards, and what goes wrong, if anything. The
file is opened, and empty, before the text is encoded. -/
def save (files : FileTree) (path : Path) (text : Loose) : FileTree × Option RunFault :=
  let encoded := text.plain?.map fun plain => plain.toUTF8.toList
  match files.write path (encoded.toOption.getD []) with
  | .error fault => (files, some (.unopened path fault))
  | .ok after =>
    match encoded with
    | .error stray => (after, some (.unencodable stray))
    | .ok _ => (after, none)

namespace Outcome

/-- A run that fails after reporting something, with the files as it leaves them. An interrupted one
has a code of its own. -/
def ofFault (files : FileTree) (reported : String) : RunFault → Outcome
  | .survey (.source .interrupted) =>
    ⟨130, "", reported ++ "\n" ++ statusLine .notice SourceFault.interrupted.message, files⟩
  | fault => ⟨1, "", reported ++ statusLine .failure ("Error: " ++ fault.message), files⟩

end Outcome

namespace Arguments

/-- How the sources are read. -/
def mode (a : Arguments) : Mode := if a.items then .items else .documents

/-- What is put out. -/
def form (a : Arguments) : OutputIn Loose := ⟨a.format, a.name, a.spelling⟩

/-- What is reported of a survey of some number of sources. -/
def report (a : Arguments) (sources : Nat) (s : Survey) : String :=
  let begun := if a.verbose then String.join (s.began.map (begunLine a.mode)) else ""
  match s.outcome with
  | .error _ => begun
  | .ok shape =>
    begun ++ (if a.verbose then inferredLine shape s.merges else "") ++
      (if a.items then itemsLine s.values sources else "")

/-- The sources surveyed: what is reported, and their shape. -/
def survey (a : Arguments) (files : FileTree) (input : Input) :
    String × Except SurveyFault Shape :=
  match Source.ofPaths files (a.files.map Path.ofLoose) with
  | .error fault => ("", .error (.source fault))
  | .ok source =>
    let s := Survey.ofFeed (source.feed files input a.mode)
    (a.report source.names.length s, s.outcome)

/-- The text of a shape delivered, to the standard output or to a file. -/
def deliver (a : Arguments) (files : FileTree) (outlet : Outlet) (reported : String)
    (shape : Shape) : Outcome :=
  match a.form.text? shape with
  | .error fault => .ofFault files reported (.output fault)
  | .ok text =>
    match a.target with
    | .standard =>
      match outlet.take text with
      | .error fault => .ofFault files reported fault
      | .ok taken => ⟨0, taken, reported, files⟩
    | .file none => .ofFault files reported .pathless
    | .file (some path) =>
      match save files path text with
      | (after, some fault) => .ofFault after reported fault
      | (after, none) =>
        let saved := statusLine .success ("Wrote type definition to " ++ path.text)
        ⟨0, "", reported ++ saved, after⟩

/-- Does what a command line asks for. -/
def execute (a : Arguments) (files : FileTree) (input : Input) (outlet : Outlet) : Outcome :=
  if a.version then ⟨0, "", versionLine, files⟩
  else
    match a.survey files input with
    | (reported, .error fault) => .ofFault files reported (.survey fault)
    | (reported, .ok shape) => a.deliver files outlet reported shape

end Arguments

/-- Runs the command. -/
def run (texts : List Loose) (files : FileTree) (input : Input) (outlet : Outlet) : Outcome :=
  match Arguments.ofTexts texts with
  | .error .help => ⟨0, helpText, "", files⟩
  | .error (.misuse fault) => ⟨2, "", fault.complaint, files⟩
  | .ok arguments => arguments.execute files input outlet

end JsonShape.Command
