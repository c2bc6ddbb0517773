import JsonShape.FileTree
import JsonShape.Json.Reading

/-!
Where documents come from: files, or the standard input when no path is given. All paths are checked
before any file is opened, and all files are opened before the first value is read.
-/

set_option autoImplicit false

namespace JsonShape

/-- What a reader of the standard input meets. -/
inductive Input
  | bytes (content : List UInt8)
  | failing (reason : String)
  | interrupted
  deriving DecidableEq

/-- Why a source brings no further value. -/
inductive SourceFault
  | absent (path : Path)
  | unusable (path : Path) (fault : PathFault)
  | unreadable (name : String) (fault : Json.ReadFault)
  | failing (reason : String)
  | interrupted
  deriving DecidableEq

/-- The wording of a fault of a source. -/
def SourceFault.message : SourceFault → String
  | absent path => "File not found: " ++ path.text
  | unusable path fault => fault.message path
  | unreadable name .malformed => "failed to parse json from " ++ name ++ ": <diagnostic>"
  | unreadable _ (.undecodable flaw) => flaw.message
  | unreadable _ .numberOutOfRange => "[<class 'decimal.InvalidOperation'>]"
  | unreadable _ (.tooManyDigits count) =>
    digitsMessage (": value has " ++ toString count ++ " digits")
  | failing reason => reason
  | interrupted => "Interrupted."

/-- Whole documents are read, or their items one by one. -/
inductive Mode
  | documents
  | items
  deriving DecidableEq

/-- What happens while sources are read: one of them is begun, or brings a value. -/
inductive Event
  | began (name : String)
  | value (v : Value)

/-- The events of some sources up to the first fault, and that fault, if any. -/
structure Feed where
  events : List Event
  fault : Option SourceFault

namespace Feed

/-- The values of a feed, in order. -/
def values (f : Feed) : List Value :=
  f.events.filterMap fun
    | .value v => some v
    | .began _ => none

/-- The values of one input up to a fault, and that fault, if any. -/
def ofInput (mode : Mode) (name : String) : Input → List Value × Option SourceFault
  | .failing reason => ([], some (.failing reason))
  | .interrupted => ([], some .interrupted)
  | .bytes content =>
    match mode with
    | .documents =>
      match Json.document? content with
      | .ok v => ([v], none)
      | .error fault => ([], some (.unreadable name fault))
    | .items =>
      let (vs, fault) := Json.items content
      (vs, fault.map (.unreadable name))

/-- The feed of some inputs under their names. -/
def ofInputs (mode : Mode) : List (String × Input) → Feed
  | [] => ⟨[], none⟩
  | (name, input) :: rest =>
    match ofInput mode name input with
    | (vs, some fault) => ⟨.began name :: vs.map .value, some fault⟩
    | (vs, none) =>
      let later := ofInputs mode rest
      ⟨.began name :: (vs.map .value ++ later.events), later.fault⟩

end Feed

/-- Some paths to read from, none for the standard input. -/
structure Source where
  paths : List Path
  deriving DecidableEq

namespace Source

/-- The name of the standard input. -/
def inputName : String := "<stdin>"

/-- A source for some paths, if each leads to something. -/
def ofPaths (files : FileTree) (paths : List Path) : Except SourceFault Source := do
  paths.forM fun p =>
    match files.find p with
    | .ok _ => return
    | .error .nameTooLong => throw (.unusable p .nameTooLong)
    | .error _ => throw (.absent p)
  return ⟨paths⟩

/-- A source for some texts of paths. -/
def ofTexts (files : FileTree) (texts : List String) : Except SourceFault Source :=
  ofPaths files (texts.map Path.ofString)

/-- The names of the inputs. -/
def names (s : Source) : List String :=
  if s.paths = [] then [inputName] else s.paths.map Path.text

/-- The opened inputs, if each path can be opened. -/
def inputs (s : Source) (files : FileTree) (input : Input) :
    Except SourceFault (List (String × Input)) :=
  if s.paths = [] then .ok [(inputName, input)]
  else s.paths.mapM fun p =>
    match files.read p with
    | .ok bytes => .ok (p.text, .bytes bytes)
    | .error fault => .error (.unusable p fault)

/-- The feed of a source. -/
def feed (s : Source) (files : FileTree) (input : Input) (mode : Mode) : Feed :=
  match s.inputs files input with
  | .ok inputs => Feed.ofInputs mode inputs
  | .error fault => ⟨[], some fault⟩

end Source

end JsonShape
