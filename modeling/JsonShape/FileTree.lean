import JsonShape.Path

/-!
Files and directories around a working directory. The directories above it and the root are always
there; of all others only those that are listed.
-/

set_option autoImplicit false

namespace JsonShape

/-- What stands in a directory: a file, one that may be read but not written, one that may be
neither, or a directory. -/
inductive Node
  | file (bytes : List UInt8)
  | readOnly (bytes : List UInt8)
  | sealed
  | directory
  deriving DecidableEq

/-- The name of something in a directory, as its bytes. -/
abbrev FileName := List UInt8

namespace FileName

/-- A slash, which is the name of the root only. -/
def root : FileName := [0x2f]

/-- Two dots, which lead to the directory above. -/
def up : FileName := [0x2e, 0x2e]

/-- The name that a loose text is, each half of it as a byte. -/
def ofLoose (t : Loose) : FileName := t.flatMap Glyph.bytes

/-- The name that a text is. -/
def ofString (s : String) : FileName := ofLoose (.ofString s)

end FileName

/-- A location by the names that lead to it from the working directory. Names of two dots in front
lead above that directory, and a slash in front is the root. -/
abbrev Location := List FileName

/-- Why a path leads to no location, or the location cannot be used. -/
inductive PathFault
  | missing
  | notDirectory
  | isDirectory
  | denied
  | nameTooLong
  | nullCharacter
  | unencodable (stray : Stray)
  deriving DecidableEq

/-- The wording of a fault of a path, with its number if it has one. -/
def PathFault.message (f : PathFault) (p : Path) : String :=
  match f with
  | missing => "[Errno 2] No such file or directory: " ++ p.loose.quoted
  | notDirectory => "[Errno 20] Not a directory: " ++ p.loose.quoted
  | isDirectory => "[Errno 21] Is a directory: " ++ p.loose.quoted
  | denied => "[Errno 13] Permission denied: " ++ p.loose.quoted
  | nameTooLong => "[Errno 36] File name too long: " ++ p.loose.quoted
  | nullCharacter => "embedded null byte"
  | unencodable stray => stray.message

/-- The location is a working directory, above one, or the root. -/
def Location.isBase (location : Location) : Bool :=
  location == [FileName.root] || location.all (· == FileName.up)

/-- The location of the directory around a location. -/
def Location.above (location : Location) : Location :=
  if location = [FileName.root] then location
  else if location.all (· == FileName.up) then location ++ [FileName.up]
  else location.dropLast

/-- The files and directories that are known, each with its location. -/
structure FileTree where
  nodes : List (Location × Node)
  deriving DecidableEq

namespace FileTree

/-- What stands at a location. -/
def node? (t : FileTree) (location : Location) : Option Node :=
  if location.isBase then some .directory else (t.nodes.find? (·.1 == location)).map Prod.snd

/-- The most bytes a name may have. -/
def nameLimit : Nat := 255

/-- The most bytes a path may have. -/
def pathLimit : Nat := 4095

/-- The location that one more name leads to. -/
def step (t : FileTree) (location : Location) (name : FileName) : Except PathFault Location :=
  match t.node? location with
  | none => .error .missing
  | some (.file _) | some (.readOnly _) | some .sealed => .error .notDirectory
  | some .directory =>
    if nameLimit < name.length then .error .nameTooLong
    else .ok (if name = .up then location.above else location ++ [name])

/-- The location that a path leads to. What is wrong with the path itself is found first. -/
def resolve (t : FileTree) (p : Path) : Except PathFault Location :=
  match p.loose.bytes? with
  | .error stray => .error (.unencodable stray)
  | .ok bytes =>
    if 0 ∈ bytes then .error .nullCharacter
    else if pathLimit < bytes.length then .error .nameTooLong
    else (p.names.map FileName.ofLoose).foldlM t.step (if p.root = "" then [] else [FileName.root])

/-- What a path leads to, if anything. -/
def find (t : FileTree) (p : Path) : Except PathFault Node := do
  match t.node? (← t.resolve p) with
  | some node => return node
  | none => throw .missing

/-- The content of the file that a path leads to. -/
def read (t : FileTree) (p : Path) : Except PathFault (List UInt8) := do
  match ← t.find p with
  | .file bytes | .readOnly bytes => return bytes
  | .sealed => throw .denied
  | .directory => throw .isDirectory

/-- The tree with a file of some content at a location, instead of what stands there. -/
def put (t : FileTree) (location : Location) (bytes : List UInt8) : FileTree :=
  if t.nodes.any (·.1 == location) then
    ⟨t.nodes.map fun (p, node) => if p = location then (p, .file bytes) else (p, node)⟩
  else ⟨t.nodes ++ [(location, .file bytes)]⟩

/-- The tree after the file at a path is written anew, or made in a directory that is there. -/
def write (t : FileTree) (p : Path) (bytes : List UInt8) : Except PathFault FileTree := do
  let location ← t.resolve p
  match t.node? location with
  | some .directory => throw .isDirectory
  | some (.readOnly _) | some .sealed => throw .denied
  | _ => return t.put location bytes

/-- The tree with a directory at a location, and all directories on the way. -/
def makeDirectory (t : FileTree) (location : Location) : FileTree :=
  (List.range location.length).foldl (fun t n =>
    let reached := location.take (n + 1)
    if (t.node? reached).isSome then t else ⟨t.nodes ++ [(reached, .directory)]⟩) t

/-- The tree with a file at a location, and all directories on the way. -/
def addFile (t : FileTree) (location : Location) (bytes : List UInt8) : FileTree :=
  (t.makeDirectory location.dropLast).put location bytes

end FileTree

end JsonShape
