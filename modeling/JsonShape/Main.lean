import JsonShape.Command.Run

/-!
The program: it reads what the command line needs, runs the command on it, and writes what the run
leaves.
-/

set_option autoImplicit false

namespace JsonShape

/-- All that is left of the standard input. -/
private partial def readAll (stream : IO.FS.Stream) (held : ByteArray) : IO ByteArray := do
  let more ← stream.read 65536
  if more.isEmpty then return held else readAll stream (held ++ more)

/-- The standard input as a run meets it. -/
private def readInput : IO Input := do
  try
    return .bytes (← readAll (← IO.getStdin) .empty).toList
  catch fault => return .failing (toString fault)

/-- The number by which the system reports that a file is a directory. -/
private def directoryCode : UInt32 := 21

/-- The paths that a run may read or write. -/
private def pathsOf (a : Command.Arguments) : List Path :=
  if a.version then []
  else
    match a.target with
    | .file (some path) => a.files.map Path.ofLoose ++ [path]
    | _ => a.files.map Path.ofLoose

/-- The bytes of a file as it stands in its place: it may be written if it can be opened for that.
-/
private def nodeOf (path : String) (bytes : List UInt8) : IO Node := do
  try
    let _ ← IO.FS.Handle.mk path .append
    return .file bytes
  catch _ => return .readOnly bytes

/-- Adds what stands at the places that a path goes through, as far as there is something. -/
private def lookAlong (path : Path) (files : FileTree) : IO FileTree := do
  let mut files := files
  for count in List.range path.names.length do
    let way : Path := ⟨path.root, path.names.take (count + 1)⟩
    match files.resolve way with
    | .error _ => return files
    | .ok place =>
      if (files.node? place).isNone then
        try
          let bytes ← IO.FS.readBinFile way.text
          let node ← nodeOf way.text bytes.toList
          files := ⟨files.nodes ++ [(place, node)]⟩
        catch
          | .inappropriateType _ code _ =>
            if code = directoryCode then files := files.makeDirectory place else return files
          | .noFileOrDirectory .. => return files
          | .permissionDenied .. => files := ⟨files.nodes ++ [(place, .sealed)]⟩
          | fault => throw fault
  return files

/-- The path of a location. -/
private def pathOf (place : Location) : String :=
  let names := if place.head? = some FileName.root then [] :: place.drop 1 else place
  let bytes := List.intercalate FileName.root names
  (String.fromUTF8? ⟨bytes.toArray⟩).getD ""

/-- Writes the files in which one tree differs from an earlier one. -/
private def writeChanges (before after : FileTree) : IO Unit :=
  after.nodes.forM fun (place, node) => do
    match node with
    | .file bytes =>
      if before.node? place ≠ some node then IO.FS.writeBinFile (pathOf place) ⟨bytes.toArray⟩
    | _ => return

end JsonShape

open JsonShape in
/-- Runs the command on the files and the standard input that there are. -/
def main (words : List String) : IO UInt32 := do
  let texts := words.map Loose.ofString
  let arguments := (Command.Arguments.ofTexts texts).toOption
  let wanted := (arguments.map pathsOf).getD []
  let files ← wanted.foldlM (fun files path => lookAlong path files) ⟨[]⟩
  let reads := (arguments.map fun a => !a.version && a.files.isEmpty).getD false
  let input ← if reads then readInput else pure (.bytes [])
  let stdout ← IO.getStdout
  let outcome ←
    try
      let outcome := Command.run texts files input .ready
      stdout.putStr outcome.stdout
      stdout.flush
      pure outcome
    catch fault => pure (Command.run texts files input (.failing (toString fault)))
  writeChanges files outcome.files
  IO.eprint outcome.stderr
  return outcome.code.toUInt32
