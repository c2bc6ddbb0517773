/-!
What the command says of itself.
-/

set_option autoImplicit false

namespace JsonShape.Command

/-- The line that tells the version. -/
def versionLine : String := "json2zig version 0.1.0\n"

private def usageLine : String :=
  "usage: json2zig [-h] [--version] [-s STRING] [-i INTEGER] [-f FLOAT] [-b BOOL] [-a ANY] " ++
    "[-u UNKNOWN] [--items] [-n NAME] [--format \x7bzig,yaml,json\x7d] [-o OUTPUT] [-v] [files ...]"

private def fileLines : List String := [
  "positional arguments:",
  "  files                 JSON files to read (default: stdin). " ++
    "Several files are merged into one type"]

private def optionLines : List String := [
  "options:",
  "  -h, --help            show this help message and exit",
  "  --version             Show version and exit",
  "  --items               Stream the elements of each top-level array and infer " ++
    "their common type",
  "  -n NAME, --name NAME  Emit a named declaration: pub const NAME = ...;",
  "  --format \x7bzig,yaml,json\x7d",
  "                        Output format; yaml and json dump the inferred schema " ++
    "with ranges (default: zig)",
  "  -o OUTPUT, --output OUTPUT",
  "                        Output path. If omitted, writes to stdout",
  "  -v, --verbose         Enable debug logging"]

private def spellingLines : List String := [
  "type spellings:",
  "  -s STRING, --string STRING",
  "                        Type to use for strings",
  "  -i INTEGER, --int INTEGER",
  "                        Type to use for integers",
  "  -f FLOAT, --float FLOAT",
  "                        Type to use for floats",
  "  -b BOOL, --bool BOOL  Type to use for bools",
  "  -a ANY, --any ANY     Type to use for fields of multiple types",
  "  -u UNKNOWN, --unknown UNKNOWN",
  "                        Type to use for fields of unknown type"]

/-- The help text: the use of the command, what it does, and its options by group. -/
def helpText : String :=
  let first := [usageLine, "", "Infer a Zig type declaration from JSON documents", ""]
  let lines := first ++ fileLines ++ [""] ++ optionLines ++ [""] ++ spellingLines
  String.join (lines.map (· ++ "\n"))

end JsonShape.Command
