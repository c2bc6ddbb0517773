import JsonShape.Text.Hex

/-!
Names as Zig identifiers. A word that is no keyword stands as it is; any other name stands between
`@"` and `"`, with backslashes, quotes and control characters escaped, so that it fits on one line.
-/

set_option autoImplicit false

namespace JsonShape.Zig

/-- The reserved words of Zig. -/
def keywords : List String := [
  "addrspace", "align", "allowzero", "and", "anyframe", "anytype", "asm", "async", "await",
  "break", "callconv", "catch", "comptime", "const", "continue", "defer", "else", "enum",
  "errdefer", "error", "export", "extern", "fn", "for", "if", "inline", "linksection", "noalias",
  "noinline", "nosuspend", "opaque", "or", "orelse", "packed", "pub", "resume", "return",
  "struct", "suspend", "switch", "test", "threadlocal", "try", "union", "unreachable",
  "usingnamespace", "var", "volatile", "while"]

/-- A word may begin with an ASCII letter or an underscore. -/
def isWordStart (c : Char) : Bool := c == '_' || c.isAlpha

/-- A word may go on with those and with ASCII digits. -/
def isWordChar (c : Char) : Bool := isWordStart c || c.isDigit

/-- A text is an ASCII word. -/
def isWord : List Char → Bool
  | [] => false
  | c :: rest => isWordStart c && rest.all isWordChar

/-- A name cannot stand as it is. -/
def needsQuotes (name : String) : Bool := !isWord name.toList || keywords.contains name

/-- A character of a quoted name. -/
def escapeChar (c : Char) : List Char :=
  if c = '\\' then ['\\', '\\']
  else if c = '"' then ['\\', '"']
  else if c = '\n' then ['\\', 'n']
  else if c = '\r' then ['\\', 'r']
  else if c = '\t' then ['\\', 't']
  else if c.toNat < 0x20 ∨ c.toNat = 0x7f then '\\' :: 'x' :: Text.hex 2 c.toNat
  else [c]

/-- A name as an identifier. -/
def identifier (name : String) : String :=
  if needsQuotes name then
    String.ofList ('@' :: '"' :: (name.toList.flatMap escapeChar ++ ['"']))
  else name

end JsonShape.Zig
