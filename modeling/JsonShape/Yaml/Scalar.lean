import JsonShape.Text.Hex
import JsonShape.Yaml.Plain

/-!
Texts as YAML scalars: plain where a reader would take them for the same text, in single quotes
where their characters allow it, and in double quotes with escapes otherwise.
-/

set_option autoImplicit false

namespace JsonShape.Yaml

/-- A line break of YAML. -/
def isBreak (c : Char) : Bool :=
  c == '\n' || c == '\x85' || c == '\u2028' || c == '\u2029'

/-- A character that separates tokens, or a text's end. -/
def isSeparator : Option Char → Bool
  | none => true
  | some c => isBreak c || c == '\x00' || c == ' ' || c == '\t' || c == '\r'

/-- A character that can only be written with an escape. -/
def isSpecial (c : Char) : Bool :=
  let n := c.toNat
  !(c == '\n' || (0x20 ≤ n && n ≤ 0x7e) || n == 0x85 ||
    (((0xa0 ≤ n && n ≤ 0xd7ff) || (0xe000 ≤ n && n ≤ 0xfffd)) && n != 0xfeff) ||
    (0x10000 ≤ n && n < 0x10ffff))

/-- The first character of a text, with the next one, begins something else than plain text. -/
def isIndicatorFirst (c : Char) (next : Option Char) : Bool :=
  "#,[]\x7b\x7d&*!|>'\"%@\x60".toList.contains c ||
    ((c == '?' || c == ':' || c == '-') && isSeparator next)

/-- Neighbouring characters after the first, at which plain text would end: a colon before a
separator or a number sign after one. -/
def hasInnerIndicator : List Char → Bool
  | a :: b :: rest =>
    (b == ':' && isSeparator rest.head?) || (b == '#' && isSeparator (some a)) ||
      hasInnerIndicator (b :: rest)
  | _ => false

/-- A blank next to a line break. -/
def hasBlankAtBreak : List Char → Bool
  | a :: b :: rest =>
    (a == ' ' && isBreak b) || (isBreak a && b == ' ') || hasBlankAtBreak (b :: rest)
  | _ => false

/-- A blank or a line break. -/
def isBlankOrBreak (c : Char) : Bool := c == ' ' || isBreak c

/-- A text whose characters must be escaped. -/
def needsEscapes (cs : List Char) : Bool := cs.any isSpecial || hasBlankAtBreak cs

/-- A text that cannot be plain. -/
def needsQuotes (s : String) : Bool :=
  let cs := s.toList
  readsAsOther s || s.startsWith "---" || s.startsWith "..." ||
    (match cs with
      | [] => false
      | c :: rest => isIndicatorFirst c rest.head?) ||
    hasInnerIndicator cs ||
    (cs.head?.any isBlankOrBreak) || (cs.getLast?.any isBlankOrBreak) || cs.any isBreak

/-- A character between double quotes. -/
def escapeChar (c : Char) : List Char :=
  let n := c.toNat
  match c with
  | '\x00' => ['\\', '0']
  | '\x07' => ['\\', 'a']
  | '\x08' => ['\\', 'b']
  | '\t' => ['\\', 't']
  | '\n' => ['\\', 'n']
  | '\x0b' => ['\\', 'v']
  | '\x0c' => ['\\', 'f']
  | '\r' => ['\\', 'r']
  | '\x1b' => ['\\', 'e']
  | '"' => ['\\', '"']
  | '\\' => ['\\', '\\']
  | '\x85' => ['\\', 'N']
  | '\u2028' => ['\\', 'L']
  | '\u2029' => ['\\', 'P']
  | _ =>
    if (0x20 ≤ n && n ≤ 0x7e) ||
        (((0xa0 ≤ n && n ≤ 0xd7ff) || (0xe000 ≤ n && n ≤ 0xfffd)) && n != 0xfeff) then [c]
    else if n ≤ 0xff then '\\' :: 'x' :: Text.upperHex 2 n
    else if n ≤ 0xffff then '\\' :: 'u' :: Text.upperHex 4 n
    else '\\' :: 'U' :: Text.upperHex 8 n

/-- A text between single quotes, inside a block of some indentation. A line that a break ends is
folded by readers, so a run that begins with a plain line break has one more of them, and what
follows a run is indented. -/
def singleQuotedBody (indent : Nat) : Bool → List Char → List Char
  | inRun, [] => if inRun then List.replicate indent ' ' else []
  | inRun, c :: rest =>
    if isBreak c then
      (if c = '\n' && !inRun then ['\n', '\n'] else [c]) ++ singleQuotedBody indent true rest
    else
      (if inRun then List.replicate indent ' ' else []) ++
        (if c = '\'' then ['\'', '\''] else [c]) ++ singleQuotedBody indent false rest

/-- A text as a scalar inside a block of some indentation. -/
def scalar (indent : Nat) (s : String) : String :=
  let cs := s.toList
  if needsEscapes cs then String.ofList ('"' :: (cs.flatMap escapeChar ++ ['"']))
  else if needsQuotes s then String.ofList ('\'' :: (singleQuotedBody indent false cs ++ ['\'']))
  else s

/-- A text can stand before a colon as the name of an entry. -/
def isSimpleKey (s : String) : Bool :=
  !s.isEmpty && s.length ≤ 122 && !s.toList.any isBreak

end JsonShape.Yaml
