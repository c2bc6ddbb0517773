import JsonShape.Json.Token

/-!
JSON text as tokens, one byte at a time. Blanks are the six of ASCII. Strings are UTF-8: a sequence
of the right shape that encodes no character is noted and read on, any other stray byte ends the
reading. An escaped first surrogate half joins with the escape that follows it, whatever that is,
and stands for a question mark if none follows.
-/

set_option autoImplicit false

namespace JsonShape.Json

/-- The characters of a string so far, latest first, and the first flaw among them. -/
structure Draft where
  chars : List Char
  flaw : Option Flaw
  deriving DecidableEq

namespace Draft

/-- A string without characters. -/
def empty : Draft := ⟨[], none⟩

/-- A string with one more character. -/
def push (d : Draft) (c : Char) : Draft := { d with chars := c :: d.chars }

/-- The length of a string in bytes. -/
def size (d : Draft) : Nat := d.chars.foldl (fun n c => n + c.utf8Size) 0

/-- A string with the character of a code point, whose sequence begins with some byte. The sequence
must have no more bytes than the code point needs. -/
def pushCode (d : Draft) (byte code : Nat) : Draft :=
  let least := if byte < 0xe0 then 0x80 else if byte < 0xf0 then 0x800 else 0x10000
  if least ≤ code && code.isValidChar then d.push (Char.ofNat code)
  else { d with flaw := d.flaw.or (some ⟨byte, d.size⟩) }

/-- A string with the character that an escape by number stands for. -/
def pushEscaped (d : Draft) (code : Nat) : Draft :=
  if code.isValidChar then d.push (Char.ofNat code)
  else { d with flaw := d.flaw.or (some ⟨0xe0 + code / 0x1000, d.size⟩) }

/-- The token of a string. -/
def token (d : Draft) : Token :=
  .text (match d.flaw with
    | none => .ok (String.ofList d.chars.reverse)
    | some f => .error f)

end Draft

/-- The parts of a number, each named for what was read last. -/
inductive NumberPart
  | sign
  | zero
  | whole
  | point
  | fraction
  | mark
  | markSign
  | exponent
  deriving DecidableEq

/-- Where the reading of tokens stands between two bytes. -/
inductive Lexing
  | idle
  | word (rest : List Char) (token : Token)
  | string (d : Draft)
  | escape (d : Draft)
  | hex (d : Draft) (left code : Nat)
  | half (d : Draft) (high : Nat)
  | halfEscape (d : Draft) (high : Nat)
  | halfHex (d : Draft) (high left code : Nat)
  | utf8 (d : Draft) (left code byte : Nat)
  | number (part : NumberPart) (n : NumberToken) (downward : Bool)
  | failed

namespace Lexing

/-- A blank between tokens. -/
def isBlank (c : Char) : Bool :=
  c == ' ' || c == '\t' || c == '\n' || c == '\x0b' || c == '\x0c' || c == '\r'

/-- The value of a hexadecimal digit. -/
def hexValue? (c : Char) : Option Nat :=
  if '0' ≤ c && c ≤ '9' then some (c.toNat - 48)
  else if 'a' ≤ c && c ≤ 'f' then some (c.toNat - 87)
  else if 'A' ≤ c && c ≤ 'F' then some (c.toNat - 55)
  else none

/-- The character that a backslash makes of a letter. -/
def escaped? (c : Char) : Option Char :=
  match c with
  | '"' => some '"'
  | '\\' => some '\\'
  | '/' => some '/'
  | 'b' => some '\x08'
  | 'f' => some '\x0c'
  | 'n' => some '\n'
  | 'r' => some '\r'
  | 't' => some '\t'
  | _ => none

/-- The code point of two surrogate halves; of the second only the low ten bits count. -/
def joinHalves (high low : Nat) : Nat :=
  0x10000 + (high % 0x400) * 0x400 + low % 0x400

/-- A number with one more digit before or after the point. -/
def addDigit (n : NumberToken) (c : Char) : NumberToken :=
  { n with coefficient := n.coefficient * 10 + (c.toNat - 48) }

/-- A number with one more digit after the point. -/
def addPlace (n : NumberToken) (c : Char) : NumberToken :=
  { addDigit n c with places := n.places + 1, integral := false }

/-- A number with one more digit of its exponent. -/
def addExponentDigit (n : NumberToken) (downward : Bool) (c : Char) : NumberToken :=
  let d : Int := (c.toNat - 48 : Nat)
  { n with exponent := n.exponent * 10 + (if downward then -d else d), integral := false }

/-- The first byte of a token. -/
def start (c : Char) : List Token × Lexing :=
  if isBlank c then ([], idle)
  else
    match c with
    | '[' => ([.openList], idle)
    | ']' => ([.closeList], idle)
    | '\x7b' => ([.openDict], idle)
    | '\x7d' => ([.closeDict], idle)
    | ',' => ([.comma], idle)
    | ':' => ([.colon], idle)
    | '"' => ([], string .empty)
    | 'n' => ([], word ['u', 'l', 'l'] .null)
    | 't' => ([], word ['r', 'u', 'e'] (.bool true))
    | 'f' => ([], word ['a', 'l', 's', 'e'] (.bool false))
    | '-' => ([], number .sign ⟨true, 0, 0, 0, true⟩ false)
    | '0' => ([], number .zero ⟨false, 0, 0, 0, true⟩ false)
    | _ =>
      if c.isDigit then ([], number .whole (addDigit ⟨false, 0, 0, 0, true⟩ c) false)
      else ([], failed)

/-- A byte of a string, outside escapes. -/
def stringStep (d : Draft) (c : Char) : List Token × Lexing :=
  let n := c.toNat
  if c = '"' then ([d.token], idle)
  else if c = '\\' then ([], escape d)
  else if n < 0x20 then ([], failed)
  else if n < 0x80 then ([], string (d.push c))
  else if 0xc0 ≤ n ∧ n < 0xe0 then ([], utf8 d 1 (n % 0x20) n)
  else if 0xe0 ≤ n ∧ n < 0xf0 then ([], utf8 d 2 (n % 0x10) n)
  else if 0xf0 ≤ n ∧ n < 0xf8 then ([], utf8 d 3 (n % 0x08) n)
  else ([], failed)

/-- The letter after a backslash that begins no escape by number. -/
def escapeStep (d : Draft) (c : Char) : List Token × Lexing :=
  match escaped? c with
  | some e => ([], string (d.push e))
  | none => ([], failed)

/-- The end of an escape by number: a first surrogate half waits for what follows. -/
def endHex (d : Draft) (code : Nat) : Lexing :=
  if 0xd800 ≤ code ∧ code < 0xdc00 then half d code else string (d.pushEscaped code)

/-- A byte of a number. One that cannot belong to it ends it and starts the next token. -/
def numberStep (part : NumberPart) (n : NumberToken) (downward : Bool) (c : Char) :
    List Token × Lexing :=
  let ended : List Token × Lexing :=
    let next := start c
    (.number n :: next.1, next.2)
  let isMark := c == 'e' || c == 'E'
  match part with
  | .sign =>
    if c = '0' then ([], number .zero n false)
    else if c.isDigit then ([], number .whole (addDigit n c) false)
    else ([], failed)
  | .zero =>
    if c = '.' then ([], number .point n false)
    else if isMark then ([], number .mark n false)
    else ended
  | .whole =>
    if c.isDigit then ([], number .whole (addDigit n c) false)
    else if c = '.' then ([], number .point n false)
    else if isMark then ([], number .mark n false)
    else ended
  | .point => if c.isDigit then ([], number .fraction (addPlace n c) false) else ([], failed)
  | .fraction =>
    if c.isDigit then ([], number .fraction (addPlace n c) false)
    else if isMark then ([], number .mark n false)
    else ended
  | .mark =>
    if c = '+' then ([], number .markSign n false)
    else if c = '-' then ([], number .markSign n true)
    else if c.isDigit then ([], number .exponent (addExponentDigit n false c) false)
    else ([], failed)
  | .markSign =>
    if c.isDigit then ([], number .exponent (addExponentDigit n downward c) downward)
    else ([], failed)
  | .exponent =>
    if c.isDigit then ([], number .exponent (addExponentDigit n downward c) downward) else ended

/-- One byte, as the character of its number: the tokens it completes, and where that leads. -/
def step : Lexing → Char → List Token × Lexing
  | idle, c => start c
  | word [] token, c =>
    let next := start c
    (token :: next.1, next.2)
  | word [last] token, c => if c = last then ([token], idle) else ([], failed)
  | word (next :: rest) token, c => if c = next then ([], word rest token) else ([], failed)
  | string d, c => stringStep d c
  | escape d, c => if c = 'u' then ([], hex d 4 0) else escapeStep d c
  | hex d left code, c =>
    match hexValue? c with
    | none => ([], failed)
    | some v =>
      let code := code * 16 + v
      ([], if left ≤ 1 then endHex d code else hex d (left - 1) code)
  | half d high, c =>
    if c = '\\' then ([], halfEscape d high) else stringStep (d.push '?') c
  | halfEscape d high, c =>
    if c = 'u' then ([], halfHex d high 4 0) else escapeStep (d.push '?') c
  | halfHex d high left code, c =>
    match hexValue? c with
    | none => ([], failed)
    | some v =>
      ([], if left ≤ 1 then string (d.pushEscaped (joinHalves high (code * 16 + v)))
        else halfHex d high (left - 1) (code * 16 + v))
  | utf8 d left code byte, c =>
    let n := c.toNat
    if 0x80 ≤ n ∧ n < 0xc0 then
      let code := code * 0x40 + n % 0x40
      ([], if left ≤ 1 then string (d.pushCode byte code) else utf8 d (left - 1) code byte)
    else ([], failed)
  | number part n downward, c => numberStep part n downward c
  | failed, _ => ([], failed)

end Lexing

/-- The tokens read so far, latest first, and where the reading stands. -/
structure Lexer where
  read : List Token
  state : Lexing

namespace Lexer

/-- The reading before the first byte. -/
def start : Lexer := ⟨[], .idle⟩

/-- The reading after one more character. -/
def take (l : Lexer) (c : Char) : Lexer :=
  let next := l.state.step c
  ⟨next.1.reverse ++ l.read, next.2⟩

end Lexer

/-- The tokens of a text. The text ends as if a blank followed, and an invalid token closes the list
where none can be made out. -/
def tokens (bytes : List UInt8) : List Token :=
  let last := (bytes.foldl (fun l b => l.take (Char.ofNat b.toNat)) Lexer.start).take ' '
  match last.state with
  | .idle => last.read.reverse
  | _ => (.invalid :: last.read).reverse

end JsonShape.Json
