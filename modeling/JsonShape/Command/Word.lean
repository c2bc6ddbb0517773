import JsonShape.Command.Usage
import JsonShape.Text.Digit
import JsonShape.Text.Pattern

/-!
The words of a command line: plain ones, switches, and the two dashes behind which all words are
plain.
-/

set_option autoImplicit false

namespace JsonShape.Command

open Text (Pattern)

/-- What follows a switch in its own word: nothing, more letters behind its letter, or a value. -/
inductive Tail
  | none
  | letters (t : Loose)
  | value (t : Loose)
  deriving DecidableEq

/-- What follows the word of a switch. -/
def Tail.ofWord : Loose → Tail
  | .char '=' :: t => .value t
  | _ => .none

/-- What follows the letter of a switch. An equals sign in front of more letters says nothing. -/
def Tail.ofLetter : Loose → Tail
  | [] => .none
  | [.char '='] => .value []
  | .char '=' :: t => .letters t
  | t => .letters t

/-- A word of a command line. -/
inductive Word
  | plain (text : Loose)
  | separator
  | switch (s : Switch) (tail : Tail)
  | unknown (text : Loose)
  deriving DecidableEq

namespace Word

/-- A negative decimal number, perhaps with the end of a line. -/
def negativeNumber : Pattern :=
  let digit := Pattern.one Text.isDecimalDigit
  Pattern.seq [.word "-",
    .anyOf [.oneOrMore digit, .seq [.many digit, .word ".", .oneOrMore digit]],
    .maybe (.word "\n")]

/-- A text is a negative number. -/
def isNegativeNumber (text : Loose) : Bool :=
  match text.plain? with
  | .ok s => negativeNumber.matchesAll s.toList
  | .error _ => false

/-- A word with a dash in front that names no switch. Numbers and words with blanks are plain. -/
def ofDashed (text : Loose) : Word :=
  if isNegativeNumber text ∨ .char ' ' ∈ text then plain text else unknown text

/-- The word that a text is, if it means at most one switch. -/
def ofText (text : Loose) : Except UsageFault Word :=
  match text with
  | [.char '-', .char '-'] => .ok separator
  | .char '-' :: .char '-' :: rest =>
    match Switch.meant (rest.takeWhile (· != .char '=')) with
    | [] => .ok (ofDashed text)
    | [s] => .ok (switch s (.ofWord (rest.dropWhile (· != .char '='))))
    | several => .error (.ambiguous text several)
  | .char '-' :: letter :: rest =>
    match Switch.ofLetter? letter with
    | some s => .ok (switch s (.ofLetter rest))
    | none => .ok (ofDashed text)
  | _ => .ok (plain text)

/-- The words that some texts are. -/
def ofTexts : List Loose → Except UsageFault (List Word)
  | [] => .ok []
  | text :: rest => do
    match ← ofText text with
    | separator => return separator :: rest.map plain
    | word => return word :: (← ofTexts rest)

end Word

end JsonShape.Command
