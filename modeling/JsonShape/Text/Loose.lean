import JsonShape.Text.Quoted

/-!
Loose text: characters, and halves of surrogate pairs that stand alone. Words of a command line are
loose, for a half stands there for a byte that belongs to no character. Text with a half in it has
no UTF-8 form, and messages show the half by its number.
-/

set_option autoImplicit false

namespace JsonShape

/-- A character, or half of a surrogate pair that stands alone, counted from the first one. -/
inductive Glyph
  | char (c : Char)
  | half (n : Fin 0x800)
  deriving DecidableEq

namespace Glyph

/-- The character that a glyph is, if it is one. -/
def char? : Glyph → Option Char
  | char c => some c
  | half _ => none

/-- A half by its number, behind a backslash. -/
def numbered (n : Fin 0x800) : List Char := '\\' :: 'u' :: Text.hex 4 (0xd800 + n)

/-- A glyph as it is shown. -/
def shown : Glyph → List Char
  | char c => [c]
  | half n => numbered n

/-- A glyph in a text between two quotes. -/
def quoted (quote : Char) : Glyph → List Char
  | char c => Text.quotedChar quote c
  | half n => numbered n

/-- A half stands for a byte that is not ASCII. -/
def isByte (n : Fin 0x800) : Bool := 0x480 ≤ n.val && n.val < 0x500

/-- The bytes of a glyph: those of the UTF-8 form of a character, and the one that a half stands
for. -/
def bytes : Glyph → List UInt8
  | char c => String.utf8EncodeChar c
  | half n => [UInt8.ofNat (n.val - 0x400)]

end Glyph

/-- Halves next to each other that cannot be encoded: the position of the first one, that half, and
how many follow it. -/
structure Stray where
  position : Nat
  first : Fin 0x800
  others : Nat
  deriving DecidableEq

/-- The wording of halves that cannot be encoded. -/
def Stray.message (s : Stray) : String :=
  let place :=
    if s.others = 0 then
      " '" ++ String.ofList (Glyph.numbered s.first) ++ "' in position " ++ toString s.position
    else "s in position " ++ toString s.position ++ "-" ++ toString (s.position + s.others)
  "'utf-8' codec can't encode character" ++ place ++ ": surrogates not allowed"

/-- Text in which halves of surrogate pairs may stand alone. -/
abbrev Loose := List Glyph

namespace Loose

/-- A text without halves. -/
def ofString (s : String) : Loose := s.toList.map .char

/-- A loose text as it is shown. -/
def shown (t : Loose) : String := String.ofList (t.flatMap Glyph.shown)

/-- A loose text in quotes. -/
def quoted (t : Loose) : String :=
  let quote := Text.quoteFor (t.filterMap Glyph.char?)
  String.ofList (quote :: (t.flatMap (Glyph.quoted quote) ++ [quote]))

/-- The first halves from a position on that cannot be encoded, when those of some kind can. -/
def strayFrom (isFree : Fin 0x800 → Bool) (position : Nat) : Loose → Option Stray
  | [] => none
  | .char _ :: rest => strayFrom isFree (position + 1) rest
  | .half n :: rest =>
    if isFree n then strayFrom isFree (position + 1) rest
    else some ⟨position, n, (rest.takeWhile (·.char?.isNone)).length⟩

/-- The text that a loose one is, unless there are halves in it, the first of which keep it from
being written in UTF-8. -/
def plain? (t : Loose) : Except Stray String :=
  match t.strayFrom (fun _ => false) 0 with
  | some stray => .error stray
  | none => .ok (String.ofList (t.filterMap Glyph.char?))

/-- The bytes of a text, in which some halves stand for a byte each. -/
def bytes? (t : Loose) : Except Stray (List UInt8) :=
  match t.strayFrom Glyph.isByte 0 with
  | some stray => .error stray
  | none => .ok (t.flatMap Glyph.bytes)

end Loose

end JsonShape
