import JsonShape.Text.Loose
import JsonShape.Zig.Identifier

/-!
What Zig is written in. Spellings and the name of a declaration may be loose text; the rest of a
type is plain.
-/

set_option autoImplicit false

namespace JsonShape.Zig

/-- A kind of text to write in: plain text can stand in it, texts can follow each other, and a name
has a form as an identifier. -/
class Script (α : Type) extends Append α where
  ofString : String → α
  identifier : α → α

instance : Script String where
  ofString := id
  identifier := Zig.identifier

/-- A glyph of a quoted name. Halves stand as they are. -/
def escapeGlyph : Glyph → Loose
  | .char c => (escapeChar c).map .char
  | .half n => [.half n]

/-- A loose name as an identifier. It is no word if there is a half in it. -/
def looseIdentifier (name : Loose) : Loose :=
  match name.plain? with
  | .ok s => .ofString (Zig.identifier s)
  | .error _ => .ofString "@\"" ++ name.flatMap escapeGlyph ++ .ofString "\""

instance : Script Loose where
  ofString := .ofString
  identifier := looseIdentifier

@[simp] theorem ofString_string (s : String) : (Script.ofString s : String) = s := rfl

end JsonShape.Zig
