import JsonShape.Message
import JsonShape.Zig.Identifier
import JsonShape.Zig.Spelling

/-!
Shapes in Zig syntax. A shape is written as a list of pieces in the order of the text; a place where
no text can stand is a piece of its own: a foreign node, a type without a spelling, or nesting
without room. A text comes of pieces that are all text. A sink of limited room takes pieces one by
one and fails at the first that does not fit.
-/

set_option autoImplicit false

namespace JsonShape.Zig

/-- Why a shape cannot be written. -/
inductive WriteFault
  | foreign (shown : String)
  | tooManyDigits
  | unspelled
  | tooDeep
  deriving DecidableEq

/-- A foreign node cannot be written. The complaint shows it, if it can be shown. -/
def WriteFault.ofForeign (node : Foreign) : WriteFault :=
  node.shown?.elim .tooManyDigits .foreign

/-- A piece of written text, or a place where none can stand. -/
inductive Piece (α : Type)
  | text (s : α)
  | fault (f : WriteFault)
  deriving DecidableEq

section Pieces

variable {α : Type} [Script α]

/-- The piece of a plain text. -/
def plainPiece (s : String) : Piece α := .text (Script.ofString s)

/-- The piece of a primitive type. -/
def primitive (spelled : Option α) : Piece α :=
  match spelled with
  | some s => .text s
  | none => .fault .unspelled

/-- The blanks in front of a line at some depth. -/
def indentation (depth : Nat) : String := String.ofList (List.replicate (4 * depth) ' ')

mutual

/-- The pieces of a shape at some depth, within some room for nesting. -/
def pieces (sp : SpellingIn α) : Nat → Nat → Shape → List (Piece α)
  | 0, _, _ => [.fault .tooDeep]
  | _ + 1, _, .unknown => [primitive sp.unknown]
  | _ + 1, _, .any => [primitive sp.any]
  | _ + 1, _, .bool => [primitive sp.bool]
  | _ + 1, _, .int _ => [primitive sp.integer]
  | _ + 1, _, .float _ => [primitive sp.float]
  | _ + 1, _, .text _ => [primitive sp.string]
  | room + 1, depth, .list _ item => plainPiece "[]" :: pieces sp room depth item
  | room + 1, depth, .optional child => plainPiece "?" :: pieces sp room depth child
  | room + 1, depth, .record fields =>
    plainPiece "struct \x7b\n" ::
      (fieldPieces sp room (depth + 1) fields ++
        [plainPiece (indentation depth), plainPiece "\x7d"])
  | _ + 1, _, .foreign node => [.fault (.ofForeign node)]

/-- The lines of a record's fields, each closed by a comma. -/
def fieldPieces (sp : SpellingIn α) : Nat → Nat → List (String × Shape) → List (Piece α)
  | _, _, [] => []
  | room, depth, (name, shape) :: rest =>
    plainPiece (indentation depth) :: plainPiece (identifier name ++ ": ") ::
      (pieces sp room depth shape ++ plainPiece ",\n" :: fieldPieces sp room depth rest)

end

/-- The pieces of a type. -/
def typePieces (sp : SpellingIn α) (shape : Shape) : List (Piece α) :=
  pieces sp Shape.nestingRoom 0 shape

/-- The pieces of a type, or of the declaration of a type under a name. -/
def declarationPieces (sp : SpellingIn α) (name : Option α) (shape : Shape) : List (Piece α) :=
  match name with
  | none => typePieces sp shape
  | some name =>
    .text (Script.ofString "pub const " ++ Script.identifier name ++ Script.ofString " = ") ::
      (typePieces sp shape ++ [plainPiece ";\n"])

/-- The text of some pieces, or the first fault among them. -/
def assemble : List (Piece α) → Except WriteFault α
  | [] => .ok (Script.ofString "")
  | .text s :: rest => (assemble rest).map (s ++ ·)
  | .fault f :: _ => .error f

/-- A shape in Zig, as a declaration if it has a name. -/
def write (sp : SpellingIn α) (name : Option α) (shape : Shape) : Except WriteFault α :=
  assemble (declarationPieces sp name shape)

end Pieces

/-- A sink that holds so many characters. -/
structure Sink where
  capacity : Nat
  held : String

/-- Why a sink does not take what is written. -/
inductive SinkFault
  | write (f : WriteFault)
  | full
  deriving DecidableEq

namespace Sink

/-- An empty sink. -/
def empty (capacity : Nat) : Sink := ⟨capacity, ""⟩

/-- A sink after some pieces. -/
def pour : Sink → List (Piece String) → Except SinkFault Sink
  | sink, [] => .ok sink
  | _, .fault f :: _ => .error (.write f)
  | sink, .text s :: rest =>
    let held := sink.held ++ s
    if sink.capacity < held.length then .error .full else pour { sink with held } rest

end Sink

/-- The wording of a fault in writing. -/
def WriteFault.message : WriteFault → String
  | foreign shown => foreignMessage shown
  | tooManyDigits => tooManyDigitsMessage
  | unspelled => "string argument expected, got 'list'"
  | tooDeep => "type is nested too deeply to render"

/-- The wording of output that cannot be written, with the reason. -/
def outputMessage (reason : String) : String := "failed to write output: " ++ reason

/-- The wording of a sink that does not take what is written. -/
def SinkFault.message : SinkFault → String
  | write f => f.message
  | full => outputMessage "disk full"

end JsonShape.Zig
