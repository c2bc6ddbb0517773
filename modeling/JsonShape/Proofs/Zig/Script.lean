import JsonShape.Output
import JsonShape.Proofs.Loose

/-!
The command writes loose text, since words of a command line can be loose. Where its spellings and
its name have no halves in them, it writes what is written in plain text, or fails alike.
-/

set_option autoImplicit false

namespace JsonShape

open Zig

namespace Loose

theorem ofString_append (s t : String) : ofString (s ++ t) = ofString s ++ ofString t := by
  show (s ++ t).toList.map Glyph.char = _
  rw [String.toList_append, List.map_append]
  rfl

@[simp] theorem looseIdentifier_ofString (name : String) :
    looseIdentifier (ofString name) = ofString (identifier name) := by
  rw [looseIdentifier, plain?_ofString]

end Loose

namespace Zig

/-- A plain spelling as a loose one. -/
def Spelling.loose (sp : Spelling) : SpellingIn Loose where
  string := sp.string.map Loose.ofString
  integer := sp.integer.map Loose.ofString
  float := sp.float.map Loose.ofString
  bool := sp.bool.map Loose.ofString
  any := sp.any.map Loose.ofString
  unknown := sp.unknown.map Loose.ofString

theorem Spelling.set_loose (sp : Spelling) (name : String) (value : Option String) :
    Spelling.loose (sp.set name value) = sp.loose.set name (value.map Loose.ofString) := by
  unfold SpellingIn.set
  split <;> rfl

/-- A piece of plain text as one of loose text. -/
def Piece.loose : Piece String → Piece Loose
  | .text s => .text (.ofString s)
  | .fault f => .fault f

theorem primitive_loose (spelled : Option String) :
    primitive (spelled.map Loose.ofString) = (primitive spelled).loose := by
  cases spelled with
  | none => rfl
  | some s => rfl

section Pieces

variable (sp : Spelling)

mutual

theorem pieces_loose : ∀ (room depth : Nat) (shape : Shape),
    pieces sp.loose room depth shape = (pieces sp room depth shape).map Piece.loose
  | 0, _, _ => by
    rw [pieces, pieces]
    rfl
  | _ + 1, _, .unknown => congrArg List.singleton (primitive_loose sp.unknown)
  | _ + 1, _, .any => congrArg List.singleton (primitive_loose sp.any)
  | _ + 1, _, .bool => congrArg List.singleton (primitive_loose sp.bool)
  | _ + 1, _, .int _ => congrArg List.singleton (primitive_loose sp.integer)
  | _ + 1, _, .float _ => congrArg List.singleton (primitive_loose sp.float)
  | _ + 1, _, .text _ => congrArg List.singleton (primitive_loose sp.string)
  | room + 1, depth, .list _ item => congrArg (plainPiece "[]" :: ·) (pieces_loose room depth item)
  | room + 1, depth, .optional child =>
    congrArg (plainPiece "?" :: ·) (pieces_loose room depth child)
  | room + 1, depth, .record fields => by
    rw [pieces, pieces, fieldPieces_loose room (depth + 1) fields, List.map_cons, List.map_append]
    rfl
  | _ + 1, _, .foreign _ => rfl

theorem fieldPieces_loose : ∀ (room depth : Nat) (fields : List (String × Shape)),
    fieldPieces sp.loose room depth fields = (fieldPieces sp room depth fields).map Piece.loose
  | _, _, [] => rfl
  | room, depth, (name, shape) :: rest => by
    rw [fieldPieces, fieldPieces, pieces_loose room depth shape, fieldPieces_loose room depth rest]
    simp only [List.map_cons, List.map_append]
    rfl

end

theorem declarationPieces_loose (name : Option String) (shape : Shape) :
    declarationPieces sp.loose (name.map Loose.ofString) shape =
      (declarationPieces sp name shape).map Piece.loose := by
  cases name with
  | none => exact pieces_loose sp Shape.nestingRoom 0 shape
  | some name =>
    have hhead : Loose.ofString ("pub const " ++ identifier name ++ " = ") =
        Loose.ofString "pub const " ++ looseIdentifier (.ofString name) ++ .ofString " = " := by
      rw [Loose.ofString_append, Loose.ofString_append, Loose.looseIdentifier_ofString]
    show .text (Loose.ofString "pub const " ++ looseIdentifier (.ofString name) ++
      .ofString " = ") :: (pieces sp.loose Shape.nestingRoom 0 shape ++ _) = _
    rw [pieces_loose, ← hhead]
    simp only [declarationPieces, List.map_cons, List.map_append]
    rfl

end Pieces

theorem assemble_loose (ps : List (Piece String)) :
    assemble (ps.map Piece.loose) = (assemble ps).map Loose.ofString := by
  induction ps with
  | nil => rfl
  | cons p rest ih =>
    cases p with
    | fault f => rfl
    | text s =>
      show (assemble (rest.map Piece.loose)).map (Loose.ofString s ++ ·) = _
      rw [ih, assemble]
      cases assemble rest with
      | error f => rfl
      | ok t => exact congrArg Except.ok (Loose.ofString_append s t).symm

theorem write_loose (sp : Spelling) (name : Option String) (shape : Shape) :
    write sp.loose (name.map Loose.ofString) shape =
      (write sp name shape).map Loose.ofString := by
  rw [write, declarationPieces_loose, assemble_loose, write]

end Zig

/-- A plain output as a loose one. -/
def Output.loose (output : Output) : OutputIn Loose where
  format := output.format
  name := output.name.map Loose.ofString
  spelling := Spelling.loose output.spelling

/-- An output without halves puts out the plain text, or fails alike. -/
theorem Output.text?_loose (output : Output) (shape : Shape) :
    output.loose.text? shape = (output.text? shape).map Loose.ofString := by
  obtain ⟨format, name, spelling⟩ := output
  cases format with
  | yaml =>
    show (shape.dump? Schema.Yaml.document).map Loose.ofString = _
    cases hdump : shape.dump? Schema.Yaml.document <;> simp [OutputIn.text?, hdump, Except.map]
  | json =>
    show (shape.dump? Schema.Json.document).map Loose.ofString = _
    cases hdump : shape.dump? Schema.Json.document <;> simp [OutputIn.text?, hdump, Except.map]
  | zig =>
    have hempty : name.map Loose.ofString = some (.ofString "") ↔ name = some "" := by
      constructor
      · intro h
        obtain ⟨s, rfl, hs⟩ := Option.map_eq_some_iff.mp h
        rw [Loose.ofString_injective hs]
      · rintro rfl
        rfl
    by_cases hname : name = some ""
    · simp [Output.loose, OutputIn.text?, hname, Except.map, Script.ofString]
    · have hloose : name.map Loose.ofString ≠ some (.ofString "") := mt hempty.mp hname
      show (if name.map Loose.ofString = some (.ofString "") then _ else
        (write (Spelling.loose spelling) (name.map Loose.ofString) shape).mapError _) = _
      rw [if_neg hloose, write_loose, OutputIn.text?]
      simp only [ofString_string, if_neg hname]
      cases write spelling name shape <;> rfl

end JsonShape
