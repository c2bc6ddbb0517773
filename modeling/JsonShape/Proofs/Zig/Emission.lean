import JsonShape.Proofs.Shape.Genuine
import JsonShape.Zig.Writing

/-!
The text of a written shape. Pieces are written from left to right up to the first fault among them.
With room for the nesting, this is the first flaw of the shape: a foreign node or a type without a
spelling. What stands in front of it is told by the tree. So a shape without foreign nodes is
written in full if all types have spellings, unless it is too high for the room.
-/

set_option autoImplicit false

namespace JsonShape

namespace Shape

/-- A shape that is written as the spelling of a primitive type. -/
def isPrimitive : Shape → Bool
  | list _ _ | record _ | optional _ | foreign _ => false
  | _ => true

/-- Induction over a shape that takes all primitive types together. -/
theorem writingInduction {motive : Shape → Prop}
    (primitive : ∀ s, s.isPrimitive = true → motive s)
    (list : ∀ r item, motive item → motive (.list r item))
    (record : ∀ fields, (∀ f ∈ fields, motive f.2) → motive (.record fields))
    (optional : ∀ child, motive child → motive (.optional child))
    (foreign : ∀ node, motive (.foreign node)) (s : Shape) : motive s := by
  induction s using nodeInduction with
  | list r item ih => exact list r item ih
  | record fields ih => exact record fields ih
  | optional child ih => exact optional child ih
  | foreign node => exact foreign node
  | _ => exact primitive _ rfl

mutual

/-- The foreign nodes of a shape, in pre-order. -/
def foreigns : Shape → List Foreign
  | list _ item => item.foreigns
  | optional child => child.foreigns
  | record fields => fieldForeigns fields
  | foreign node => [node]
  | _ => []

/-- The foreign nodes of some fields, in pre-order. -/
def fieldForeigns : List (String × Shape) → List Foreign
  | [] => []
  | (_, s) :: rest => s.foreigns ++ fieldForeigns rest

end

end Shape

namespace Zig

open Shape

namespace Spelling

/-- The spellings of all primitive types. -/
def all (sp : Spelling) : List (Option String) :=
  [sp.string, sp.integer, sp.float, sp.bool, sp.any, sp.unknown]

/-- Every primitive type has a spelling. -/
def isComplete (sp : Spelling) : Bool := sp.all.all Option.isSome

/-- The spelling of a shape that is a primitive type. -/
def ofShape? (sp : Spelling) : Shape → Option String
  | .unknown => sp.unknown
  | .any => sp.any
  | .bool => sp.bool
  | .int _ => sp.integer
  | .float _ => sp.float
  | .text _ => sp.string
  | .list _ _ | .record _ | .optional _ | .foreign _ => none

theorem ofShape?_mem_all (sp : Spelling) {s : Shape} (hs : s.isPrimitive = true) :
    sp.ofShape? s ∈ sp.all := by
  cases s <;> simp [isPrimitive] at hs <;> simp [ofShape?, all]

theorem isSome_ofShape? {sp : Spelling} (hsp : sp.isComplete = true) {s : Shape}
    (hs : s.isPrimitive = true) : (sp.ofShape? s).isSome = true :=
  List.all_eq_true.mp hsp _ (sp.ofShape?_mem_all hs)

end Spelling

section Flaws

mutual

/-- The places of a shape where no text can stand, in pre-order: its foreign nodes, and its types
without a spelling. -/
def flaws (sp : Spelling) : Shape → List WriteFault
  | .list _ item => flaws sp item
  | .optional child => flaws sp child
  | .record fields => fieldFlaws sp fields
  | .foreign node => [.ofForeign node]
  | s => if (sp.ofShape? s).isSome then [] else [.unspelled]

/-- The places of some fields where no text can stand, in pre-order. -/
def fieldFlaws (sp : Spelling) : List (String × Shape) → List WriteFault
  | [] => []
  | (_, s) :: rest => flaws sp s ++ fieldFlaws sp rest

end

theorem flaws_of_isPrimitive (sp : Spelling) {s : Shape} (hs : s.isPrimitive = true) :
    flaws sp s = if (sp.ofShape? s).isSome then [] else [.unspelled] := by
  cases s with
  | list _ _ | record _ | optional _ | foreign _ => simp [isPrimitive] at hs
  | _ => rfl

theorem fieldFlaws_eq_nil_iff {sp : Spelling} {fields : List Field} :
    fieldFlaws sp fields = [] ↔ ∀ f ∈ fields, flaws sp f.2 = [] := by
  induction fields with
  | nil => simp [fieldFlaws]
  | cons f rest ih => simp [fieldFlaws, ih]

private theorem fieldFlaws_of_forall {sp : Spelling} {fields : List Field}
    (h : ∀ f ∈ fields, flaws sp f.2 = f.2.foreigns.map .ofForeign) :
    fieldFlaws sp fields = (fieldForeigns fields).map .ofForeign := by
  induction fields with
  | nil => rfl
  | cons f rest ih =>
    obtain ⟨hfirst, hrest⟩ := List.forall_mem_cons.mp h
    rw [fieldFlaws, fieldForeigns, List.map_append, hfirst, ih hrest]

/-- If all types have spellings, text is wanting at foreign nodes only. -/
theorem flaws_of_isComplete {sp : Spelling} (hsp : sp.isComplete = true) (s : Shape) :
    flaws sp s = s.foreigns.map .ofForeign := by
  induction s using writingInduction with
  | primitive s hs =>
    rw [flaws_of_isPrimitive sp hs, if_pos (Spelling.isSome_ofShape? hsp hs)]
    cases s <;> first | rfl | simp [isPrimitive] at hs
  | list r item ih => exact ih
  | record fields ih => exact fieldFlaws_of_forall ih
  | optional child ih => exact ih
  | foreign node => rfl

theorem flaws_of_isGenuine {sp : Spelling} (hsp : sp.isComplete = true) {s : Shape}
    (hs : s.isGenuine = true) : flaws sp s = [] := by
  induction s using writingInduction with
  | primitive s hprimitive =>
    rw [flaws_of_isPrimitive sp hprimitive, if_pos (Spelling.isSome_ofShape? hsp hprimitive)]
  | list r item ih => exact ih hs
  | record fields ih =>
    rw [isGenuine_record_iff] at hs
    exact fieldFlaws_eq_nil_iff.mpr fun f hf => ih f hf (hs f hf)
  | optional child ih => exact ih hs
  | foreign node => simp at hs

end Flaws

section Texts

/-- The head of a struct. -/
def structHead : List Char := "struct \x7b".toList

/-- A name in front of its type, on a line at some depth. -/
def heading (depth : Nat) (name : String) : List Char :=
  (indentation depth).toList ++ ((identifier name).toList ++ [':', ' '])

mutual

/-- The text of a written shape at some depth. -/
def typeText (sp : Spelling) (depth : Nat) : Shape → List Char
  | .list _ item => '[' :: ']' :: typeText sp depth item
  | .optional child => '?' :: typeText sp depth child
  | .record fields =>
    structHead ++ '\n' ::
      (fieldsText sp (depth + 1) fields ++ ((indentation depth).toList ++ ['\x7d']))
  | s => ((sp.ofShape? s).getD "").toList

/-- The text of written fields, each closed by a comma at the end of a line. -/
def fieldsText (sp : Spelling) (depth : Nat) : List (String × Shape) → List Char
  | [] => []
  | (name, s) :: rest =>
    heading depth name ++ (typeText sp depth s ++ ',' :: '\n' :: fieldsText sp depth rest)

end

/-- What stands in front of a type that is declared under a name. -/
def declarationHead (name : String) : List Char := ("pub const " ++ identifier name ++ " = ").toList

/-- What stands behind a declared type. -/
def declarationEnd : List Char := ";\n".toList

/-- The text of a type, or of the declaration of a type under a name. -/
def writtenText (sp : Spelling) : Option String → Shape → List Char
  | none, s => typeText sp 0 s
  | some name, s => declarationHead name ++ (typeText sp 0 s ++ declarationEnd)

mutual

/-- The text of a shape in front of its first flaw, and all of it if there is none. -/
def textBefore (sp : Spelling) (depth : Nat) : Shape → List Char
  | .list _ item => '[' :: ']' :: textBefore sp depth item
  | .optional child => '?' :: textBefore sp depth child
  | .record fields =>
    structHead ++ '\n' :: (fieldsBefore sp (depth + 1) fields ++
      if (fieldFlaws sp fields).isEmpty then (indentation depth).toList ++ ['\x7d'] else [])
  | .foreign _ => []
  | s => ((sp.ofShape? s).getD "").toList

/-- The text of fields in front of the first flaw, and all of it if there is none. -/
def fieldsBefore (sp : Spelling) (depth : Nat) : List (String × Shape) → List Char
  | [] => []
  | (name, s) :: rest =>
    heading depth name ++ (textBefore sp depth s ++
      if (flaws sp s).isEmpty then ',' :: '\n' :: fieldsBefore sp depth rest else [])

end

/-- The text of a type, or of the declaration of a type under a name, in front of the first flaw,
and all of it if there is none. -/
def writtenBefore (sp : Spelling) : Option String → Shape → List Char
  | none, s => textBefore sp 0 s
  | some name, s =>
    declarationHead name ++
      (textBefore sp 0 s ++ if (flaws sp s).isEmpty then declarationEnd else [])

variable {sp : Spelling}

theorem typeText_of_isPrimitive (sp : Spelling) (depth : Nat) {s : Shape}
    (h : s.isPrimitive = true) : typeText sp depth s = ((sp.ofShape? s).getD "").toList := by
  cases s with
  | list _ _ | record _ | optional _ | foreign _ => simp [isPrimitive] at h
  | _ => rfl

theorem textBefore_of_isPrimitive (sp : Spelling) (depth : Nat) {s : Shape}
    (h : s.isPrimitive = true) : textBefore sp depth s = ((sp.ofShape? s).getD "").toList := by
  cases s with
  | list _ _ | record _ | optional _ | foreign _ => simp [isPrimitive] at h
  | _ => rfl

private theorem fieldsBefore_eq_fieldsText {depth : Nat} {fields : List Field}
    (hfields : ∀ f ∈ fields, flaws sp f.2 = [])
    (h : ∀ f ∈ fields, textBefore sp depth f.2 = typeText sp depth f.2) :
    fieldsBefore sp depth fields = fieldsText sp depth fields := by
  induction fields with
  | nil => rfl
  | cons f rest ih =>
    obtain ⟨hflaw, hflaws⟩ := List.forall_mem_cons.mp hfields
    obtain ⟨hfirst, hrest⟩ := List.forall_mem_cons.mp h
    simp [fieldsBefore, fieldsText, hflaw, hfirst, ih hflaws hrest]

/-- Where text can stand everywhere, all of it stands in front. -/
theorem textBefore_of_flaws_eq_nil (depth : Nat) {s : Shape} (hs : flaws sp s = []) :
    textBefore sp depth s = typeText sp depth s := by
  induction s using nodeInduction generalizing depth with
  | list r item ih => rw [textBefore, typeText, ih depth hs]
  | record fields ih =>
    have hnone := fieldFlaws_eq_nil_iff.mp hs
    have hfields := fieldsBefore_eq_fieldsText hnone fun f hf => ih f hf (depth + 1) (hnone f hf)
    rw [flaws] at hs
    simp [textBefore, typeText, hs, hfields]
  | optional child ih => rw [textBefore, typeText, ih depth hs]
  | _ => rfl

theorem writtenBefore_of_flaws_eq_nil (name : Option String) {s : Shape}
    (hs : flaws sp s = []) : writtenBefore sp name s = writtenText sp name s := by
  cases name <;> simp [writtenBefore, writtenText, hs, textBefore_of_flaws_eq_nil 0 hs]

end Texts

section Pieces

/-- The text of some pieces in front of the first fault among them, and this fault. -/
def emission : List (Piece String) → List Char × Option WriteFault
  | [] => ([], none)
  | .text t :: rest => (t.toList ++ (emission rest).1, (emission rest).2)
  | .fault f :: _ => ([], some f)

theorem emission_append (ps qs : List (Piece String)) :
    emission (ps ++ qs) =
      ((emission ps).1 ++ if (emission ps).2.isNone then (emission qs).1 else [],
        (emission ps).2.or (emission qs).2) := by
  induction ps with
  | nil => simp [emission]
  | cons p ps ih =>
    cases p with
    | fault f => simp [emission]
    | text t => simp [emission, ih]

theorem assemble_eq (ps : List (Piece String)) :
    assemble ps = (emission ps).2.elim (.ok (String.ofList (emission ps).1)) .error := by
  induction ps with
  | nil => simp [assemble, emission]
  | cons p ps ih =>
    cases p with
    | fault f => rfl
    | text t =>
      simp only [assemble, emission, ih]
      cases (emission ps).2 with
      | none => simp [Except.map]
      | some f => rfl

/-- Pieces have some text in front of their first fault, or this is a want of room. -/
def Emits (ps : List (Piece String)) (cs : List Char) (fault : Option WriteFault) (deep : Prop) :
    Prop :=
  emission ps = (cs, fault) ∨ deep ∧ (emission ps).2 = some .tooDeep

namespace Emits

variable {ps qs : List (Piece String)} {cs ds : List Char} {fault later : Option WriteFault}
  {deep deeper : Prop}

theorem of_text (t : String) : Emits [.text t] t.toList none deep := by
  refine .inl ?_
  simp [emission]

theorem imp (h : Emits ps cs fault deep) (himp : deep → deeper) : Emits ps cs fault deeper :=
  h.imp_right (And.imp_left himp)

/-- Behind a fault nothing is written. -/
theorem append (hp : Emits ps cs fault deep) (hq : Emits qs ds later deep) :
    Emits (ps ++ qs) (cs ++ if fault.isNone then ds else []) (fault.or later) deep := by
  simp only [Emits, emission_append]
  rcases hp with hp | ⟨hdeep, hp⟩
  · cases fault with
    | some f => exact .inl (by simp [hp])
    | none =>
      rcases hq with hq | ⟨hdeep, hq⟩
      · exact .inl (by simp [hp, hq])
      · exact .inr ⟨hdeep, by simp [hp, hq]⟩
  · exact .inr ⟨hdeep, by simp [hp]⟩

theorem cons (t : String) (h : Emits ps cs fault deep) :
    Emits (.text t :: ps) (t.toList ++ cs) fault deep :=
  (of_text t).append h

end Emits

theorem isNone_head? {α : Type} (l : List α) : l.head?.isNone = l.isEmpty := by
  cases l <;> rfl

variable {sp : Spelling}

theorem pieces_zero (sp : Spelling) (depth : Nat) (s : Shape) :
    pieces sp 0 depth s = [.fault .tooDeep] := by
  cases s <;> rfl

theorem pieces_of_isPrimitive (sp : Spelling) (room depth : Nat) {s : Shape}
    (h : s.isPrimitive = true) :
    pieces sp (room + 1) depth s = [primitive (sp.ofShape? s)] := by
  cases s with
  | list _ _ | record _ | optional _ | foreign _ => simp [isPrimitive] at h
  | _ => rfl

private theorem emits_fieldPieces {room : Nat} (depth : Nat) {fields : List Field}
    (h : ∀ f ∈ fields, Emits (pieces sp room depth f.2) (textBefore sp depth f.2)
      (flaws sp f.2).head? (room ≤ f.2.height)) :
    Emits (fieldPieces sp room depth fields) (fieldsBefore sp depth fields)
      (fieldFlaws sp fields).head? (room ≤ fieldsHeight fields) := by
  induction fields with
  | nil => exact .inl rfl
  | cons f rest ih =>
    obtain ⟨hfirst, hrest⟩ := List.forall_mem_cons.mp h
    have htype := hfirst.imp fun hdeep : room ≤ f.2.height =>
      hdeep.trans (height_le_fieldsHeight (List.mem_cons_self (l := rest)))
    have hlater := (ih hrest).imp fun hdeep : room ≤ fieldsHeight rest =>
      hdeep.trans (Nat.le_max_right f.2.height _)
    have hline := ((htype.append (hlater.cons ",\n")).cons (identifier f.1 ++ ": ")).cons
      (indentation depth)
    rw [isNone_head?, ← List.head?_append] at hline
    have htext : fieldsBefore sp depth (f :: rest) = (indentation depth).toList ++
        ((identifier f.1 ++ ": ").toList ++ (textBefore sp depth f.2 ++
          if (flaws sp f.2).isEmpty then ",\n".toList ++ fieldsBefore sp depth rest else [])) := by
      simp [fieldsBefore, heading]
    rw [htext]
    exact hline

/-- A shape is written up to its first flaw, unless it is too high for the room. -/
theorem emits_pieces (sp : Spelling) (s : Shape) (room depth : Nat) :
    Emits (pieces sp room depth s) (textBefore sp depth s) (flaws sp s).head?
      (room ≤ s.height) := by
  induction s using writingInduction generalizing room depth with
  | primitive s hprimitive =>
    obtain _ | room := room
    · exact .inr ⟨Nat.zero_le _, by rw [pieces_zero]; rfl⟩
    rw [pieces_of_isPrimitive sp room depth hprimitive,
      textBefore_of_isPrimitive sp depth hprimitive, flaws_of_isPrimitive sp hprimitive]
    cases sp.ofShape? s with
    | none => exact .inl rfl
    | some t => exact .of_text t
  | list r item ih =>
    obtain _ | room := room
    · exact .inr ⟨Nat.zero_le _, rfl⟩
    exact ((ih room depth).imp Nat.succ_le_succ).cons "[]"
  | record fields ih =>
    obtain _ | room := room
    · exact .inr ⟨Nat.zero_le _, rfl⟩
    have hfields := emits_fieldPieces (depth + 1) fun f hf => ih f hf room (depth + 1)
    have hclose : Emits [.text (indentation depth), .text "\x7d"]
        ((indentation depth).toList ++ ['\x7d']) none (room + 1 ≤ (record fields).height) :=
      (Emits.of_text "\x7d").cons (indentation depth)
    have hbody := ((hfields.imp Nat.succ_le_succ).append hclose).cons "struct \x7b\n"
    rw [isNone_head?, Option.or_none] at hbody
    exact hbody
  | optional child ih =>
    obtain _ | room := room
    · exact .inr ⟨Nat.zero_le _, rfl⟩
    exact ((ih room depth).imp Nat.succ_le_succ).cons "?"
  | foreign node =>
    obtain _ | room := room
    · exact .inr ⟨Nat.zero_le _, rfl⟩
    exact .inl rfl

theorem emits_declarationPieces (sp : Spelling) (s : Shape) (name : Option String) :
    Emits (declarationPieces sp name s) (writtenBefore sp name s) (flaws sp s).head?
      (nestingRoom ≤ s.height) := by
  have htype := emits_pieces sp s nestingRoom 0
  cases name with
  | none => exact htype
  | some name =>
    have hdeclared :=
      (htype.append (.of_text ";\n")).cons ("pub const " ++ identifier name ++ " = ")
    rw [isNone_head?, Option.or_none] at hdeclared
    exact hdeclared

/-- A shape without foreign nodes is written in full, unless it is too high for the room. -/
theorem write_of_isGenuine (hsp : sp.isComplete = true) {s : Shape} (hs : s.isGenuine = true)
    (name : Option String) :
    write sp name s = .ok (String.ofList (writtenText sp name s)) ∨
      nestingRoom ≤ s.height ∧ write sp name s = .error .tooDeep := by
  have hflaws := flaws_of_isGenuine hsp hs
  rw [write, assemble_eq]
  rcases emits_declarationPieces sp s name with hemission | ⟨hdeep, hfault⟩
  · refine .inl ?_
    rw [hemission, hflaws, writtenBefore_of_flaws_eq_nil name hflaws]
    rfl
  · exact .inr ⟨hdeep, by rw [hfault]; rfl⟩

end Pieces

end Zig

end JsonShape
