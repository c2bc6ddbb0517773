import JsonShape.Proofs.Zig.Emission
import JsonShape.Proofs.Zig.Identifier

/-!
The lines of a written shape. A type without fields continues the line it stands on; a struct ends
that line, gives each field lines of its own, and closes on a last one. Where no spelling breaks a
line, the lines of the text are these.
-/

set_option autoImplicit false

namespace JsonShape.Zig

open Shape

namespace Spelling

/-- Every primitive type has a spelling, on one line. -/
def isOneLine (sp : Spelling) : Bool :=
  sp.all.all fun spelled => spelled.any fun s => '\n' ∉ s.toList

theorem isComplete_of_isOneLine {sp : Spelling} (h : sp.isOneLine = true) :
    sp.isComplete = true := by
  refine List.all_eq_true.mpr fun spelled hmem => ?_
  have hline := List.all_eq_true.mp h spelled hmem
  cases spelled with
  | none => simp at hline
  | some t => rfl

theorem newline_notMem_ofShape? {sp : Spelling} (h : sp.isOneLine = true) {s : Shape}
    (hs : s.isPrimitive = true) : '\n' ∉ ((sp.ofShape? s).getD "").toList := by
  have hline := List.all_eq_true.mp h _ (ofShape?_mem_all sp hs)
  cases hspelled : sp.ofShape? s with
  | none => simp
  | some t => simpa [hspelled] using hline

end Spelling

mutual

/-- The lines of a written shape, with something in front on the first and behind on the last. -/
def linesOf (sp : Spelling) (depth : Nat) : Shape → List Char → List Char → List (List Char)
  | .list _ item, before, after => linesOf sp depth item (before ++ ['[', ']']) after
  | .optional child, before, after => linesOf sp depth child (before ++ ['?']) after
  | .record fields, before, after =>
    (before ++ structHead) ::
      (fieldLines sp (depth + 1) fields ++ [(indentation depth).toList ++ '\x7d' :: after])
  | s, before, after => [before ++ (((sp.ofShape? s).getD "").toList ++ after)]

/-- The lines of written fields, each closed by a comma. -/
def fieldLines (sp : Spelling) (depth : Nat) : List (String × Shape) → List (List Char)
  | [] => []
  | (name, s) :: rest => linesOf sp depth s (heading depth name) [','] ++ fieldLines sp depth rest

end

/-- The text of some lines, each closed by a line break. -/
def unlines (ls : List (List Char)) : List Char := ls.flatMap (· ++ ['\n'])

theorem unlines_cons (l : List Char) (ls : List (List Char)) :
    unlines (l :: ls) = l ++ '\n' :: unlines ls := by
  simp [unlines]

theorem unlines_append (ls ls' : List (List Char)) :
    unlines (ls ++ ls') = unlines ls ++ unlines ls' :=
  List.flatMap_append

section Lines

variable {sp : Spelling}

theorem linesOf_of_isPrimitive (sp : Spelling) (depth : Nat) {s : Shape}
    (h : s.isPrimitive = true) (before after : List Char) :
    linesOf sp depth s before after =
      [before ++ (((sp.ofShape? s).getD "").toList ++ after)] := by
  cases s with
  | list _ _ | record _ | optional _ | foreign _ => simp [isPrimitive] at h
  | _ => rfl

private theorem fieldsText_eq_unlines (sp : Spelling) (depth : Nat) {fields : List Field}
    (h : ∀ f ∈ fields, ∀ before after, before ++ (typeText sp depth f.2 ++ (after ++ ['\n'])) =
      unlines (linesOf sp depth f.2 before after)) :
    fieldsText sp depth fields = unlines (fieldLines sp depth fields) := by
  induction fields with
  | nil => rfl
  | cons f rest ih =>
    obtain ⟨hfirst, hrest⟩ := List.forall_mem_cons.mp h
    rw [fieldLines, unlines_append, ← hfirst, ← ih hrest]
    simp [fieldsText]

/-- A written shape, with something in front of it and behind it, has the lines of its layout. -/
theorem typeText_eq_unlines (sp : Spelling) (depth : Nat) (s : Shape) (before after : List Char) :
    before ++ (typeText sp depth s ++ (after ++ ['\n'])) =
      unlines (linesOf sp depth s before after) := by
  -- The line that the text begins on is left open, since lists and marks lengthen it.
  induction s using nodeInduction generalizing depth before after with
  | list r item ih =>
    rw [linesOf, ← ih]
    simp [typeText]
  | record fields ih =>
    have hfields := fieldsText_eq_unlines sp (depth + 1) fun f hf => ih f hf (depth + 1)
    rw [linesOf, unlines_cons, unlines_append, ← hfields]
    simp [typeText, unlines]
  | optional child ih =>
    rw [linesOf, ← ih]
    simp [typeText]
  | _ => simp [typeText, linesOf, unlines]

private theorem newline_notMem_fieldLines (depth : Nat) {fields : List Field}
    (h : ∀ f ∈ fields, ∀ before after : List Char, '\n' ∉ before → '\n' ∉ after →
      ∀ l ∈ linesOf sp depth f.2 before after, '\n' ∉ l) :
    ∀ l ∈ fieldLines sp depth fields, '\n' ∉ l := by
  induction fields with
  | nil => simp [fieldLines]
  | cons f rest ih =>
    obtain ⟨hfirst, hrest⟩ := List.forall_mem_cons.mp h
    have hheading : '\n' ∉ heading depth f.1 := by
      simp [heading, indentation, newline_notMem_identifier]
    rw [fieldLines, List.forall_mem_append]
    exact ⟨hfirst _ _ hheading (by decide), ih hrest⟩

/-- No line of a layout is broken. -/
theorem newline_notMem_linesOf (hsp : sp.isOneLine = true) (depth : Nat) {s : Shape}
    (hs : s.isGenuine = true) {before after : List Char} (hbefore : '\n' ∉ before)
    (hafter : '\n' ∉ after) : ∀ l ∈ linesOf sp depth s before after, '\n' ∉ l := by
  induction s using writingInduction generalizing depth before after with
  | primitive s hprimitive =>
    have hline := Spelling.newline_notMem_ofShape? hsp hprimitive
    rw [linesOf_of_isPrimitive sp depth hprimitive]
    simp [hbefore, hafter, hline]
  | list r item ih => exact ih depth hs (by simp [hbefore]) hafter
  | record fields ih =>
    rw [isGenuine_record_iff] at hs
    have hfields := newline_notMem_fieldLines (depth + 1) fun f hf _ _ hb ha =>
      ih f hf (depth + 1) (hs f hf) hb ha
    rw [linesOf, List.forall_mem_cons, List.forall_mem_append, List.forall_mem_singleton]
    have hhead : '\n' ∉ structHead := by decide
    exact ⟨by simp [hbefore, hhead], hfields, by simp [indentation, hafter]⟩
  | optional child ih => exact ih depth hs (by simp [hbefore]) hafter
  | foreign node => simp at hs

private theorem unlines_eq_intercalate {ls : List (List Char)} (h : ls ≠ []) :
    unlines ls = ['\n'].intercalate ls ++ ['\n'] := by
  induction ls with
  | nil => exact absurd rfl h
  | cons l rest ih =>
    cases rest with
    | nil => simp [unlines]
    | cons l' rest =>
      rw [unlines_cons, ih (by simp), List.intercalate_cons_cons]
      simp

/-- A text that, closed by a line break, is that of some lines has just these lines. -/
theorem splitOn_of_append_eq_unlines {cs : List Char} {ls : List (List Char)}
    (h : cs ++ ['\n'] = unlines ls) (hls : ∀ l ∈ ls, '\n' ∉ l) : cs.splitOn '\n' = ls := by
  have hne : ls ≠ [] := by
    rintro rfl
    simp [unlines] at h
  rw [unlines_eq_intercalate hne] at h
  rw [List.append_cancel_right h]
  exact List.splitOn_intercalate _ hls hne

/-- The lines of a written type are those of its layout. -/
theorem splitOn_typeText (hsp : sp.isOneLine = true) {s : Shape} (hs : s.isGenuine = true) :
    (typeText sp 0 s).splitOn '\n' = linesOf sp 0 s [] [] := by
  refine splitOn_of_append_eq_unlines (typeText_eq_unlines sp 0 s [] []) ?_
  exact newline_notMem_linesOf hsp 0 hs (by simp) (by simp)

theorem splitOn_assemble (hsp : sp.isOneLine = true) {s : Shape} (hs : s.isGenuine = true)
    (hroom : s.height < nestingRoom) :
    ∃ t, write sp none s = .ok t ∧ t.toList.splitOn '\n' = linesOf sp 0 s [] [] := by
  have hcomplete := Spelling.isComplete_of_isOneLine hsp
  have htext := (write_of_isGenuine hcomplete hs none).resolve_right
    fun hdeep => Nat.not_le.mpr hroom hdeep.1
  refine ⟨_, htext, ?_⟩
  rw [String.toList_ofList]
  exact splitOn_typeText hsp hs

end Lines

end JsonShape.Zig
