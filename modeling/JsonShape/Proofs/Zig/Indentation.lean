import JsonShape.Proofs.Zig.Structs

/-!
The indentation of a written shape. A line break behind the head of a struct opens its body, and a
line that begins with a brace closes the innermost one. Each line behind the first is indented by
four blanks for every body open at it, and none is open at the end.
-/

set_option autoImplicit false

namespace JsonShape.Zig

open Shape

/-- A line ends with the head of a struct. -/
def opens (l : List Char) : Bool := structHead.isSuffixOf l

/-- A line begins with a closing brace. -/
def closes (l : List Char) : Bool := (l.dropWhile (· == ' ')).head? = some '\x7d'

/-- A line begins with four blanks for each of some bodies, and goes on with no blank. -/
def IsIndented (bodies : Nat) (l : List Char) : Prop :=
  ∃ c cs, l = List.replicate (4 * bodies) ' ' ++ c :: cs ∧ c ≠ ' '

/-- The number of some records and of all their fields. -/
def breaksOf (rows : List (List String)) : Nat := rows.foldr (fun row n => 1 + row.length + n) 0

theorem breaksOf_append (rows rows' : List (List String)) :
    breaksOf (rows ++ rows') = breaksOf rows + breaksOf rows' := by
  induction rows with
  | nil => exact (Nat.zero_add _).symm
  | cons row rows ih =>
    simp only [breaksOf, List.cons_append, List.foldr_cons] at ih ⊢
    omega

/-- The line breaks in the text of a shape: one behind the head of each record and one behind each
of its fields. -/
def breaks (s : Shape) : Nat := breaksOf (rowsOf s)

/-- The first line of a text and the rest of its lines are those of a shape. -/
structure FollowsNesting (s : Shape) (first : List Char) (rest : List (List Char)) : Prop where
  /-- A line that closes a body does not stand in it. -/
  indented : ∀ front l back, rest = front ++ l :: back → ∃ bodies, IsIndented bodies l ∧
    bodies + (front ++ [l]).countP closes = (first :: front).countP opens
  /-- Each record opens a body and closes it, so that none is open at the end. -/
  opened : (first :: rest).dropLast.countP opens = (rowsOf s).length
  closed : rest.countP closes = (rowsOf s).length

/-- Lines from some open bodies to others, each indented by the bodies open at it. -/
inductive Laid : Nat → List (List Char) → Nat → Prop
  | nil (bodies : Nat) : Laid bodies [] bodies
  | cons {bodies last : Nat} {l : List Char} {ls : List (List Char)} (hl : IsIndented bodies l)
      (h : Laid (bodies + (opens l).toNat) ls last) :
      Laid (bodies + (closes l).toNat) (l :: ls) last

private theorem countP_cons_eq_toNat_add (p : List Char → Bool) (l : List Char)
    (ls : List (List Char)) : (l :: ls).countP p = (p l).toNat + ls.countP p := by
  rw [List.countP_cons, Nat.add_comm]
  cases p l <;> rfl

namespace Laid

variable {bodies middle last : Nat} {l : List Char} {ls ls' : List (List Char)}

theorem append (h : Laid bodies ls middle) (h' : Laid middle ls' last) :
    Laid bodies (ls ++ ls') last := by
  induction h with
  | nil => exact h'
  | cons hl _ ih => exact .cons hl (ih h')

theorem exists_of_append (h : Laid bodies (ls ++ ls') last) :
    ∃ middle, Laid bodies ls middle ∧ Laid middle ls' last := by
  induction ls generalizing bodies with
  | nil => exact ⟨bodies, .nil bodies, h⟩
  | cons l ls ih =>
    cases h with
    | cons hl h =>
      obtain ⟨middle, hfront, hback⟩ := ih h
      exact ⟨middle, .cons hl hfront, hback⟩

/-- The bodies open at the end are those opened and not closed. -/
theorem last_add_countP (h : Laid bodies ls last) :
    last + ls.countP closes = bodies + ls.countP opens := by
  induction h with
  | nil => rfl
  | cons hl _ ih =>
    rw [countP_cons_eq_toNat_add, countP_cons_eq_toNat_add]
    omega

/-- A line is indented by the bodies opened before it and not closed until it. -/
theorem exists_isIndented (h : Laid bodies (ls ++ l :: ls') last) :
    ∃ depth, IsIndented depth l ∧
      depth + (ls ++ [l]).countP closes = bodies + ls.countP opens := by
  obtain ⟨middle, hfront, hback⟩ := h.exists_of_append
  have hcount := hfront.last_add_countP
  cases hback with
  | @cons depth _ _ _ hl _ =>
    refine ⟨depth, hl, ?_⟩
    rw [List.countP_append, countP_cons_eq_toNat_add, List.countP_nil]
    omega

end Laid

section Lines

variable {sp : Spelling}

theorem isIndented_heading (depth : Nat) (name : String) (rest : List Char) :
    IsIndented depth (heading depth name ++ rest) := by
  obtain ⟨c, cs, hname, hblank, -⟩ := exists_identifier_cons name
  refine ⟨c, cs ++ (':' :: ' ' :: rest), ?_, hblank⟩
  simp [heading, hname, indentation]

theorem closes_heading (depth : Nat) (name : String) (rest : List Char) :
    closes (heading depth name ++ rest) = false :=
  decide_eq_false (head?_dropWhile_heading_ne depth name rest)

theorem isIndented_closing (depth : Nat) (after : List Char) :
    IsIndented depth ((indentation depth).toList ++ '\x7d' :: after) :=
  ⟨'\x7d', after, by simp [indentation], by decide⟩

theorem closes_closing (depth : Nat) (after : List Char) :
    closes ((indentation depth).toList ++ '\x7d' :: after) = true := by
  have hblank : '\x7d' ≠ ' ' := by decide
  rw [closes, dropWhile_indentation depth hblank]
  rfl

/-- The line of a field leaves the bodies open that it opens. -/
theorem laid_heading {depth last : Nat} (name : String) (rest : List Char) {ls : List (List Char)}
    (h : Laid (depth + (opens (heading depth name ++ rest)).toNat) ls last) :
    Laid depth ((heading depth name ++ rest) :: ls) last := by
  have hlaid := Laid.cons (isIndented_heading depth name rest) h
  rwa [closes_heading] at hlaid

/-- A line that closes a body, at the end or behind a field. -/
theorem laid_closing (depth : Nat) {after : List Char} (hafter : after = [] ∨ after = [',']) :
    Laid (depth + 1) [(indentation depth).toList ++ '\x7d' :: after] depth := by
  have hopens : opens ((indentation depth).toList ++ '\x7d' :: after) = false := by
    rcases hafter with rfl | rfl
    · exact isSuffixOf_append_singleton _ (by decide)
    · rw [opens, List.append_cons]
      exact isSuffixOf_append_singleton _ (by decide)
  have hlast := Laid.nil depth
  have hlaid := Laid.cons (isIndented_closing depth after) (by rwa [hopens])
  rwa [closes_closing] at hlaid

private theorem laid_fieldLines (depth : Nat) {fields : List Field}
    (h : ∀ f ∈ fields, Laid depth (linesOf sp depth f.2 (heading depth f.1) [',']) depth) :
    Laid depth (fieldLines sp depth fields) depth := by
  induction fields with
  | nil => exact .nil depth
  | cons f rest ih =>
    obtain ⟨hfirst, hrest⟩ := List.forall_mem_cons.mp h
    exact hfirst.append (ih hrest)

/-- The lines of a field close all bodies that they open. -/
theorem laid_linesOf (sp : Spelling) (s : Shape) (depth : Nat) (name : String)
    (before : List Char) :
    Laid depth (linesOf sp depth s (heading depth name ++ before) [',']) depth := by
  induction s using nodeInduction generalizing depth name before with
  | list r item ih =>
    rw [linesOf, List.append_assoc]
    exact ih depth name _
  | record fields ih =>
    have hfields := laid_fieldLines (depth + 1) fun f hf => by
      simpa using ih f hf (depth + 1) f.1 []
    have hbody := hfields.append (laid_closing depth (.inr rfl))
    rw [linesOf, List.append_assoc]
    refine laid_heading name _ ?_
    rwa [opens, ← List.append_assoc, isSuffixOf_append_structHead]
  | optional child ih =>
    rw [linesOf, List.append_assoc]
    exact ih depth name _
  | _ =>
    simp only [linesOf, List.append_assoc]
    refine laid_heading name _ ?_
    rw [opens, ← List.append_assoc before, ← List.append_assoc,
      isSuffixOf_append_singleton _ (by decide)]
    exact .nil depth

private theorem countP_closes_fieldLines (depth : Nat) {fields : List Field}
    (h : ∀ f ∈ fields, (linesOf sp depth f.2 (heading depth f.1) [',']).countP closes =
      (rowsOf f.2).length) :
    (fieldLines sp depth fields).countP closes = (fieldRows fields).length := by
  induction fields with
  | nil => rfl
  | cons f rest ih =>
    obtain ⟨hfirst, hrest⟩ := List.forall_mem_cons.mp h
    rw [fieldLines, fieldRows, List.countP_append, List.length_append, hfirst, ih hrest,
      Nat.add_comm]

/-- The lines of a field close a body for each record in it. -/
theorem countP_closes_linesOf (sp : Spelling) (s : Shape) (depth : Nat) (name : String)
    (before : List Char) :
    (linesOf sp depth s (heading depth name ++ before) [',']).countP closes =
      (rowsOf s).length := by
  induction s using nodeInduction generalizing depth name before with
  | list r item ih =>
    rw [linesOf, List.append_assoc]
    exact ih depth name _
  | record fields ih =>
    have hfields := countP_closes_fieldLines (depth + 1) fun f hf => by
      simpa using ih f hf (depth + 1) f.1 []
    rw [linesOf, List.append_assoc, countP_cons_eq_toNat_add, List.countP_append,
      countP_cons_eq_toNat_add, closes_heading, closes_closing, hfields]
    simp [rowsOf]
  | optional child ih =>
    rw [linesOf, List.append_assoc]
    exact ih depth name _
  | _ =>
    simp only [linesOf, List.append_assoc]
    rw [countP_cons_eq_toNat_add, closes_heading]
    rfl

private theorem length_fieldLines (depth : Nat) {fields : List Field}
    (h : ∀ f ∈ fields, ∀ before after,
      (linesOf sp depth f.2 before after).length = 1 + breaks f.2) :
    (fieldLines sp depth fields).length =
      fields.length + breaksOf (fieldRows fields) := by
  induction fields with
  | nil => rfl
  | cons f rest ih =>
    obtain ⟨hfirst, hrest⟩ := List.forall_mem_cons.mp h
    rw [fieldLines, fieldRows, List.length_append, hfirst, ih hrest, breaks, List.length_cons,
      breaksOf_append]
    omega

/-- A line ends in each break, and one at the end. -/
theorem length_linesOf (sp : Spelling) (s : Shape) (depth : Nat) (before after : List Char) :
    (linesOf sp depth s before after).length = 1 + breaks s := by
  induction s using nodeInduction generalizing depth before after with
  | list r item ih => exact ih depth _ after
  | record fields ih =>
    have hfields := length_fieldLines (depth + 1) fun f hf => ih f hf (depth + 1)
    have hbreaks : breaks (record fields) = 1 + fields.length + breaksOf (fieldRows fields) := by
      rw [breaks, rowsOf, breaksOf, List.foldr_cons, List.length_map, breaksOf]
    rw [linesOf, List.length_cons, List.length_append, hfields, hbreaks, List.length_singleton]
    omega
  | optional child ih => exact ih depth _ after
  | _ => rfl

/-- The lines of a record, with something in front of it, follow its nesting. -/
theorem followsNesting_record (sp : Spelling) (fields : List Field) (before : List Char) :
    FollowsNesting (record fields) (before ++ structHead)
      (fieldLines sp 1 fields ++ [(indentation 0).toList ++ ['\x7d']]) := by
  have hopens : opens (before ++ structHead) = true := isSuffixOf_append_structHead before
  have hfields := laid_fieldLines 1 fun f (_ : f ∈ fields) => by
    simpa using laid_linesOf sp f.2 1 f.1 []
  have hcloses := countP_closes_fieldLines 1 fun f (_ : f ∈ fields) => by
    simpa using countP_closes_linesOf sp f.2 1 f.1 []
  refine ⟨fun front l back hrest => ?indented, ?opened, ?closed⟩
  case indented =>
    have hlaid := hfields.append (laid_closing 0 (.inl rfl))
    rw [hrest] at hlaid
    rw [countP_cons_eq_toNat_add, hopens]
    exact hlaid.exists_isIndented
  case opened =>
    -- The fields open as many bodies as they close.
    have hcount := hfields.last_add_countP
    rw [← List.cons_append, List.dropLast_concat, countP_cons_eq_toNat_add, hopens, rowsOf,
      List.length_cons, ← hcloses, Bool.toNat_true]
    omega
  case closed =>
    rw [List.countP_append, hcloses, countP_cons_eq_toNat_add, closes_closing]
    simp [rowsOf]

/-- The lines of a type follow its nesting. -/
theorem exists_followsNesting (sp : Spelling) (s : Shape) (before : List Char) :
    ∃ first rest, linesOf sp 0 s before [] = first :: rest ∧ FollowsNesting s first rest := by
  induction s using nodeInduction generalizing before with
  | list r item ih =>
    obtain ⟨first, rest, hlines, h⟩ := ih (before ++ ['[', ']'])
    exact ⟨first, rest, hlines, h.indented, h.opened, h.closed⟩
  | record fields _ => exact ⟨_, _, rfl, followsNesting_record sp fields before⟩
  | optional child ih =>
    obtain ⟨first, rest, hlines, h⟩ := ih (before ++ ['?'])
    exact ⟨first, rest, hlines, h.indented, h.opened, h.closed⟩
  | _ =>
    refine ⟨_, [], rfl, fun front l back hrest => ?_, rfl, rfl⟩
    exact absurd hrest (by simp)

private theorem length_splitOn (cs : List Char) :
    (cs.splitOn '\n').length = cs.count '\n' + 1 := by
  induction cs with
  | nil => rfl
  | cons c cs ih =>
    rw [List.splitOn_cons_eq_if_modifyHead, List.count_cons]
    split_ifs <;> simp [ih]

/-- A type is written with the line breaks of its records, on lines that follow their nesting,
unless it is too high for the room. -/
theorem write_followsNesting (hsp : sp.isOneLine = true) {s : Shape} (hs : s.isGenuine = true) :
    (∃ text first rest, write sp none s = .ok text ∧ text.toList.count '\n' = breaks s ∧
      text.toList.splitOn '\n' = first :: rest ∧ FollowsNesting s first rest) ∨
        nestingRoom ≤ s.height ∧ write sp none s = .error .tooDeep := by
  have hcomplete := Spelling.isComplete_of_isOneLine hsp
  refine (write_of_isGenuine hcomplete hs none).imp_left fun htext => ?_
  obtain ⟨first, rest, hlines, hfollows⟩ := exists_followsNesting sp s []
  have hsplit := splitOn_typeText hsp hs
  have hcount : (typeText sp 0 s).count '\n' + 1 = 1 + breaks s := by
    rw [← length_splitOn, hsplit, length_linesOf]
  refine ⟨_, first, rest, htext, ?_, ?_, hfollows⟩
  · rw [String.toList_ofList]
    exact Nat.add_right_cancel (hcount.trans (Nat.add_comm 1 _))
  · rw [String.toList_ofList]
    exact hsplit.trans hlines

/-- Records in a list, a mark and one another, an empty one, and a name with a line break and the
head of a struct. -/
def nestedRecord : Shape :=
  record [("\n: struct \x7b", list ⟨1, 2⟩ (record [("a", bool), ("b", record [])])),
    ("\x7d", optional (record [("struct", unknown)]))]

theorem write_followsNesting_nestedRecord :
    Spelling.isOneLine {} = true ∧ nestedRecord.isGenuine = true ∧
      ∃ (text : String) (first : List Char) (rest : List (List Char)),
        write {} none nestedRecord = .ok text ∧ text.toList.count '\n' = 9 ∧
          text.toList.splitOn '\n' = first :: rest ∧ FollowsNesting nestedRecord first rest := by
  have hline : Spelling.isOneLine {} = true := by decide
  have hgenuine : nestedRecord.isGenuine = true := rfl
  have hroom : ¬ nestingRoom ≤ nestedRecord.height := by decide
  have hbreaks : breaks nestedRecord = 9 := by decide
  have h := (write_followsNesting hline hgenuine).resolve_right fun hdeep => hroom hdeep.1
  rw [hbreaks] at h
  exact ⟨hline, hgenuine, h⟩

end Lines

end JsonShape.Zig
