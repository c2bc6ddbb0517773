import JsonShape.Proofs.Zig.Layout

/-!
The structs of a written shape, read off its lines. A line that begins with a closing brace ends the
innermost struct; any other line inside a struct names a field, and opens another struct if it ends
with the head of one. What is read of a written record is the identifiers of the fields of each of
its structs, in which no identifier repeats if no name does.
-/

set_option autoImplicit false

namespace JsonShape.Zig

open Shape

/-- A quoted name up to its closing quote. -/
def takeQuoted : List Char → List Char
  | '\\' :: c :: rest => '\\' :: c :: takeQuoted rest
  | '"' :: _ => ['"']
  | c :: rest => c :: takeQuoted rest
  | [] => []

/-- The identifier that a text begins with: a quoted name or a word. -/
def takeIdentifier : List Char → List Char
  | '@' :: '"' :: rest => '@' :: '"' :: takeQuoted rest
  | cs => cs.takeWhile isWordChar

/-- What is read of some lines: the identifiers of the fields in each struct still open, the
innermost first, and in each struct closed, the last one first. -/
structure Reading where
  opened : List (List String)
  closed : List (List String)

namespace Reading

/-- Reads a line inside a struct. -/
def line (r : Reading) (cs : List Char) : Reading :=
  match r.opened with
  | [] => r
  | names :: outer =>
    let content := cs.dropWhile (· == ' ')
    if content.head? = some '\x7d' then ⟨outer, names :: r.closed⟩
    else
      let names := names ++ [String.ofList (takeIdentifier content)]
      if structHead.isSuffixOf cs then ⟨[] :: names :: outer, r.closed⟩
      else ⟨names :: outer, r.closed⟩

end Reading

/-- The identifiers of the fields of each struct in the text of a record, an outer struct before
those inside it. -/
def structs? (text : String) : Option (List (List String)) :=
  match text.toList.splitOn '\n' with
  | [] => none
  | first :: rest =>
    if structHead.isSuffixOf first then
      match rest.foldl Reading.line ⟨[[]], []⟩ with
      | ⟨[], closed⟩ => some closed
      | _ => none
    else none

mutual

/-- The identifiers of the fields of each record in a shape, an outer record before those inside
it, and of these the later first. -/
def rowsOf : Shape → List (List String)
  | .list _ item => rowsOf item
  | .optional child => rowsOf child
  | .record fields => fields.map (fun f => identifier f.1) :: fieldRows fields
  | _ => []

/-- The identifiers of the fields of each record inside some fields. -/
def fieldRows : List (String × Shape) → List (List String)
  | [] => []
  | (_, s) :: rest => fieldRows rest ++ rowsOf s

end

theorem mem_fieldRows {fields : List Field} {row : List String} :
    row ∈ fieldRows fields ↔ ∃ f ∈ fields, row ∈ rowsOf f.2 := by
  induction fields with
  | nil => simp [fieldRows]
  | cons f rest ih => simp [fieldRows, ih, or_comm]

/-- No identifier repeats in a record of a tidy shape. -/
theorem nodup_of_mem_rowsOf {s : Shape} (hs : s.isTidy = true) :
    ∀ row ∈ rowsOf s, row.Nodup := by
  induction s using nodeInduction with
  | list r item ih => exact ih (by simpa using hs)
  | record fields ih =>
    obtain ⟨hnames, hfields⟩ := isTidy_record_iff.mp hs
    rw [rowsOf, List.forall_mem_cons]
    refine ⟨?_, fun row hrow => ?_⟩
    · have hnodup := hnames.map identifier_injective
      rwa [List.map_map] at hnodup
    · obtain ⟨f, hf, hmem⟩ := mem_fieldRows.mp hrow
      exact ih f hf (hfields f hf) row hmem
  | optional child ih =>
    rw [isTidy_optional_iff] at hs
    exact ih hs.2
  | _ => simp [rowsOf]

section Heading

theorem takeQuoted_cons {c : Char} (hslash : c ≠ '\\') (hquote : c ≠ '"') (rest : List Char) :
    takeQuoted (c :: rest) = c :: takeQuoted rest := by
  cases rest with
  | nil => simp [takeQuoted]
  | cons d rest => simp [takeQuoted, hslash]

private theorem takeQuoted_digit {c : Char} {n : Nat} (h : Json.Lexing.hexValue? c = some n)
    (rest : List Char) : takeQuoted (c :: rest) = c :: takeQuoted rest := by
  have hslash : Json.Lexing.hexValue? '\\' = none := rfl
  have hquote : Json.Lexing.hexValue? '"' = none := rfl
  refine takeQuoted_cons ?_ ?_ rest
  · rintro rfl
    exact absurd (hslash.symm.trans h) (by simp)
  · rintro rfl
    exact absurd (hquote.symm.trans h) (by simp)

theorem takeQuoted_escapeChar (c : Char) (rest : List Char) :
    takeQuoted (escapeChar c ++ rest) = escapeChar c ++ takeQuoted rest := by
  unfold escapeChar
  split_ifs with hslash hquote hline hreturn htab hcontrol
  case pos => rfl
  case pos => rfl
  case pos => rfl
  case pos => rfl
  case pos => rfl
  case pos =>
    obtain ⟨high, low, hhex, hpair⟩ := exists_hexPair? hcontrol
    obtain ⟨⟨m, hhigh⟩, ⟨n, hlow⟩⟩ := exists_hexValue?_of_hexPair? hpair
    rw [hhex]
    simp only [List.cons_append, List.nil_append, takeQuoted, takeQuoted_digit hhigh,
      takeQuoted_digit hlow]
  case neg => exact takeQuoted_cons hslash hquote rest

theorem takeQuoted_escaped (cs rest : List Char) :
    takeQuoted (cs.flatMap escapeChar ++ '"' :: rest) = cs.flatMap escapeChar ++ ['"'] := by
  induction cs with
  | nil => rfl
  | cons c cs ih =>
    rw [List.flatMap_cons, List.append_assoc, takeQuoted_escapeChar, ih, List.append_assoc]

/-- An identifier is taken as a whole if no word goes on behind it. -/
theorem takeIdentifier_identifier (name : String) {d : Char} (hd : isWordChar d = false)
    (rest : List Char) :
    takeIdentifier ((identifier name).toList ++ d :: rest) = (identifier name).toList := by
  cases h : needsQuotes name with
  | true =>
    rw [identifier_of_needsQuotes h]
    simp only [List.cons_append, List.append_assoc, takeIdentifier, List.nil_append,
      takeQuoted_escaped]
  | false =>
    obtain ⟨c, cs, hname, hc, hcs⟩ := exists_word_of_not_needsQuotes h
    have hat : c ≠ '@' := by
      rintro rfl
      exact absurd hc (by decide)
    have hword : ∀ e ∈ c :: cs, isWordChar e = true := by
      rw [List.forall_mem_cons]
      exact ⟨by simp [isWordChar, hc], hcs⟩
    have htake : takeIdentifier (c :: cs ++ d :: rest) =
        (c :: cs ++ d :: rest).takeWhile isWordChar := by
      simp [takeIdentifier, hat]
    have hend : (d :: rest).takeWhile isWordChar = [] :=
      List.takeWhile_cons_of_neg (by simp [hd])
    rw [identifier_of_not_needsQuotes h, hname, htake, List.takeWhile_append_of_pos hword, hend,
      List.append_nil]

/-- An identifier begins neither with a blank nor with a brace. -/
theorem exists_identifier_cons (name : String) :
    ∃ c cs, (identifier name).toList = c :: cs ∧ c ≠ ' ' ∧ c ≠ '\x7d' := by
  cases h : needsQuotes name with
  | true => exact ⟨'@', _, identifier_of_needsQuotes h, by decide, by decide⟩
  | false =>
    obtain ⟨c, cs, hname, hc, -⟩ := exists_word_of_not_needsQuotes h
    refine ⟨c, cs, by rw [identifier_of_not_needsQuotes h, hname], ?_, ?_⟩
    · rintro rfl
      exact absurd hc (by decide)
    · rintro rfl
      exact absurd hc (by decide)

theorem dropWhile_indentation (depth : Nat) {c : Char} (hc : c ≠ ' ') (cs : List Char) :
    ((indentation depth).toList ++ c :: cs).dropWhile (· == ' ') = c :: cs := by
  have hblanks : ∀ d ∈ (indentation depth).toList, (d == ' ') = true := by
    simp [indentation]
  rw [List.dropWhile_append_of_pos hblanks, List.dropWhile_cons_of_neg (by simpa using hc)]

theorem dropWhile_heading (depth : Nat) (name : String) (rest : List Char) :
    (heading depth name ++ rest).dropWhile (· == ' ') =
      (identifier name).toList ++ ':' :: ' ' :: rest := by
  obtain ⟨c, cs, hname, hblank, -⟩ := exists_identifier_cons name
  rw [heading, hname]
  simp only [List.append_assoc, List.cons_append, List.nil_append]
  exact dropWhile_indentation depth hblank _

/-- The line of a field does not begin with a brace. -/
theorem head?_dropWhile_heading_ne (depth : Nat) (name : String) (rest : List Char) :
    ((heading depth name ++ rest).dropWhile (· == ' ')).head? ≠ some '\x7d' := by
  obtain ⟨c, cs, hname, -, hbrace⟩ := exists_identifier_cons name
  rw [dropWhile_heading, hname]
  simpa using hbrace

theorem isSuffixOf_append_structHead (before : List Char) :
    structHead.isSuffixOf (before ++ structHead) = true := by
  rw [List.isSuffixOf_iff_suffix]
  exact List.suffix_append _ _

theorem isSuffixOf_append_singleton (before : List Char) {c : Char} (hc : c ≠ '\x7b') :
    structHead.isSuffixOf (before ++ [c]) = false := by
  rw [← Bool.not_eq_true, List.isSuffixOf_iff_suffix]
  rintro ⟨front, hfront⟩
  have hhead : structHead = "struct ".toList ++ ['\x7b'] := rfl
  have hlast := congrArg List.getLast? hfront
  rw [hhead, ← List.append_assoc, List.getLast?_concat, List.getLast?_concat] at hlast
  exact hc (Option.some_inj.mp hlast).symm

end Heading

namespace Reading

variable {names : List String} {outer closed : List (List String)}

theorem line_heading (depth : Nat) (name : String) (rest : List Char) :
    line ⟨names :: outer, closed⟩ (heading depth name ++ rest) =
      if structHead.isSuffixOf (heading depth name ++ rest) then
        ⟨[] :: (names ++ [identifier name]) :: outer, closed⟩
      else ⟨(names ++ [identifier name]) :: outer, closed⟩ := by
  have hcolon : isWordChar ':' = false := by decide
  simp only [line]
  rw [if_neg (head?_dropWhile_heading_ne depth name rest), dropWhile_heading,
    takeIdentifier_identifier name hcolon, String.ofList_toList]

/-- A line with a whole field. -/
theorem line_field (depth : Nat) (name : String) (rest : List Char) :
    line ⟨names :: outer, closed⟩ (heading depth name ++ (rest ++ [','])) =
      ⟨(names ++ [identifier name]) :: outer, closed⟩ := by
  have hcomma : ',' ≠ '\x7b' := by decide
  rw [line_heading, ← List.append_assoc, isSuffixOf_append_singleton _ hcomma, if_neg (by simp)]

/-- A line with a field whose type is a struct. -/
theorem line_open (depth : Nat) (name : String) (rest : List Char) :
    line ⟨names :: outer, closed⟩ (heading depth name ++ (rest ++ structHead)) =
      ⟨[] :: (names ++ [identifier name]) :: outer, closed⟩ := by
  rw [line_heading, ← List.append_assoc, if_pos (isSuffixOf_append_structHead _)]

/-- A line that closes a struct. -/
theorem line_close (depth : Nat) (after : List Char) :
    line ⟨names :: outer, closed⟩ ((indentation depth).toList ++ '\x7d' :: after) =
      ⟨outer, names :: closed⟩ := by
  have hbrace : ('\x7d' : Char) ≠ ' ' := by decide
  simp only [line, dropWhile_indentation depth hbrace, List.head?_cons, if_true]

variable {sp : Spelling}

private theorem foldl_line_fieldLines (sp : Spelling) (depth : Nat) {fields : List Field}
    (h : ∀ f ∈ fields, ∀ names outer closed,
      (linesOf sp depth f.2 (heading depth f.1) [',']).foldl line ⟨names :: outer, closed⟩ =
        ⟨(names ++ [identifier f.1]) :: outer, rowsOf f.2 ++ closed⟩)
    (names : List String) (outer closed : List (List String)) :
    (fieldLines sp depth fields).foldl line ⟨names :: outer, closed⟩ =
      ⟨(names ++ fields.map fun f => identifier f.1) :: outer, fieldRows fields ++ closed⟩ := by
  induction fields generalizing names closed with
  | nil => simp [fieldLines, fieldRows]
  | cons f rest ih =>
    obtain ⟨hfirst, hrest⟩ := List.forall_mem_cons.mp h
    rw [fieldLines, List.foldl_append, hfirst, ih hrest]
    simp [fieldRows]

/-- The lines of a field are read as its identifier and the records inside it. -/
theorem foldl_line_linesOf (s : Shape) (depth : Nat) (name : String) (before : List Char)
    (names : List String) (outer closed : List (List String)) :
    (linesOf sp depth s (heading depth name ++ before) [',']).foldl line
      ⟨names :: outer, closed⟩ =
        ⟨(names ++ [identifier name]) :: outer, rowsOf s ++ closed⟩ := by
  -- A list or a mark adds to what stands in front of its child on the line.
  induction s using nodeInduction generalizing depth name before names outer closed with
  | list r item ih =>
    rw [linesOf, List.append_assoc]
    exact ih depth name _ names outer closed
  | record fields ih =>
    have hfields := foldl_line_fieldLines sp (depth + 1) fun f hf => by
      simpa using ih f hf (depth + 1) f.1 []
    rw [linesOf, List.foldl_cons, List.append_assoc, line_open, List.foldl_append,
      hfields, List.foldl_cons, line_close]
    simp [rowsOf]
  | optional child ih =>
    rw [linesOf, List.append_assoc]
    exact ih depth name _ names outer closed
  | _ =>
    simp only [linesOf, List.foldl_cons, List.foldl_nil, List.append_assoc]
    rw [← List.append_assoc before, line_field]
    rfl

end Reading

/-- The text of a record is read as the identifiers of its records. -/
theorem structs?_write {sp : Spelling} (hsp : sp.isOneLine = true) {fields : List Field}
    (hs : (record fields).isGenuine = true) (hroom : (record fields).height < nestingRoom) :
    ∃ text, write sp none (record fields) = .ok text ∧
      structs? text = some (rowsOf (record fields)) := by
  obtain ⟨text, htext, hlines⟩ := splitOn_assemble hsp hs hroom
  refine ⟨text, htext, ?_⟩
  have hfields := Reading.foldl_line_fieldLines sp 1
    fun f (_ : f ∈ fields) names outer closed => by
      simpa using Reading.foldl_line_linesOf f.2 1 f.1 [] names outer closed
  have hread : (fieldLines sp 1 fields ++ [(indentation 0).toList ++ ['\x7d']]).foldl
      Reading.line ⟨[[]], []⟩ = ⟨[], rowsOf (record fields)⟩ := by
    rw [List.foldl_append, hfields, List.foldl_cons, Reading.line_close]
    simp [rowsOf]
  have hhead : structHead.isSuffixOf ([] ++ structHead) = true := rfl
  simp only [structs?, hlines, linesOf, hhead, if_true, hread]

example :
    structs? "struct \x7b\n    a: []struct \x7b\n        @\"\\\"\": i64,\n    \x7d,\n\x7d" =
      some [["a"], ["@\"\\\"\""]] := by
  decide

end JsonShape.Zig
