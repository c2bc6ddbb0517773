import JsonShape.Json.Lexing
import JsonShape.Zig.Identifier
import Mathlib.Data.List.Forall2
import Mathlib.Logic.Function.Basic
import Mathlib.Tactic.IntervalCases

/-!
Identifiers tell names apart. A word that is no keyword is its own identifier. Any other name is
quoted: what stands between its quotes is made of complete escapes and plain characters, one for
each character of the name, and reading it from left to right gives the name back. A word that
stands as it is begins with a letter or an underscore, and a quoted name with `@`.
-/

set_option autoImplicit false

namespace JsonShape.Zig

/-- A character that stands for itself between quotes. -/
def isPlain (c : Char) : Bool :=
  0x20 ≤ c.toNat && c.toNat ≠ 0x7f && c ≠ '"' && c ≠ '\\'

/-- The character that a backslash makes of a letter. -/
def escaped? : Char → Option Char
  | '\\' => some '\\'
  | '"' => some '"'
  | 'n' => some '\n'
  | 'r' => some '\r'
  | 't' => some '\t'
  | _ => none

/-- The character of two hexadecimal digits. -/
def hexPair? (high low : Char) : Option Char :=
  match Json.Lexing.hexValue? high, Json.Lexing.hexValue? low with
  | some m, some n => some (Char.ofNat (16 * m + n))
  | _, _ => none

/-- The name between two quotes, read from left to right. A quote, a control character or an
incomplete escape is no part of one. -/
def unescape? : List Char → Option (List Char)
  | [] => some []
  | '\\' :: 'x' :: high :: low :: rest =>
    match hexPair? high low, unescape? rest with
    | some c, some cs => some (c :: cs)
    | _, _ => none
  | '\\' :: letter :: rest =>
    match escaped? letter, unescape? rest with
    | some c, some cs => some (c :: cs)
    | _, _ => none
  | c :: rest => if isPlain c then (unescape? rest).map (c :: ·) else none

theorem unescape?_letter {letter c : Char} (h : escaped? letter = some c) (rest : List Char) :
    unescape? ('\\' :: letter :: rest) = (unescape? rest).map (c :: ·) := by
  have hx : letter ≠ 'x' := by
    rintro rfl
    simp [escaped?] at h
  cases hrest : unescape? rest <;> simp [unescape?, hx, h, hrest]

theorem exists_hexPair? {n : Nat} (h : n < 0x20 ∨ n = 0x7f) :
    ∃ high low, Text.hex 2 n = [high, low] ∧ hexPair? high low = some (Char.ofNat n) := by
  rcases h with h | rfl
  · interval_cases n <;> exact ⟨_, _, rfl, rfl⟩
  · exact ⟨_, _, rfl, rfl⟩

theorem exists_hexValue?_of_hexPair? {high low c : Char} (h : hexPair? high low = some c) :
    (∃ m, Json.Lexing.hexValue? high = some m) ∧ ∃ n, Json.Lexing.hexValue? low = some n := by
  unfold hexPair? at h
  split at h
  · next m n hhigh hlow => exact ⟨⟨m, hhigh⟩, ⟨n, hlow⟩⟩
  · simp at h

/-- A plain character or a complete escape, and the character that it stands for. -/
inductive Stands : List Char → Char → Prop
  | plain {c : Char} (h : isPlain c = true) : Stands [c] c
  | letter {l c : Char} (h : escaped? l = some c) : Stands ['\\', l] c
  | hex {high low c : Char} (h : hexPair? high low = some c) : Stands ['\\', 'x', high, low] c

theorem stands_escapeChar (c : Char) : Stands (escapeChar c) c := by
  unfold escapeChar
  split_ifs with hslash hquote hline hreturn htab hcontrol
  case pos => subst hslash; exact .letter rfl
  case pos => subst hquote; exact .letter rfl
  case pos => subst hline; exact .letter rfl
  case pos => subst hreturn; exact .letter rfl
  case pos => subst htab; exact .letter rfl
  case pos =>
    obtain ⟨high, low, hhex, hpair⟩ := exists_hexPair? hcontrol
    rw [Char.ofNat_toNat] at hpair
    rw [hhex]
    exact .hex hpair
  case neg =>
    refine .plain ?_
    simp only [not_or, not_lt] at hcontrol
    simp [isPlain, hslash, hquote, hcontrol]

/-- A character is read back from what stands for it, whatever follows. -/
theorem unescape?_append {u : List Char} {c : Char} (h : Stands u c) (rest : List Char) :
    unescape? (u ++ rest) = (unescape? rest).map (c :: ·) := by
  cases h with
  | plain h =>
    have hslash : c ≠ '\\' := by
      rintro rfl
      exact absurd h (by decide)
    simp [unescape?, hslash, h]
  | letter h => exact unescape?_letter h rest
  | hex h => cases hrest : unescape? rest <;> simp [unescape?, h, hrest]

theorem forall₂_stands (cs : List Char) : List.Forall₂ Stands (cs.map escapeChar) cs :=
  List.forall₂_map_left_iff.mpr (List.forall₂_same.mpr fun c _ => stands_escapeChar c)

theorem unescape?_flatten {units : List (List Char)} {cs : List Char}
    (h : List.Forall₂ Stands units cs) : unescape? units.flatten = some cs := by
  induction h with
  | nil => rfl
  | cons hu _ ih => rw [List.flatten_cons, unescape?_append hu, ih]; rfl

/-- A name is read back from what stands between its quotes. -/
theorem unescape?_escaped (cs : List Char) : unescape? (cs.flatMap escapeChar) = some cs := by
  rw [List.flatMap_def]
  exact unescape?_flatten (forall₂_stands cs)

/-- A quote in what stands for a character is what a backslash escapes. -/
theorem Stands.eq_of_quote {u front back : List Char} {c : Char} (h : Stands u c)
    (hu : u = front ++ '"' :: back) : front = ['\\'] := by
  have hmem : '"' ∈ u := hu ▸ List.mem_append_right front List.mem_cons_self
  cases h with
  | plain h =>
    obtain rfl := List.mem_singleton.mp hmem
    exact absurd h (by decide)
  | letter h =>
    obtain ⟨rfl, hcons⟩ | ⟨a, rfl, htail⟩ := List.cons_eq_append_iff.mp hu
    · exact absurd (List.cons.inj hcons).1 (by decide)
    · obtain ⟨rfl, -⟩ | ⟨b, rfl, hnil⟩ := List.cons_eq_append_iff.mp htail
      · rfl
      · simp at hnil
  | @hex high low _ h =>
    have hquote : Json.Lexing.hexValue? '"' = none := rfl
    obtain ⟨⟨m, hhigh⟩, ⟨n, hlow⟩⟩ := exists_hexValue?_of_hexPair? h
    have hdigit : '"' = high ∨ '"' = low := by simpa using hmem
    rcases hdigit with rfl | rfl
    · cases hquote.symm.trans hhigh
    · cases hquote.symm.trans hlow

/-- Between the quotes of a name a quote follows a backslash that begins an escape. -/
theorem exists_of_quote {units : List (List Char)} {cs front back : List Char}
    (h : List.Forall₂ Stands units cs) (hflat : units.flatten = front ++ '"' :: back) :
    ∃ start ds, front = start ++ ['\\'] ∧ unescape? start = some ds := by
  induction h generalizing front with
  | nil => simp at hflat
  | @cons u c units cs hu _ ih =>
    have hlater {front' : List Char} (hfront : front = u ++ front')
        (htail : units.flatten = front' ++ '"' :: back) :
        ∃ start ds, front = start ++ ['\\'] ∧ unescape? start = some ds := by
      obtain ⟨start, ds, rfl, hread⟩ := ih htail
      exact ⟨u ++ start, c :: ds, by rw [hfront, List.append_assoc],
        by rw [unescape?_append hu, hread]; rfl⟩
    rw [List.flatten_cons] at hflat
    obtain ⟨front', hfront, htail⟩ | ⟨rest, hrest, hquote⟩ := List.append_eq_append_iff.mp hflat
    · exact hlater hfront htail
    · cases rest with
      | nil =>
        have hfront : front = u ++ [] := by simpa using hrest.symm
        exact hlater hfront hquote.symm
      | cons d rest =>
        obtain ⟨rfl, -⟩ := List.cons.inj hquote
        exact ⟨[], [], hu.eq_of_quote hrest, rfl⟩

theorem identifier_of_needsQuotes {name : String} (h : needsQuotes name = true) :
    (identifier name).toList = '@' :: '"' :: (name.toList.flatMap escapeChar ++ ['"']) := by
  rw [identifier, if_pos h, String.toList_ofList]

theorem identifier_of_not_needsQuotes {name : String} (h : needsQuotes name = false) :
    identifier name = name := by
  simp [identifier, h]

/-- A name that stands as it is is a word. -/
theorem exists_word_of_not_needsQuotes {name : String} (h : needsQuotes name = false) :
    ∃ c rest, name.toList = c :: rest ∧ isWordStart c = true ∧ ∀ d ∈ rest, isWordChar d = true := by
  simp only [needsQuotes, Bool.or_eq_false_iff, Bool.not_eq_false'] at h
  cases hname : name.toList with
  | nil => simp [hname, isWord] at h
  | cons c rest =>
    simp only [hname, isWord, Bool.and_eq_true, List.all_eq_true] at h
    exact ⟨c, rest, rfl, h.1⟩

theorem not_isWordStart_at : isWordStart '@' = false := by decide

private theorem identifier_ne_of_needsQuotes {name other : String} (h : needsQuotes name = true)
    (h' : needsQuotes other = false) : identifier name ≠ identifier other := by
  intro heq
  obtain ⟨c, rest, hother, hc, -⟩ := exists_word_of_not_needsQuotes h'
  have hchars := congrArg String.toList heq
  rw [identifier_of_needsQuotes h, identifier_of_not_needsQuotes h', hother] at hchars
  obtain ⟨rfl, -⟩ := List.cons_eq_cons.mp hchars
  exact Bool.false_ne_true (not_isWordStart_at.symm.trans hc)

/-- Different names are different identifiers. -/
theorem identifier_injective : Function.Injective identifier := by
  intro name other heq
  cases h : needsQuotes name with
  | false =>
    cases h' : needsQuotes other with
    | false => rwa [identifier_of_not_needsQuotes h, identifier_of_not_needsQuotes h'] at heq
    | true => exact absurd heq.symm (identifier_ne_of_needsQuotes h' h)
  | true =>
    cases h' : needsQuotes other with
    | false => exact absurd heq (identifier_ne_of_needsQuotes h h')
    | true =>
      have hchars := congrArg String.toList heq
      rw [identifier_of_needsQuotes h, identifier_of_needsQuotes h'] at hchars
      have hbody := List.append_cancel_right (List.cons.inj (List.cons.inj hchars).2).2
      have hread := congrArg unescape? hbody
      rw [unescape?_escaped, unescape?_escaped] at hread
      exact String.toList_injective (Option.some.inj hread)

/-- A control character of ASCII. -/
def isControl (c : Char) : Bool := c.toNat < 0x20 || c.toNat = 0x7f

/-- No escape has a control character. -/
theorem all_escapeChar (c : Char) : (escapeChar c).all (!isControl ·) = true := by
  unfold escapeChar
  split_ifs with hslash hquote hline hreturn htab hcontrol
  case pos => rfl
  case pos => rfl
  case pos => rfl
  case pos => rfl
  case pos => rfl
  case pos =>
    rcases hcontrol with hlow | hdel
    · interval_cases hn : c.toNat <;> rfl
    · rw [hdel]; rfl
  case neg => simpa [isControl] using hcontrol

theorem newline_notMem_identifier (name : String) : '\n' ∉ (identifier name).toList := by
  cases h : needsQuotes name with
  | false =>
    obtain ⟨c, rest, hname, hc, hrest⟩ := exists_word_of_not_needsQuotes h
    rw [identifier_of_not_needsQuotes h, hname, List.mem_cons]
    rintro (rfl | hmem)
    · exact absurd hc (by decide)
    · exact absurd (hrest _ hmem) (by decide)
  | true =>
    rw [identifier_of_needsQuotes h]
    simp only [List.mem_cons, List.mem_append, List.mem_flatMap, List.not_mem_nil, or_false]
    rintro (hat | hopen | ⟨c, -, hc⟩ | hclose)
    · exact absurd hat (by decide)
    · exact absurd hopen (by decide)
    · exact absurd (List.all_eq_true.mp (all_escapeChar c) _ hc) (by decide)
    · exact absurd hclose (by decide)

/-- The letters of ASCII and the underscore. -/
def IsLetter (c : Char) : Prop := c = '_' ∨ 'A' ≤ c ∧ c ≤ 'Z' ∨ 'a' ≤ c ∧ c ≤ 'z'

/-- A name that is a word of letters and digits and no keyword. -/
structure IsBare (name : String) : Prop where
  /-- It begins with a letter and goes on with letters and digits. -/
  word : ∃ c cs, name.toList = c :: cs ∧ IsLetter c ∧ ∀ d ∈ cs, IsLetter d ∨ '0' ≤ d ∧ d ≤ '9'
  /-- It is not reserved. -/
  free : name ∉ keywords

theorem isWordStart_iff {c : Char} : isWordStart c = true ↔ IsLetter c := by
  have hupper : c.isUpper = true ↔ 'A' ≤ c ∧ c ≤ 'Z' := decide_eq_true_iff
  have hlower : c.isLower = true ↔ 'a' ≤ c ∧ c ≤ 'z' :=
    Bool.and_eq_true_iff.trans (and_congr decide_eq_true_iff decide_eq_true_iff)
  have halpha : c.isAlpha = true ↔ c.isUpper = true ∨ c.isLower = true := Bool.or_eq_true_iff
  rw [isWordStart, Bool.or_eq_true, beq_iff_eq, halpha, hupper, hlower, IsLetter]

theorem isWordChar_iff {c : Char} : isWordChar c = true ↔ IsLetter c ∨ '0' ≤ c ∧ c ≤ '9' := by
  have hdigit : c.isDigit = true ↔ '0' ≤ c ∧ c ≤ '9' :=
    Bool.and_eq_true_iff.trans (and_congr decide_eq_true_iff decide_eq_true_iff)
  rw [isWordChar, Bool.or_eq_true, isWordStart_iff, hdigit]

theorem isWord_iff {cs : List Char} :
    isWord cs = true ↔
      ∃ c rest, cs = c :: rest ∧ IsLetter c ∧ ∀ d ∈ rest, IsLetter d ∨ '0' ≤ d ∧ d ≤ '9' := by
  cases cs with
  | nil => simp [isWord]
  | cons c rest => simp [isWord, isWordStart_iff, isWordChar_iff]

theorem isBare_iff {name : String} : IsBare name ↔ needsQuotes name = false := by
  simp only [needsQuotes, Bool.or_eq_false_iff, Bool.not_eq_false', isWord_iff,
    List.contains_eq_mem, decide_eq_false_iff_not]
  exact ⟨fun h => ⟨h.word, h.free⟩, fun h => ⟨h.1, h.2⟩⟩

theorem Stands.length_pos {u : List Char} {c : Char} (h : Stands u c) : 0 < u.length := by
  cases h <;> simp

theorem length_le_flatMap_escapeChar (cs : List Char) :
    cs.length ≤ (cs.flatMap escapeChar).length := by
  induction cs with
  | nil => exact le_rfl
  | cons c rest ih =>
    have hunit := (stands_escapeChar c).length_pos
    rw [List.flatMap_cons, List.length_append, List.length_cons]
    omega

/-- What a name is between quotes. -/
structure IsQuoting (body : List Char) (name : String) : Prop where
  /-- It is made of plain characters and complete escapes, one for each character of the name. -/
  units : ∃ units, body = units.flatten ∧ List.Forall₂ Stands units name.toList
  /-- Read from left to right it is the name. -/
  read : unescape? body = some name.toList
  /-- It has no control characters. -/
  printable : ∀ c ∈ body, 0x20 ≤ c.toNat ∧ c.toNat ≠ 0x7f
  /-- A quote in it follows a backslash that begins an escape. -/
  quotes : ∀ front back, body = front ++ '"' :: back →
    ∃ start cs, front = start ++ ['\\'] ∧ unescape? start = some cs

theorem isQuoting_escaped (name : String) : IsQuoting (name.toList.flatMap escapeChar) name where
  units := ⟨_, List.flatMap_def, forall₂_stands _⟩
  read := unescape?_escaped _
  printable c hc := by
    obtain ⟨d, -, hd⟩ := List.mem_flatMap.mp hc
    have hcontrol := List.all_eq_true.mp (all_escapeChar d) c hd
    simpa [isControl] using hcontrol
  quotes front back h := by
    rw [List.flatMap_def] at h
    exact exists_of_quote (forall₂_stands _) h

/-- A name is its own identifier just if it is a word and no keyword, and stands quoted otherwise.
Different names are different identifiers. -/
theorem identifier_bare_or_quoted (name : String) :
    (IsBare name ∧ identifier name = name ∨
      ¬ IsBare name ∧ identifier name ≠ name ∧ ∃ body, IsQuoting body name ∧
        (identifier name).toList = '@' :: '"' :: (body ++ ['"'])) ∧
      ∀ other, identifier other = identifier name → other = name := by
  refine ⟨?_, fun other h => identifier_injective h⟩
  cases h : needsQuotes name with
  | false => exact .inl ⟨isBare_iff.mpr h, identifier_of_not_needsQuotes h⟩
  | true =>
    have hnot : ¬ IsBare name := fun hbare => by simp [isBare_iff.mp hbare] at h
    have hquoted := identifier_of_needsQuotes h
    refine .inr ⟨hnot, fun heq => ?_, _, isQuoting_escaped name, hquoted⟩
    -- The quotes make the identifier longer than the name.
    have hlength := congrArg List.length hquoted
    have hescaped := length_le_flatMap_escapeChar name.toList
    rw [heq, List.length_cons, List.length_cons, List.length_append] at hlength
    omega

end JsonShape.Zig
