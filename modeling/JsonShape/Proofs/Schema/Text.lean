import JsonShape.Proofs.Json.Numeral

/-!
The JSON text of a schema in its pieces. Names, marks and lines are read as their tokens, whatever
follows them; a value with a number at its end is read if the number may end behind it.
-/

set_option autoImplicit false

namespace JsonShape.Json

open Lexer Schema.Json

/-- A text is read as some tokens. -/
def Covers (cs : List Char) (ts : List Token) : Prop :=
  ∀ read, takeText ⟨read, .idle⟩ cs = ⟨ts.reverse ++ read, .idle⟩

/-- A text at which the reading of tokens fails. -/
def Breaks (cs : List Char) : Prop :=
  ∀ read rest, Follows rest → (takeText ⟨read, .idle⟩ (cs ++ rest)).state = .failed

/-- A text behind which a number may end, if it may end behind what follows. -/
def Continues (cs : List Char) : Prop := ∀ rest, Follows rest → Follows (cs ++ rest)

section Pieces

variable {cs ds : List Char} {ts us : List Token}

theorem Covers.append (h : Covers cs ts) (h' : Covers ds us) : Covers (cs ++ ds) (ts ++ us) := by
  intro read
  rw [takeText_append, h, h', List.reverse_append, List.append_assoc]

theorem Covers.append_spells (h : Covers cs ts) (h' : Spells ds us) :
    Spells (cs ++ ds) (ts ++ us) := by
  intro read rest hrest
  rw [List.append_assoc, takeText_append, h, h' _ _ hrest, List.reverse_append, List.append_assoc]

theorem Covers.spells (h : Covers cs ts) : Spells cs ts := by
  intro read rest _
  rw [takeText_append, h]

theorem Covers.breaks (h : Covers cs ts) (h' : Breaks ds) : Breaks (cs ++ ds) := by
  intro read rest hrest
  rw [List.append_assoc, takeText_append, h]
  exact h' _ _ hrest

theorem Spells.append (h : Spells cs ts) (hcontinues : Continues ds) (h' : Spells ds us) :
    Spells (cs ++ ds) (ts ++ us) := by
  intro read rest hrest
  rw [List.append_assoc, h _ _ (hcontinues _ hrest), h' _ _ hrest, List.reverse_append,
    List.append_assoc]

theorem Spells.breaks (h : Spells cs ts) (hcontinues : Continues ds) (h' : Breaks ds) :
    Breaks (cs ++ ds) := by
  intro read rest hrest
  rw [List.append_assoc, h _ _ (hcontinues _ hrest)]
  exact h' _ _ hrest

theorem Breaks.append (h : Breaks cs) (hcontinues : Continues ds) : Breaks (cs ++ ds) := by
  intro read rest hrest
  rw [List.append_assoc]
  exact h _ _ (hcontinues _ hrest)

theorem continues_of_cons {c : Char} (hc : c = ',' ∨ c = '\n') (cs : List Char) :
    Continues (c :: cs) :=
  fun rest _ => ⟨c, cs ++ rest, rfl, hc⟩

end Pieces

/-! ### Strings -/

section Strings

theorem takeText_escapeChar (read : List Token) (d : Draft) (c : Char) :
    takeText ⟨read, .string d⟩ (escapeChar c) = ⟨read, .string (d.push c)⟩ := by
  unfold escapeChar
  split_ifs with hquote hslash hline hreturn htab hback hfeed hcontrol
  case pos => subst hquote; rfl
  case pos => subst hslash; rfl
  case pos => subst hline; rfl
  case pos => subst hreturn; rfl
  case pos => subst htab; rfl
  case pos => subst hback; rfl
  case pos => subst hfeed; rfl
  case pos => rw [takeText_hex read d hcontrol, Char.ofNat_toNat]
  case neg => exact takeChar_plain read d (Nat.not_lt.mp hcontrol) hquote hslash

theorem takeText_escaped (read : List Token) (cs : List Char) (d : Draft) :
    takeText ⟨read, .string d⟩ (cs.flatMap escapeChar) =
      ⟨read, .string { d with chars := cs.reverse ++ d.chars }⟩ := by
  induction cs generalizing d with
  | nil => rfl
  | cons c rest ih =>
    rw [List.flatMap_cons, takeText_append, takeText_escapeChar, ih, List.reverse_cons,
      List.append_assoc]
    rfl

theorem covers_string (s : String) : Covers (string s).toList [.text (.ok s)] := by
  intro read
  have hopen : takeChar ⟨read, .idle⟩ '"' = ⟨read, .string .empty⟩ := rfl
  have hclose (d : Draft) : takeChar ⟨read, .string d⟩ '"' = ⟨d.token :: read, .idle⟩ := rfl
  rw [string, String.toList_ofList, takeText_cons, hopen, takeText_append, takeText_escaped,
    takeText_cons, hclose, takeText_nil]
  simp [Draft.token, Draft.empty]

end Strings

/-! ### Entries -/

section Entries

theorem covers_blanks (n : ℕ) : Covers (List.replicate n ' ') [] := by
  intro read
  induction n with
  | zero => rfl
  | succ n ih =>
    rw [List.replicate_succ, takeText_cons]
    exact ih

theorem covers_newline (depth : ℕ) : Covers (newline depth).toList [] := by
  intro read
  rw [newline, String.toList_ofList, takeText_cons]
  exact covers_blanks _ read

theorem continues_newline (depth : ℕ) (cs : List Char) :
    Continues ((newline depth).toList ++ cs) := by
  rw [newline, String.toList_ofList]
  exact continues_of_cons (.inr rfl) _

/-- An entry up to its value. -/
def leadText (depth : ℕ) (name : String) : List Char :=
  (newline depth).toList ++ (string name).toList ++ [':', ' ']

theorem covers_leadText (depth : ℕ) (name : String) :
    Covers (leadText depth name) [.text (.ok name), .colon] := by
  have hcolon : Covers [':', ' '] [.colon] := fun _ => rfl
  exact ((covers_newline depth).append (covers_string name)).append hcolon

/-- The entries of a node from the first one's line on. -/
def bodyText (depth : ℕ) (name : String) (value : Schema) (rest : List (String × Schema)) :
    List Char :=
  leadText depth name ++ ((textAt depth value).toList ++ (entriesAt depth rest).toList)

theorem toList_textAt_entries (depth : ℕ) (name : String) (value : Schema)
    (rest : List (String × Schema)) :
    (textAt depth (.entries ((name, value) :: rest))).toList =
      '\x7b' :: (bodyText (depth + 1) name value rest ++ ((newline depth).toList ++ ['\x7d'])) := by
  simp [textAt, bodyText, leadText]

theorem toList_entriesAt_cons (depth : ℕ) (name : String) (value : Schema)
    (rest : List (String × Schema)) :
    (entriesAt depth ((name, value) :: rest)).toList = ',' :: bodyText depth name value rest := by
  simp [entriesAt, bodyText, leadText]

theorem continues_entriesAt (depth : ℕ) (rest : List (String × Schema)) :
    Continues (entriesAt depth rest).toList := by
  cases rest with
  | nil => exact fun _ hrest => hrest
  | cons e rest =>
    rw [toList_entriesAt_cons]
    exact continues_of_cons (.inl rfl) _

end Entries

end JsonShape.Json
