import JsonShape.Json.Lexing
import Mathlib.Data.Nat.Notation
import Mathlib.Tactic.IntervalCases

/-!
Text as the lexer takes it, character by character. A character is taken by the bytes of its UTF-8
form; inside a string it is pushed, written as it is or as an escape. Of a number each part is taken
as a whole, and the token stands complete where something follows that cannot belong to it.
-/

set_option autoImplicit false

namespace JsonShape.Json

theorem toList_loop (bytes : ByteArray) (i : ℕ) (taken : List UInt8) :
    ByteArray.toList.loop bytes i taken = taken.reverse ++ bytes.data.toList.drop i := by
  fun_induction ByteArray.toList.loop bytes i taken with
  | case1 i taken h ih =>
    have hi : i < bytes.data.toList.length := h
    have hget : bytes.get! i = bytes.data.toList[i] := getElem!_pos bytes.data i h
    rw [ih, List.drop_eq_getElem_cons hi, ← hget]
    simp only [List.reverse_cons, List.append_assoc, List.singleton_append]
  | case2 i taken h =>
    have hi : bytes.data.toList.length ≤ i := Nat.not_lt.mp h
    rw [List.drop_eq_nil_of_le hi, List.append_nil]

theorem toList_toUTF8 (s : String) :
    s.toUTF8.toList = s.toList.flatMap String.utf8EncodeChar := by
  rw [String.toUTF8_eq_toByteArray, ← String.utf8Encode_toList, ByteArray.toList, toList_loop]
  simp only [List.utf8Encode, List.data_toByteArray, List.drop_zero, List.reverse_nil,
    List.nil_append]

namespace Lexer

/-- The reading after some bytes. -/
def takeBytes (l : Lexer) (bytes : List UInt8) : Lexer :=
  bytes.foldl (fun l b => l.take (Char.ofNat b.toNat)) l

/-- The reading after a character. -/
def takeChar (l : Lexer) (c : Char) : Lexer := l.takeBytes (String.utf8EncodeChar c)

/-- The reading after some characters. -/
def takeText (l : Lexer) (cs : List Char) : Lexer := cs.foldl takeChar l

@[simp] theorem takeText_nil (l : Lexer) : l.takeText [] = l := rfl

@[simp] theorem takeText_cons (l : Lexer) (c : Char) (cs : List Char) :
    l.takeText (c :: cs) = (l.takeChar c).takeText cs := rfl

theorem takeText_append (l : Lexer) (cs ds : List Char) :
    l.takeText (cs ++ ds) = (l.takeText cs).takeText ds :=
  List.foldl_append

theorem takeBytes_flatMap (l : Lexer) (cs : List Char) :
    l.takeBytes (cs.flatMap String.utf8EncodeChar) = l.takeText cs := by
  induction cs generalizing l with
  | nil => rfl
  | cons c rest ih =>
    rw [List.flatMap_cons, takeBytes, List.foldl_append]
    exact ih (l.takeChar c)

theorem takeBytes_toUTF8 (l : Lexer) (s : String) :
    l.takeBytes s.toUTF8.toList = l.takeText s.toList := by
  rw [toList_toUTF8, takeBytes_flatMap]

/-- A character of ASCII is its own byte. -/
theorem takeChar_of_lt {c : Char} (h : c.toNat < 0x80) (l : Lexer) : l.takeChar c = l.take c := by
  have hle : c.val.toNat ≤ 0x7f := Nat.le_of_lt_succ h
  have hbyte : (UInt8.ofNat c.val.toNat).toNat = c.toNat :=
    UInt8.toNat_ofNat_of_lt' (Nat.lt_of_lt_of_le h (by decide))
  simp only [takeChar, String.utf8EncodeChar, if_pos hle, takeBytes, List.foldl_cons,
    List.foldl_nil, hbyte, Char.ofNat_toNat]

/-! ### Characters of a string -/

section Strings

variable (read : List Token) (d : Draft)

theorem toNat_ofNat {n : ℕ} (h : n.isValidChar) : (Char.ofNat n).toNat = n := by
  rw [Char.ofNat, dif_pos h]
  rfl

theorem toNat_ofNat_byte {b : ℕ} (h : b < 0x100) : (Char.ofNat b).toNat = b :=
  toNat_ofNat (.inl (Nat.lt_of_lt_of_le h (by decide)))

/-- The first byte of a sequence of several. -/
theorem take_lead {b : ℕ} (hlo : 0xc0 ≤ b) (hhi : b < 0xf8) :
    take ⟨read, .string d⟩ (Char.ofNat b) =
      ⟨read, if b < 0xe0 then .utf8 d 1 (b % 0x20) b
        else if b < 0xf0 then .utf8 d 2 (b % 0x10) b else .utf8 d 3 (b % 0x08) b⟩ := by
  have hb := toNat_ofNat_byte (b := b) (by omega)
  have hne : ∀ c : Char, c.toNat < 0xc0 → Char.ofNat b ≠ c := by
    rintro c hc rfl
    omega
  simp only [take, Lexing.step, Lexing.stringStep, hb, if_neg (hne '"' (by decide)),
    if_neg (hne '\\' (by decide)), if_neg (show ¬b < 0x20 by omega),
    if_neg (show ¬b < 0x80 by omega)]
  by_cases h1 : b < 0xe0
  · simp only [if_pos h1, if_pos (And.intro hlo h1), List.reverse_nil, List.nil_append]
  · rw [if_neg h1, if_neg (fun h => h1 h.2)]
    by_cases h2 : b < 0xf0
    · simp only [if_pos h2, if_pos (And.intro (Nat.not_lt.mp h1) h2), List.reverse_nil,
        List.nil_append]
    · simp only [if_neg h2, if_neg (fun h : 0xe0 ≤ b ∧ b < 0xf0 => h2 h.2),
        if_pos (And.intro (Nat.not_lt.mp h2) hhi), List.reverse_nil, List.nil_append]

/-- A byte inside a sequence of several, or its last one. -/
theorem take_trail {left code byte b : ℕ} (hlo : 0x80 ≤ b) (hhi : b < 0xc0) :
    take ⟨read, .utf8 d left code byte⟩ (Char.ofNat b) =
      ⟨read, if left ≤ 1 then .string (d.pushCode byte (code * 0x40 + b % 0x40))
        else .utf8 d (left - 1) (code * 0x40 + b % 0x40) byte⟩ := by
  have hb := toNat_ofNat_byte (b := b) (by omega)
  simp only [take, Lexing.step, hb, if_pos (And.intro hlo hhi), List.reverse_nil, List.nil_append]

theorem takeBytes_ofNat_cons (l : Lexer) {b : ℕ} (h : b < 0x100) (rest : List UInt8) :
    l.takeBytes (UInt8.ofNat b :: rest) = (l.take (Char.ofNat b)).takeBytes rest := by
  have hb : (UInt8.ofNat b).toNat = b := UInt8.toNat_ofNat_of_lt' h
  simp only [takeBytes, List.foldl_cons, hb]

theorem pushCode_toNat (c : Char) {byte code : ℕ} (hcode : code = c.toNat)
    (h : (if byte < 0xe0 then 0x80 else if byte < 0xf0 then 0x800 else 0x10000) ≤ code) :
    d.pushCode byte code = d.push c := by
  subst hcode
  have hvalid : c.toNat.isValidChar := c.valid
  simp only [Draft.pushCode, h, hvalid, decide_true, Bool.and_self, if_true, Char.ofNat_toNat]

/-- A character beyond ASCII inside a string. -/
theorem takeChar_wide {c : Char} (h : 0x80 ≤ c.toNat) :
    takeChar ⟨read, .string d⟩ c = ⟨read, .string (d.push c)⟩ := by
  have hmax : c.toNat < 0x110000 := by
    rcases c.valid with hc | ⟨-, hc⟩
    · exact Nat.lt_trans hc (by decide)
    · exact hc
  have hval : c.val.toNat = c.toNat := rfl
  rw [takeChar, String.utf8EncodeChar, hval]
  generalize hn : c.toNat = n at h hmax
  simp only [if_neg (show ¬n ≤ 0x7f by omega)]
  by_cases h2 : n ≤ 0x7ff
  · rw [if_pos h2, takeBytes_ofNat_cons _ (by omega), take_lead _ _ (by omega) (by omega),
      if_pos (by omega), takeBytes_ofNat_cons _ (by omega), take_trail _ _ (by omega) (by omega),
      if_pos le_rfl, pushCode_toNat d c (by omega) (by rw [if_pos (by omega)]; omega)]
    rfl
  · rw [if_neg h2]
    by_cases h3 : n ≤ 0xffff
    · rw [if_pos h3, takeBytes_ofNat_cons _ (by omega), take_lead _ _ (by omega) (by omega),
        if_neg (by omega), if_pos (by omega), takeBytes_ofNat_cons _ (by omega),
        take_trail _ _ (by omega) (by omega), if_neg (by decide), takeBytes_ofNat_cons _ (by omega),
        take_trail _ _ (by omega) (by omega), if_pos le_rfl,
        pushCode_toNat d c (by omega) (by rw [if_neg (by omega), if_pos (by omega)]; omega)]
      rfl
    · rw [if_neg h3, takeBytes_ofNat_cons _ (by omega), take_lead _ _ (by omega) (by omega),
        if_neg (by omega), if_neg (by omega), takeBytes_ofNat_cons _ (by omega),
        take_trail _ _ (by omega) (by omega), if_neg (by decide), takeBytes_ofNat_cons _ (by omega),
        take_trail _ _ (by omega) (by omega), if_neg (by decide), takeBytes_ofNat_cons _ (by omega),
        take_trail _ _ (by omega) (by omega), if_pos le_rfl,
        pushCode_toNat d c (by omega) (by rw [if_neg (by omega), if_neg (by omega)]; omega)]
      rfl

/-- A character of a string that is neither a control, a quote nor a backslash. -/
theorem takeChar_plain {c : Char} (h : 0x20 ≤ c.toNat) (hquote : c ≠ '"') (hslash : c ≠ '\\') :
    takeChar ⟨read, .string d⟩ c = ⟨read, .string (d.push c)⟩ := by
  by_cases hc : c.toNat < 0x80
  · rw [takeChar_of_lt hc]
    simp only [take, Lexing.step, Lexing.stringStep, if_neg hquote, if_neg hslash,
      if_neg (Nat.not_lt.mpr h), if_pos hc, List.reverse_nil, List.nil_append]
  · exact takeChar_wide read d (Nat.not_lt.mp hc)

/-- A control of a string by its number in hexadecimal. -/
theorem takeText_hex {n : ℕ} (h : n < 0x20) :
    takeText ⟨read, .string d⟩ ('\\' :: 'u' :: Text.hex 4 n) =
      ⟨read, .string (d.push (Char.ofNat n))⟩ := by
  interval_cases n <;> rfl

end Strings

/-! ### Numbers -/

section Numbers

variable (read : List Token)

theorem toNat_lt_of_isDigit {c : Char} (h : c.isDigit = true) : c.toNat < 0x80 := by
  simp only [Char.isDigit, Bool.and_eq_true, decide_eq_true_eq] at h
  exact Nat.lt_of_le_of_lt (UInt32.le_iff_toNat_le.mp h.2) (by decide)

/-- A part of a number that takes every digit in one way takes all digits so. -/
theorem takeText_digits {part : NumberPart} {downward : Bool}
    {add : NumberToken → Char → NumberToken}
    (hstep : ∀ n c, c.isDigit = true →
      Lexing.numberStep part n downward c = ([], .number part (add n c) downward))
    {digits : List Char} (h : ∀ c ∈ digits, c.isDigit = true) (n : NumberToken) :
    takeText ⟨read, .number part n downward⟩ digits =
      ⟨read, .number part (digits.foldl add n) downward⟩ := by
  induction digits generalizing n with
  | nil => rfl
  | cons c rest ih =>
    obtain ⟨hc, hrest⟩ := List.forall_mem_cons.mp h
    have htake : takeChar ⟨read, .number part n downward⟩ c =
        ⟨read, .number part (add n c) downward⟩ := by
      rw [takeChar_of_lt (toNat_lt_of_isDigit hc)]
      simp only [take, Lexing.step, hstep n c hc, List.reverse_nil, List.nil_append]
    rw [takeText_cons, htake, ih hrest, List.foldl_cons]

theorem foldl_addDigit (digits : List Char) (n : NumberToken) :
    digits.foldl Lexing.addDigit n =
      { n with coefficient := Nat.ofDigitChars 10 digits n.coefficient } := by
  induction digits generalizing n with
  | nil => rfl
  | cons c rest ih =>
    rw [List.foldl_cons, ih, Nat.ofDigitChars_cons, Nat.mul_comm]
    rfl

theorem foldl_addPlace {digits : List Char} (h : digits ≠ []) (n : NumberToken) :
    digits.foldl Lexing.addPlace n =
      { n with
        coefficient := Nat.ofDigitChars 10 digits n.coefficient
        places := n.places + digits.length
        integral := false } := by
  induction digits generalizing n with
  | nil => exact absurd rfl h
  | cons c rest ih =>
    rw [List.foldl_cons, Nat.ofDigitChars_cons, Nat.mul_comm]
    by_cases hrest : rest = []
    · subst hrest
      rfl
    · rw [ih hrest, List.length_cons, Nat.add_comm rest.length, ← Nat.add_assoc]
      rfl

/-- An exponent with its sign. -/
def signed (downward : Bool) (e : ℕ) : ℤ := if downward then -e else e

theorem foldl_addExponentDigit {digits : List Char} {downward : Bool} {n : NumberToken} {e : ℕ}
    (h : digits ≠ []) (hn : n.exponent = signed downward e) :
    digits.foldl (Lexing.addExponentDigit · downward ·) n =
      { n with
        exponent := signed downward (Nat.ofDigitChars 10 digits e)
        integral := false } := by
  induction digits generalizing n e with
  | nil => exact absurd rfl h
  | cons c rest ih =>
    have hnext : (Lexing.addExponentDigit n downward c).exponent =
        signed downward (10 * e + (c.toNat - '0'.toNat)) := by
      have hzero : '0'.toNat = 48 := rfl
      simp only [Lexing.addExponentDigit, hn, signed, hzero]
      split <;> push_cast <;> omega
    rw [List.foldl_cons, Nat.ofDigitChars_cons]
    by_cases hrest : rest = []
    · subst hrest
      rw [List.foldl_nil, Nat.ofDigitChars_nil, ← hnext]
      rfl
    · rw [ih hrest hnext]
      rfl

/-- The digits of a whole number: a single zero, or no zero in front. -/
structure IsWhole (digits : List Char) : Prop where
  ne_nil : digits ≠ []
  isDigit : ∀ c ∈ digits, c.isDigit = true
  head : digits = ['0'] ∨ digits.head? ≠ some '0'

/-- The parts of a number behind which it may end. -/
def isLast : NumberPart → Bool
  | .zero | .whole | .fraction | .exponent => true
  | _ => false

/-- A minus sign or none. -/
def signText (negative : Bool) : List Char := if negative then ['-'] else []

/-- The first digit of a number, behind its sign if it has one. -/
theorem takeText_first {c : Char} (h : c.isDigit = true) (hzero : c ≠ '0') (negative : Bool) :
    takeText ⟨read, .idle⟩ (signText negative ++ [c]) =
      ⟨read, .number .whole (Lexing.addDigit ⟨negative, 0, 0, 0, true⟩ c) false⟩ := by
  simp only [Char.isDigit, Bool.and_eq_true, decide_eq_true_eq] at h
  have hlo : 48 ≤ c.toNat := UInt32.le_iff_toNat_le.mp h.1
  have hhi : c.toNat ≤ 57 := UInt32.le_iff_toNat_le.mp h.2
  rw [← Char.ofNat_toNat c] at hzero ⊢
  generalize c.toNat = n at hlo hhi hzero
  interval_cases n
  · exact absurd rfl hzero
  all_goals cases negative <;> rfl

theorem takeText_whole {digits : List Char} (h : IsWhole digits) (negative : Bool) :
    ∃ part, (part = .zero ∨ part = .whole) ∧
      takeText ⟨read, .idle⟩ (signText negative ++ digits) =
        ⟨read, .number part ⟨negative, Nat.ofDigitChars 10 digits 0, 0, 0, true⟩ false⟩ := by
  obtain ⟨hne, hdigits, hhead⟩ := h
  rcases hhead with rfl | hhead
  · exact ⟨.zero, .inl rfl, by cases negative <;> rfl⟩
  · obtain ⟨c, rest, rfl⟩ := List.exists_cons_of_ne_nil hne
    obtain ⟨hc, hrest⟩ := List.forall_mem_cons.mp hdigits
    have hzero : c ≠ '0' := fun heq => hhead (by rw [heq, List.head?_cons])
    have hstep : ∀ (n : NumberToken) (c : Char), c.isDigit = true →
        Lexing.numberStep .whole n false c = ([], .number .whole (Lexing.addDigit n c) false) :=
      fun n c hc => if_pos hc
    refine ⟨.whole, .inr rfl, ?_⟩
    rw [← List.singleton_append, ← List.append_assoc, takeText_append,
      takeText_first read hc hzero, takeText_digits read hstep hrest, ← List.foldl_cons,
      foldl_addDigit, List.singleton_append]

theorem takeText_fraction {part : NumberPart} (hpart : part = .zero ∨ part = .whole)
    {digits : List Char} (hne : digits ≠ []) (h : ∀ c ∈ digits, c.isDigit = true)
    (n : NumberToken) :
    takeText ⟨read, .number part n false⟩ ('.' :: digits) =
      ⟨read, .number .fraction { n with
        coefficient := Nat.ofDigitChars 10 digits n.coefficient
        places := n.places + digits.length
        integral := false } false⟩ := by
  have hpoint : takeChar ⟨read, .number part n false⟩ '.' = ⟨read, .number .point n false⟩ := by
    rcases hpart with rfl | rfl <;> rfl
  obtain ⟨c, rest, rfl⟩ := List.exists_cons_of_ne_nil hne
  obtain ⟨hc, hrest⟩ := List.forall_mem_cons.mp h
  have hfirst : takeChar ⟨read, .number .point n false⟩ c =
      ⟨read, .number .fraction (Lexing.addPlace n c) false⟩ := by
    rw [takeChar_of_lt (toNat_lt_of_isDigit hc)]
    simp only [take, Lexing.step, Lexing.numberStep, if_pos hc, List.reverse_nil, List.nil_append]
  have hstep : ∀ (n : NumberToken) (c : Char), c.isDigit = true →
      Lexing.numberStep .fraction n false c =
        ([], .number .fraction (Lexing.addPlace n c) false) :=
    fun n c hc => if_pos hc
  rw [takeText_cons, hpoint, takeText_cons, hfirst, takeText_digits read hstep hrest,
    ← List.foldl_cons, foldl_addPlace hne]

theorem takeText_exponent {part : NumberPart} (hpart : isLast part = true)
    (hnot : part ≠ .exponent) {digits : List Char} (hne : digits ≠ [])
    (h : ∀ c ∈ digits, c.isDigit = true) {n : NumberToken} (hn : n.exponent = 0)
    (downward : Bool) :
    takeText ⟨read, .number part n false⟩ ('e' :: (if downward then '-' else '+') :: digits) =
      ⟨read, .number .exponent { n with
        exponent := signed downward (Nat.ofDigitChars 10 digits 0)
        integral := false } downward⟩ := by
  have hmark : takeChar ⟨read, .number part n false⟩ 'e' = ⟨read, .number .mark n false⟩ := by
    cases part with
    | zero | whole | fraction => rfl
    | exponent => exact absurd rfl hnot
    | _ => exact absurd hpart Bool.false_ne_true
  have hsign : takeChar ⟨read, .number .mark n false⟩ (if downward then '-' else '+') =
      ⟨read, .number .markSign n downward⟩ := by
    cases downward <;> rfl
  obtain ⟨c, rest, rfl⟩ := List.exists_cons_of_ne_nil hne
  obtain ⟨hc, hrest⟩ := List.forall_mem_cons.mp h
  have hfirst : takeChar ⟨read, .number .markSign n downward⟩ c =
      ⟨read, .number .exponent (Lexing.addExponentDigit n downward c) downward⟩ := by
    rw [takeChar_of_lt (toNat_lt_of_isDigit hc)]
    simp only [take, Lexing.step, Lexing.numberStep, if_pos hc, List.reverse_nil, List.nil_append]
  have hzero : n.exponent = signed downward 0 := by
    rw [hn]
    cases downward <;> rfl
  have hstep : ∀ (n : NumberToken) (c : Char), c.isDigit = true →
      Lexing.numberStep .exponent n downward c =
        ([], .number .exponent (Lexing.addExponentDigit n downward c) downward) :=
    fun n c hc => if_pos hc
  rw [takeText_cons, hmark, takeText_cons, hsign, takeText_cons, hfirst,
    takeText_digits read hstep hrest, ← foldl_addExponentDigit hne hzero, List.foldl_cons]

/-- What follows ends a number: a comma or the end of a line. -/
def Follows (rest : List Char) : Prop := ∃ c tail, rest = c :: tail ∧ (c = ',' ∨ c = '\n')

theorem takeText_last {part : NumberPart} (hpart : isLast part = true) (n : NumberToken)
    (downward : Bool) {rest : List Char} (h : Follows rest) :
    takeText ⟨read, .number part n downward⟩ rest = takeText ⟨.number n :: read, .idle⟩ rest := by
  obtain ⟨c, tail, rfl, hc⟩ := h
  have htake : takeChar ⟨read, .number part n downward⟩ c =
      takeChar ⟨.number n :: read, .idle⟩ c := by
    cases part with
    | zero | whole | fraction | exponent => rcases hc with rfl | rfl <;> rfl
    | _ => exact absurd hpart Bool.false_ne_true
  rw [takeText_cons, htake, takeText_cons]

end Numbers

end Lexer

end JsonShape.Json
