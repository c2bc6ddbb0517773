import JsonShape.Proofs.Binary64.Decimal
import JsonShape.Proofs.Json.Lexing
import JsonShape.Schema.Json
import Mathlib.Data.List.TakeWhile

/-!
Numbers as they are written and read again. An integer is one token of its digits, and a finite
double one of a decimal that rounds to it; the words for infinities and NaN are no JSON.
-/

set_option autoImplicit false

namespace JsonShape.Json

open Lexer Binary64

/-- A text is read as some tokens, if what follows ends a number. -/
def Spells (cs : List Char) (ts : List Token) : Prop :=
  ∀ read rest, Follows rest →
    takeText ⟨read, .idle⟩ (cs ++ rest) = takeText ⟨ts.reverse ++ read, .idle⟩ rest

section Digits

theorem head?_toDigits_ne {n : ℕ} (h : 0 < n) : (Nat.toDigits 10 n).head? ≠ some '0' := by
  induction n using Nat.strongRecOn with
  | ind n ih =>
    by_cases hn : n < 10
    · rw [Nat.toDigits_of_lt_base hn, List.head?_cons]
      simpa using h.ne'
    · have hten : 10 ≤ n := Nat.not_lt.mp hn
      rw [Nat.toDigits_of_base_le (by decide) hten,
        List.head?_append_of_ne_nil _ Nat.toDigits_ne_nil]
      exact ih (n / 10) (by omega) (by omega)

theorem isWhole_toDigits (n : ℕ) : IsWhole (Nat.toDigits 10 n) where
  ne_nil := Nat.toDigits_ne_nil
  isDigit _ hc := Nat.isDigit_of_mem_toDigits (by decide) (by decide) hc
  head := by
    rcases Nat.eq_zero_or_pos n with rfl | hn
    · exact .inl (Nat.toDigits_zero 10)
    · exact .inr (head?_toDigits_ne hn)

end Digits

theorem spells_whole {digits : List Char} (h : IsWhole digits) (negative : Bool) :
    Spells (signText negative ++ digits)
      [.number ⟨negative, Nat.ofDigitChars 10 digits 0, 0, 0, true⟩] := by
  intro read rest hrest
  obtain ⟨part, hpart, htake⟩ := takeText_whole read h negative
  have hlast : isLast part = true := by rcases hpart with rfl | rfl <;> rfl
  rw [takeText_append, htake, takeText_last read hlast _ _ hrest]
  rfl

/-- The token of an integer. -/
def intToken (n : ℤ) : Token := .number ⟨n < 0, n.natAbs, 0, 0, true⟩

theorem spells_int (n : ℤ) : Spells (toString n).toList [intToken n] := by
  have hspells := spells_whole (isWhole_toDigits n.natAbs) (decide (n < 0))
  rw [Nat.ofDigitChars_ten_toDigits] at hspells
  have htext : (toString n).toList = signText (decide (n < 0)) ++ Nat.toDigits 10 n.natAbs := by
    cases n with
    | ofNat m => exact Nat.toList_repr
    | negSucc m =>
      have hneg : decide (Int.negSucc m < 0) = true := decide_eq_true (Int.negSucc_lt_zero m)
      change ("-" ++ Nat.repr (m + 1)).toList = _
      rw [String.toList_append, Nat.toList_repr, hneg]
      rfl
  rw [htext]
  exact hspells

theorem spells_fraction {whole digits : List Char} (hwhole : IsWhole whole) (hne : digits ≠ [])
    (h : ∀ c ∈ digits, c.isDigit = true) (negative : Bool) :
    Spells (signText negative ++ (whole ++ '.' :: digits))
      [.number ⟨negative, Nat.ofDigitChars 10 (whole ++ digits) 0, digits.length, 0, false⟩] := by
  intro read rest hrest
  obtain ⟨part, hpart, htake⟩ := takeText_whole read hwhole negative
  rw [← List.append_assoc, takeText_append, takeText_append, htake,
    takeText_fraction read hpart hne h, takeText_last read rfl _ _ hrest, Nat.ofDigitChars_append,
    Nat.zero_add]
  rfl

/-- An exponent in writing is its sign and the digits of its size, with a zero in front of one. -/
theorem exists_exponentText (e : ℤ) :
    ∃ digits : List Char, digits ≠ [] ∧ (∀ c ∈ digits, c.isDigit = true) ∧
      signed (decide (e < 0)) (Nat.ofDigitChars 10 digits 0) = e ∧
        (exponentText e).toList = (if decide (e < 0) then '-' else '+') :: digits := by
  have hvalue : signed (decide (e < 0)) e.natAbs = e := by
    simp only [signed, decide_eq_true_eq]
    split_ifs <;> omega
  have hdigits := (isWhole_toDigits e.natAbs).isDigit
  have hsign : (if e < 0 then "-" else "+").toList = [if decide (e < 0) then '-' else '+'] := by
    by_cases he : e < 0 <;> simp [he]
  by_cases hshort : (toString e.natAbs).length < 2
  · refine ⟨'0' :: Nat.toDigits 10 e.natAbs, List.cons_ne_nil _ _, ?_, ?_, ?_⟩
    · exact List.forall_mem_cons.mpr ⟨rfl, hdigits⟩
    · rw [Nat.ofDigitChars_cons]
      simpa using hvalue
    · rw [exponentText, String.toList_append, String.toList_append, hsign, if_pos hshort]
      simp
  · refine ⟨Nat.toDigits 10 e.natAbs, Nat.toDigits_ne_nil, hdigits, ?_, ?_⟩
    · rw [Nat.ofDigitChars_ten_toDigits]
      exact hvalue
    · rw [exponentText, String.toList_append, String.toList_append, hsign, if_neg hshort]
      simp

theorem spells_exponent {c : Char} (hc : c.isDigit = true) (hzero : c ≠ '0') {digits : List Char}
    (h : ∀ c ∈ digits, c.isDigit = true) (e : ℤ) (negative : Bool) :
    Spells (signText negative ++ ((if digits = [] then [c] else c :: '.' :: digits) ++
        'e' :: (exponentText e).toList))
      [.number ⟨negative, Nat.ofDigitChars 10 (c :: digits) 0, digits.length, e, false⟩] := by
  intro read rest hrest
  obtain ⟨exponent, hne, hexponent, hvalue, htext⟩ := exists_exponentText e
  have hwhole : IsWhole [c] :=
    ⟨List.cons_ne_nil _ _, List.forall_mem_singleton.mpr hc, .inr (by simpa using hzero)⟩
  obtain ⟨part, hpart, htake⟩ := takeText_whole read hwhole negative
  have hmantissa : ∃ part integral, isLast part = true ∧ part ≠ .exponent ∧
      takeText ⟨read, .idle⟩
          (signText negative ++ if digits = [] then [c] else c :: '.' :: digits) =
        ⟨read, .number part ⟨negative, Nat.ofDigitChars 10 (c :: digits) 0, digits.length, 0,
          integral⟩ false⟩ := by
    by_cases hnil : digits = []
    · subst hnil
      refine ⟨part, true, ?_, ?_, htake⟩
      · rcases hpart with rfl | rfl <;> rfl
      · rcases hpart with rfl | rfl <;> exact NumberPart.noConfusion
    · refine ⟨.fraction, false, rfl, NumberPart.noConfusion, ?_⟩
      rw [if_neg hnil, ← List.singleton_append, ← List.append_assoc, takeText_append, htake,
        takeText_fraction read hpart hnil h, ← List.singleton_append (l := digits),
        Nat.ofDigitChars_append, Nat.zero_add]
  obtain ⟨last, integral, hlast, hnot, hread⟩ := hmantissa
  rw [← List.append_assoc, takeText_append, takeText_append, hread, htext,
    takeText_exponent read hlast hnot hne hexponent rfl, hvalue,
    takeText_last read rfl _ _ hrest]
  rfl

/-! ### Doubles -/

section DigitsText

variable (style : FloatStyle) (digits : List Char) {k : ℕ}

theorem digitsText_ofNat (h : k < 16) :
    digitsText style digits (Int.ofNat k) = String.ofList
      (digits.take (k + 1) ++ List.replicate (k + 1 - digits.length) '0' ++
        '.' :: (if (digits.drop (k + 1)).isEmpty then ['0'] else digits.drop (k + 1))) := by
  have he : -4 ≤ Int.ofNat k ∧ Int.ofNat k < 16 := by
    simp only [Int.ofNat_eq_natCast]
    omega
  exact if_pos he

theorem digitsText_negSucc (h : k < 4) :
    digitsText style digits (Int.negSucc k) =
      "0." ++ String.ofList (List.replicate k '0' ++ digits) := by
  have he : -4 ≤ Int.negSucc k ∧ Int.negSucc k < 16 := by omega
  exact if_pos he

theorem digitsText_far (h : style.pointBeforeExponent = false) (c : Char) {e : ℤ}
    (he : ¬(-4 ≤ e ∧ e < 16)) :
    digitsText style (c :: digits) e =
      String.ofList (if digits = [] then [c] else c :: '.' :: digits) ++ "e" ++
        exponentText e := by
  cases digits with
  | nil =>
    have hmantissa : digitsText style [c] e =
        String.ofList (if style.pointBeforeExponent then [c, '.', '0'] else [c]) ++ "e" ++
          exponentText e := if_neg he
    rw [hmantissa, h]
    rfl
  | cons d rest => exact if_neg he

end DigitsText

theorem isWhole_of_head? {digits : List Char} (hne : digits ≠ [])
    (h : ∀ c ∈ digits, c.isDigit = true) (hzero : digits.head? ≠ some '0')
    (zeros : ℕ) : IsWhole (digits ++ List.replicate zeros '0') where
  ne_nil := List.append_ne_nil_of_left_ne_nil hne _
  isDigit := by
    refine List.forall_mem_append.mpr ⟨h, fun c hc => ?_⟩
    rw [List.eq_of_mem_replicate hc]
    rfl
  head := .inr (by rwa [List.head?_append_of_ne_nil _ hne])

/-- A text is read as the decimal of some digits, the first of which stands at a power of ten. A few
zeros may be moved from the exponent to the coefficient. -/
def SpellsDecimal (cs : List Char) (negative : Bool) (digits : List Char) (e : ℤ) : Prop :=
  ∃ (n : NumberToken) (zeros : ℕ), zeros ≤ 16 ∧ n.negative = negative ∧ n.integral = false ∧
    n.coefficient = Nat.ofDigitChars 10 digits 0 * 10 ^ zeros ∧
      n.exponent - n.places = e + 1 - digits.length - zeros ∧ Spells cs [.number n]

section DigitsText

variable {style : FloatStyle} {digits : List Char} {k : ℕ} (hne : digits ≠ [])
  (h : ∀ c ∈ digits, c.isDigit = true) (negative : Bool)
include hne h

theorem spellsDecimal_ofNat (hzero : digits.head? ≠ some '0') (hk : k < 16) :
    SpellsDecimal (signText negative ++ (digitsText style digits (Int.ofNat k)).toList) negative
      digits (Int.ofNat k) := by
  have hlength : 0 < digits.length := List.length_pos_iff.mpr hne
  rw [digitsText_ofNat _ _ hk, String.toList_ofList]
  by_cases hshort : digits.length ≤ k + 1
  -- The digits end in front of the point, behind which a zero stands.
  · have hspells := spells_fraction
      (isWhole_of_head? hne h hzero (k + 1 - digits.length)) (List.cons_ne_nil '0' [])
      (List.forall_mem_singleton.mpr rfl) negative
    rw [List.take_of_length_le hshort, List.drop_of_length_le hshort]
    refine ⟨_, k + 2 - digits.length, by omega, rfl, rfl, ?_, ?_, hspells⟩
    · have hzeros : List.replicate (k + 1 - digits.length) '0' ++ ['0'] =
          List.replicate (k + 2 - digits.length) '0' := by
        rw [← List.replicate_succ']
        congr 1
        omega
      rw [List.append_assoc, hzeros, Nat.ofDigitChars_append, Nat.ofDigitChars_replicate_zero,
        Nat.mul_comm]
    · simp only [List.length_singleton, Int.ofNat_eq_natCast]
      omega
  · have hlong : digits.drop (k + 1) ≠ [] := by
      rw [← List.length_pos_iff, List.length_drop]
      omega
    have hwhole :
        IsWhole (digits.take (k + 1) ++ List.replicate (k + 1 - digits.length) '0') := by
      refine isWhole_of_head? ?_ (fun c hc => h c (List.mem_of_mem_take hc)) ?_ _
      · rw [← List.length_pos_iff, List.length_take]
        omega
      · rwa [List.head?_take, if_neg (Nat.succ_ne_zero k)]
    have hspells := spells_fraction hwhole hlong (fun c hc => h c (List.mem_of_mem_drop hc))
      negative
    have hnone : (digits.drop (k + 1)).isEmpty = false := by simpa using hlong
    rw [hnone]
    refine ⟨_, 0, Nat.zero_le 16, rfl, rfl, ?_, ?_, hspells⟩
    · have hzeros : k + 1 - digits.length = 0 := by omega
      rw [hzeros, List.replicate_zero, List.append_nil, List.take_append_drop, Nat.pow_zero,
        Nat.mul_one]
    · simp only [List.length_drop, Int.ofNat_eq_natCast]
      omega

theorem spellsDecimal_negSucc (hk : k < 4) :
    SpellsDecimal (signText negative ++ (digitsText style digits (Int.negSucc k)).toList) negative
      digits (Int.negSucc k) := by
  have hdigits : ∀ c ∈ List.replicate k '0' ++ digits, c.isDigit = true := by
    refine List.forall_mem_append.mpr ⟨fun c hc => ?_, h⟩
    rw [List.eq_of_mem_replicate hc]
    rfl
  have hspells := spells_fraction (isWhole_toDigits 0)
    (List.append_ne_nil_of_right_ne_nil _ hne) hdigits negative
  rw [Nat.toDigits_zero] at hspells
  rw [digitsText_negSucc _ _ hk, String.toList_append, String.toList_ofList, String.toList_ofList]
  refine ⟨_, 0, Nat.zero_le 16, rfl, rfl, ?_, ?_, hspells⟩
  · rw [List.singleton_append, Nat.ofDigitChars_cons, Nat.ofDigitChars_append,
      Nat.ofDigitChars_replicate_zero]
    simp
  · simp only [List.length_append, List.length_replicate]
    omega

theorem spellsDecimal_far (hstyle : style.pointBeforeExponent = false)
    (hzero : digits.head? ≠ some '0') {e : ℤ} (he : ¬(-4 ≤ e ∧ e < 16)) :
    SpellsDecimal (signText negative ++ (digitsText style digits e).toList) negative digits e := by
  obtain ⟨c, rest, rfl⟩ := List.exists_cons_of_ne_nil hne
  obtain ⟨hc, hrest⟩ := List.forall_mem_cons.mp h
  have hspells := spells_exponent hc (by simpa using hzero) hrest e negative
  rw [digitsText_far _ _ hstyle c he, String.toList_append, String.toList_append,
    String.toList_ofList, List.append_assoc]
  refine ⟨_, 0, Nat.zero_le 16, rfl, rfl, ?_, ?_, hspells⟩
  · rw [Nat.pow_zero, Nat.mul_one]
  · simp only [List.length_cons]
    omega

/-- Digits in writing, with their point, are read as a decimal of their value. -/
theorem spellsDecimal_digitsText (hstyle : style.pointBeforeExponent = false)
    (hzero : digits.head? ≠ some '0') (e : ℤ) :
    SpellsDecimal (signText negative ++ (digitsText style digits e).toList) negative digits e := by
  by_cases he : -4 ≤ e ∧ e < 16
  · rcases e with k | k
    · refine spellsDecimal_ofNat hne h negative hzero ?_
      have hlt := he.2
      simp only [Int.ofNat_eq_natCast] at hlt
      omega
    · exact spellsDecimal_negSucc hne h negative (by omega)
  · exact spellsDecimal_far hne h negative hstyle hzero he

end DigitsText

/-- The digits of a positive number without the zeros at their end. -/
theorem exists_significant {n : ℕ} (hn : 0 < n) :
    ∃ (digits : List Char) (zeros : ℕ),
      ((Nat.toDigits 10 n).reverse.dropWhile (· == '0')).reverse = digits ∧
        Nat.toDigits 10 n = digits ++ List.replicate zeros '0' ∧ digits ≠ [] ∧
          digits.head? ≠ some '0' ∧ n = Nat.ofDigitChars 10 digits 0 * 10 ^ zeros := by
  set all := Nat.toDigits 10 n with hall
  have hzeros : all.reverse.takeWhile (· == '0') =
      List.replicate (all.reverse.takeWhile (· == '0')).length '0' :=
    List.eq_replicate_iff.mpr ⟨rfl, fun c hc => by simpa using List.mem_takeWhile_imp hc⟩
  have hsplit : all = (all.reverse.dropWhile (· == '0')).reverse ++
      List.replicate (all.reverse.takeWhile (· == '0')).length '0' := by
    rw [← List.reverse_replicate, ← hzeros, ← List.reverse_append,
      List.takeWhile_append_dropWhile, List.reverse_reverse]
  generalize (all.reverse.takeWhile (· == '0')).length = zeros at hsplit
  have hhead : all.head? ≠ some '0' := head?_toDigits_ne hn
  have hne : (all.reverse.dropWhile (· == '0')).reverse ≠ [] := by
    intro hnil
    rw [hnil, List.nil_append] at hsplit
    cases zeros with
    | zero => exact Nat.toDigits_ne_nil (hall.symm.trans hsplit)
    | succ zeros => exact hhead (by rw [hsplit]; rfl)
  refine ⟨_, zeros, rfl, hsplit, hne, ?_, ?_⟩
  · rwa [hsplit, List.head?_append_of_ne_nil _ hne] at hhead
  · have hvalue : Nat.ofDigitChars 10 all 0 = n := Nat.ofDigitChars_ten_toDigits
    rw [hsplit, Nat.ofDigitChars_append, Nat.ofDigitChars_replicate_zero] at hvalue
    rw [Nat.mul_comm]
    exact hvalue.symm

/-- A number that is read as a decimal which rounds to a double. -/
structure NumberToken.RoundsTo (n : NumberToken) (x : Binary64) : Prop where
  integral : n.integral = false
  inRange : Decimal.inRange n.coefficient (n.exponent - n.places) = true
  rounds : Binary64.ofCode n.negative (codeOfDecimal n.coefficient (n.exponent - n.places)) = x

/-- Zeros may be moved between the coefficient of a decimal and its exponent. -/
theorem codeOfDecimal_moved (c : ℕ) (e : ℤ) (zeros moved : ℕ) :
    codeOfDecimal (c * 10 ^ moved) (e + zeros - moved) = codeOfDecimal (c * 10 ^ zeros) e := by
  have hback := codeOfDecimal_mul_pow c (e + zeros) zeros
  rw [add_sub_cancel_right] at hback
  rw [codeOfDecimal_mul_pow, hback]

theorem ofCode_eq {negative : Bool} {code : ℕ} (bounded : code ≤ 0x7ff0000000000000) :
    ofCode negative code = .number negative code bounded := by
  simp only [ofCode, Nat.min_eq_left bounded]

/-- A finite double in writing is read as a decimal that rounds to it. -/
theorem exists_spells_float {style : FloatStyle} (hstyle : style.pointBeforeExponent = false)
    (negative : Bool) {code : ℕ} (bounded : code ≤ 0x7ff0000000000000)
    (hfin : code < infinityCode) :
    ∃ n : NumberToken, n.RoundsTo (.number negative code bounded) ∧
      Spells ((number negative code bounded).text style).toList [.number n] := by
  have htext : ((number negative code bounded).text style).toList =
      signText negative ++ (magnitudeText style code).toList := by
    rw [text, String.toList_append]
    cases negative <;> rfl
  rw [htext, magnitudeText, if_neg hfin.ne]
  rcases Nat.eq_zero_or_pos code with rfl | hpos
  · have hspells := spells_fraction (isWhole_toDigits 0) (List.cons_ne_nil '0' [])
      (List.forall_mem_singleton.mpr rfl) negative
    rw [Nat.toDigits_zero] at hspells
    rw [if_pos rfl]
    have hrange : Decimal.inRange 0 (-1) = true := by decide
    exact ⟨⟨negative, 0, 1, 0, false⟩, ⟨rfl, hrange, ofCode_eq bounded⟩, hspells⟩
  · rw [if_neg hpos.ne']
    have hcode := codeOfDecimal_shortestDigits hpos hfin
    have hlow := le_exponent_shortestDigits hpos hfin
    generalize shortestDigits code = d at hcode hlow
    obtain ⟨hc, -, -⟩ := reach_of_codeOfDecimal (hcode ▸ hpos) (hcode ▸ hfin)
    obtain ⟨digits, zeros, hsignificant, hall, hne, hzero, hvalue⟩ := exists_significant hc
    have hdigits : ∀ c ∈ digits, c.isDigit = true := fun c hmem =>
      (isWhole_toDigits d.coefficient).isDigit c (hall ▸ List.mem_append_left _ hmem)
    obtain ⟨n, moved, hmoved, hnegative, hintegral, hcoefficient, hexponent, hspells⟩ :=
      spellsDecimal_digitsText hne hdigits negative hstyle hzero
        (d.exponent + (Nat.toDigits 10 d.coefficient).length - 1)
    have hplace : n.exponent - n.places = d.exponent + zeros - moved := by
      rw [hexponent, hall, List.length_append, List.length_replicate]
      push_cast
      omega
    have hrounds : codeOfDecimal n.coefficient (n.exponent - n.places) = code := by
      rw [hcoefficient, hplace, codeOfDecimal_moved, ← hvalue, hcode]
    obtain ⟨-, hhi, -⟩ := reach_of_codeOfDecimal (hrounds.symm ▸ hpos) (hrounds.symm ▸ hfin)
    refine ⟨n, ⟨hintegral, ?_, ?_⟩, ?_⟩
    · simp only [Decimal.inRange, Bool.and_eq_true, decide_eq_true_eq]
      omega
    · rw [hrounds, hnegative, ofCode_eq bounded]
    · rw [← hsignificant] at hspells
      exact hspells

end JsonShape.Json
