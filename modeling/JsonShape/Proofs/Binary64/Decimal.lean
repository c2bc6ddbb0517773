import JsonShape.Proofs.Binary64.Rounding

/-!
Decimals rounded to doubles. A decimal rounds as its value does, so zeros moved between coefficient
and exponent change nothing, and the digits that are chosen for a double round back to it: those on
a grid because they are tried, all digits because they are exact.
-/

set_option autoImplicit false

namespace JsonShape.Binary64

section DigitCount

theorem digitCount_pos (n : ℕ) : 0 < digitCount n := Nat.length_toDigits_pos

theorem lt_digitCount_iff {n k : ℕ} (hn : 0 < n) : k < digitCount n ↔ 10 ^ k ≤ n := by
  rcases Nat.eq_zero_or_pos k with rfl | hk
  · rw [Nat.pow_zero]
    exact iff_of_true (digitCount_pos n) hn
  · have hle : digitCount n ≤ k ↔ n < 10 ^ k := Nat.length_toDigits_le_iff (by decide) hk
    rw [← Nat.not_le, hle, Nat.not_lt]

theorem digitCount_le_iff {n k : ℕ} (hn : 0 < n) : digitCount n ≤ k ↔ n < 10 ^ k := by
  rw [← Nat.not_lt, lt_digitCount_iff hn, Nat.not_le]

theorem digitCount_mul_pow {n : ℕ} (hn : 0 < n) (k : ℕ) :
    digitCount (n * 10 ^ k) = digitCount n + k := by
  have hten : 0 < 10 ^ k := Nat.pow_pos (by decide)
  have hpos : 0 < n * 10 ^ k := Nat.mul_pos hn hten
  apply Nat.le_antisymm
  · rw [digitCount_le_iff hpos, Nat.pow_add]
    exact Nat.mul_lt_mul_of_pos_right ((digitCount_le_iff hn).mp le_rfl) hten
  · obtain ⟨d, hd⟩ := Nat.exists_eq_succ_of_ne_zero (digitCount_pos n).ne'
    rw [hd, Nat.succ_add]
    refine Nat.succ_le_of_lt ((lt_digitCount_iff hpos).mpr ?_)
    rw [Nat.pow_add]
    exact Nat.mul_le_mul_right _ ((lt_digitCount_iff hn).mp (by omega))

end DigitCount

section Decimals

variable {c : ℕ} {e : ℤ}

/-- A decimal is a quotient of natural numbers. -/
theorem exists_ratio (c : ℕ) (e : ℤ) :
    ∃ num den : ℕ, 0 < den ∧ (num : ℚ) / den = c * 10 ^ e := by
  cases e with
  | ofNat k => exact ⟨c * 10 ^ k, 1, one_pos, by simp⟩
  | negSucc k =>
    refine ⟨c, 10 ^ (k + 1), Nat.pow_pos (by decide), ?_⟩
    rw [zpow_negSucc]
    push_cast
    rfl

/-- Within its reach a decimal rounds as any quotient of its value. -/
theorem codeOfDecimal_eq_codeOfRatio (hc : 0 < c) (hhi : e + digitCount c ≤ 310)
    (hlo : -330 ≤ e + digitCount c) {num den : ℕ} (hden : 0 < den)
    (h : (num : ℚ) / den = c * 10 ^ e) : codeOfDecimal c e = codeOfRatio num den := by
  simp only [codeOfDecimal, if_neg hc.ne', if_neg (not_lt.mpr hhi), if_neg (not_lt.mpr hlo)]
  cases e with
  | ofNat k =>
    refine codeOfRatio_congr one_pos hden ?_
    rw [h]
    simp
  | negSucc k =>
    refine codeOfRatio_congr (Nat.pow_pos (by decide)) hden ?_
    rw [h, zpow_negSucc, Nat.pow_eq]
    push_cast
    rfl

/-- A decimal that rounds to a positive finite double is within reach. -/
theorem reach_of_codeOfDecimal (hpos : 0 < codeOfDecimal c e)
    (hfin : codeOfDecimal c e < infinityCode) :
    0 < c ∧ e + digitCount c ≤ 310 ∧ -330 ≤ e + digitCount c := by
  simp only [codeOfDecimal] at hpos hfin
  split_ifs at hpos hfin with hc hhi hlo
  · exact absurd hpos (lt_irrefl 0)
  · exact absurd hfin (lt_irrefl _)
  · exact absurd hpos (lt_irrefl 0)
  · exact ⟨Nat.pos_of_ne_zero hc, not_lt.mp hhi, not_lt.mp hlo⟩

/-- Zeros moved from the exponent to the coefficient change nothing. -/
theorem codeOfDecimal_mul_pow (c : ℕ) (e : ℤ) (k : ℕ) :
    codeOfDecimal (c * 10 ^ k) (e - k) = codeOfDecimal c e := by
  rcases Nat.eq_zero_or_pos c with rfl | hc
  · simp [codeOfDecimal]
  have hpos : 0 < c * 10 ^ k := Nat.mul_pos hc (Nat.pow_pos (by decide))
  have hsize : e - k + digitCount (c * 10 ^ k) = e + digitCount c := by
    rw [digitCount_mul_pow hc]
    push_cast
    ring
  by_cases hhi : 310 < e + digitCount c
  · simp only [codeOfDecimal, if_neg hc.ne', if_neg hpos.ne', hsize, if_pos hhi]
  by_cases hlo : e + digitCount c < -330
  · simp only [codeOfDecimal, if_neg hc.ne', if_neg hpos.ne', hsize, if_neg hhi, if_pos hlo]
  obtain ⟨num, den, hden, hvalue⟩ := exists_ratio c e
  have hvalue' : (num : ℚ) / den = (c * 10 ^ k : ℕ) * 10 ^ (e - k) := by
    have hten : (10 : ℚ) ≠ 0 := by norm_num
    rw [hvalue, zpow_sub₀ hten, zpow_natCast]
    push_cast
    field_simp
  rw [codeOfDecimal_eq_codeOfRatio hc (not_lt.mp hhi) (not_lt.mp hlo) hden hvalue,
    codeOfDecimal_eq_codeOfRatio hpos (by omega) (by omega) hden hvalue']

end Decimals

/-! ### The digits of a double -/

theorem significand_exponent_le {code : ℕ} (hpos : 0 < code) (hfin : code < infinityCode) :
    (significand code).1 < 2 ^ 53 ∧ -1074 ≤ (significand code).2 ∧ (significand code).2 ≤ 971 := by
  obtain ⟨⟨hcode, -⟩, ⟨hlo, hhi, hq⟩ | ⟨hhi, hq⟩⟩ := significand_spec hpos
  · have hinf : infinityCode = 2047 * 2 ^ 52 := rfl
    refine ⟨hhi, hq, ?_⟩
    omega
  · exact ⟨hhi.trans (by decide), by omega, by omega⟩

theorem value_exactDigits (code : ℕ) :
    ((exactDigits code).coefficient : ℚ) * 10 ^ (exactDigits code).exponent =
      (significand code).1 * 2 ^ (significand code).2 := by
  rcases h : significand code with ⟨m, k | k⟩
  · simp [exactDigits, h]
  · simp only [exactDigits, h, zpow_negSucc, Nat.pow_eq]
    have hten : (10 : ℚ) ^ (k + 1) = 5 ^ (k + 1) * 2 ^ (k + 1) := by
      rw [← mul_pow]
      norm_num
    push_cast
    rw [hten]
    field_simp

/-- A significand of 53 bits has at most 16 digits, and each five adds at most one more. -/
theorem mul_five_pow_lt {m : ℕ} (hm : m < 2 ^ 53) (k : ℕ) : m * 5 ^ k < 10 ^ (16 + k) := by
  have hm' : m < 10 ^ 16 := hm.trans (by decide)
  calc m * 5 ^ k ≤ m * 10 ^ k := by gcongr; decide
    _ < 10 ^ 16 * 10 ^ k := Nat.mul_lt_mul_of_pos_right hm' (Nat.pow_pos (by decide))
    _ = 10 ^ (16 + k) := (Nat.pow_add 10 16 k).symm

theorem ten_pow_le_mul_five_pow {m j : ℕ} (hm : 0 < m) (hj : j ≤ 743) :
    10 ^ j ≤ m * 5 ^ (j + 330 + 1) := by
  have hpower : 2 ^ j ≤ 5 ^ 331 := by
    calc 2 ^ j ≤ 2 ^ 743 := Nat.pow_le_pow_right two_pos hj
      _ ≤ 5 ^ 331 := by decide +kernel
  calc 10 ^ j = 2 ^ j * 5 ^ j := Nat.mul_pow 2 5 j
    _ ≤ 5 ^ 331 * 5 ^ j := Nat.mul_le_mul_right _ hpower
    _ = 5 ^ (j + 330 + 1) := by rw [← Nat.pow_add, Nat.add_comm]
    _ ≤ m * 5 ^ (j + 330 + 1) := Nat.le_mul_of_pos_left _ hm

/-- All digits of a double are neither too many nor too far behind the point to be read. -/
theorem reach_exactDigits {code : ℕ} (hpos : 0 < code) (hfin : code < infinityCode) :
    0 < (exactDigits code).coefficient ∧
      (exactDigits code).exponent + digitCount (exactDigits code).coefficient ≤ 310 ∧
        -330 ≤ (exactDigits code).exponent + digitCount (exactDigits code).coefficient := by
  obtain ⟨hm, hlow, hhigh⟩ := significand_exponent_le hpos hfin
  have hmpos := (significand_spec hpos).1.2
  rcases h : significand code with ⟨m, k | k⟩
  · rw [h] at hm hhigh hmpos
    simp only [Int.ofNat_eq_natCast] at hm hhigh hmpos
    have hcoefficient : 0 < m * 2 ^ k := Nat.mul_pos hmpos (Nat.two_pow_pos k)
    have hbound : m * 2 ^ k < 10 ^ 310 := by
      calc m * 2 ^ k ≤ 2 ^ 53 * 2 ^ 971 := by gcongr <;> omega
        _ < 10 ^ 310 := by decide +kernel
    have hcount := (digitCount_le_iff hcoefficient).mpr hbound
    simp only [exactDigits, h, Nat.pow_eq]
    exact ⟨hcoefficient, by omega, by omega⟩
  · rw [h] at hm hlow hmpos
    simp only at hm hlow hmpos
    have hcoefficient : 0 < m * 5 ^ (k + 1) := Nat.mul_pos hmpos (Nat.pow_pos (by decide))
    have hcount := (digitCount_le_iff hcoefficient).mpr (mul_five_pow_lt hm (k + 1))
    simp only [exactDigits, h, Nat.pow_eq]
    refine ⟨hcoefficient, by omega, ?_⟩
    by_cases hnear : k < 330
    · omega
    · obtain ⟨j, rfl⟩ := Nat.exists_eq_add_of_le' (Nat.not_lt.mp hnear)
      have hreached := ten_pow_le_mul_five_pow (j := j) hmpos (by omega)
      have hdigits := (lt_digitCount_iff hcoefficient).mpr hreached
      omega

/-- All digits of a finite double round to it. -/
theorem codeOfDecimal_exactDigits {code : ℕ} (hpos : 0 < code) (hfin : code < infinityCode) :
    codeOfDecimal (exactDigits code).coefficient (exactDigits code).exponent = code := by
  obtain ⟨hc, hhi, hlo⟩ := reach_exactDigits hpos hfin
  have hvalue := (value_ratioOfCode code).trans (value_exactDigits code).symm
  rw [codeOfDecimal_eq_codeOfRatio hc hhi hlo (ratioOfCode_den_pos code) hvalue]
  exact codeOfRatio_ratioOfCode hpos hfin

theorem codeOfDecimal_nearestOnGrid? {code : ℕ} {e : ℤ} {d : Digits}
    (h : nearestOnGrid? code e = some d) :
    codeOfDecimal d.coefficient d.exponent = code ∧ d.exponent = e := by
  simp only [nearestOnGrid?] at h
  generalize (inUnitsOf e (ratioOfCode code)).1 / (inUnitsOf e (ratioOfCode code)).2 = c at h
  generalize (inUnitsOf e (ratioOfCode code)).1 % (inUnitsOf e (ratioOfCode code)).2 = r at h
  simp only [Bool.and_eq_true, beq_iff_eq] at h
  split at h
  · next hboth =>
    obtain ⟨hlow, hhigh⟩ := hboth
    cases h
    refine ⟨?_, rfl⟩
    simp only
    split_ifs
    · exact hlow
    · exact hhigh
    · rcases Nat.mod_two_eq_zero_or_one c with hc | hc
      · simpa [hc] using hlow
      · simpa [hc] using hhigh
  · split at h
    · next hlow =>
      cases h
      exact ⟨hlow, rfl⟩
    · split at h
      · next hhigh =>
        cases h
        exact ⟨hhigh, rfl⟩
      · cases h

/-- The digits of a positive finite double are on one of its grids, or they are all. -/
theorem shortestDigits_cases (code : ℕ) :
    (∃ n : ℕ, n < 17 ∧ nearestOnGrid? code
        (floorLog10 (ratioOfCode code).1 (ratioOfCode code).2 - n) = some (shortestDigits code)) ∨
      shortestDigits code = exactDigits code := by
  simp only [shortestDigits]
  cases h : (List.range 17).findSome? fun n : ℕ =>
      nearestOnGrid? code (floorLog10 (ratioOfCode code).1 (ratioOfCode code).2 - n) with
  | none => exact .inr rfl
  | some d =>
    obtain ⟨n, hn, hd⟩ := List.exists_of_findSome?_eq_some h
    exact .inl ⟨n, List.mem_range.mp hn, hd⟩

/-- The digits that are chosen for a double round back to it. -/
theorem codeOfDecimal_shortestDigits {code : ℕ} (hpos : 0 < code) (hfin : code < infinityCode) :
    codeOfDecimal (shortestDigits code).coefficient (shortestDigits code).exponent = code := by
  rcases shortestDigits_cases code with ⟨n, -, h⟩ | h
  · exact (codeOfDecimal_nearestOnGrid? h).1
  · rw [h]
    exact codeOfDecimal_exactDigits hpos hfin

theorem digitCount_ratioOfCode_den_le {code : ℕ} (hpos : 0 < code) (hfin : code < infinityCode) :
    digitCount (ratioOfCode code).2 ≤ 1075 := by
  obtain ⟨-, hlow, -⟩ := significand_exponent_le hpos hfin
  rcases h : significand code with ⟨m, k | k⟩
  · have hone : digitCount 1 = 1 := rfl
    simp only [ratioOfCode, h, hone]
    decide
  · rw [h] at hlow
    simp only at hlow
    have hcount : digitCount (2 ^ (k + 1)) ≤ k + 1 := by
      rw [digitCount_le_iff (Nat.two_pow_pos _)]
      exact Nat.pow_lt_pow_left (by decide) (Nat.succ_ne_zero k)
    simp only [ratioOfCode, h, Nat.pow_eq]
    omega

theorem le_exponent_shortestDigits {code : ℕ} (hpos : 0 < code) (hfin : code < infinityCode) :
    -1100 ≤ (shortestDigits code).exponent := by
  rcases shortestDigits_cases code with ⟨n, hn, h⟩ | h
  · rw [(codeOfDecimal_nearestOnGrid? h).2]
    have hden := digitCount_ratioOfCode_den_le hpos hfin
    have hnum := digitCount_pos (ratioOfCode code).1
    simp only [floorLog10]
    split_ifs <;> omega
  · rw [h]
    obtain ⟨-, hlow, -⟩ := significand_exponent_le hpos hfin
    rcases hsig : significand code with ⟨m, k | k⟩
    · simp [exactDigits, hsig]
    · rw [hsig] at hlow
      simp only [exactDigits, hsig]
      simp only at hlow
      omega

end JsonShape.Binary64
