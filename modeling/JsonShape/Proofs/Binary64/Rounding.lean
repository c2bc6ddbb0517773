import JsonShape.Binary64.Shortest
import JsonShape.Proofs.Binary64.Order
import Mathlib.Algebra.Order.Field.Power
import Mathlib.Data.Int.Log
import Mathlib.Data.Rat.Floor
import Mathlib.Tactic.GCongr
import Mathlib.Tactic.NormNum
import Mathlib.Tactic.Positivity
import Mathlib.Tactic.Ring

/-!
Rounding goes by the quotient alone, whatever the numbers it is a quotient of. So a decimal rounds
as any other way to write it does, and the magnitude of a double, as an exact quotient, rounds back
to the double.
-/

set_option autoImplicit false

namespace JsonShape.Binary64

theorem roundHalfEven_mul_mul (num den : ℕ) {k : ℕ} (hk : 0 < k) :
    roundHalfEven (num * k) (den * k) = roundHalfEven num den := by
  have hdiv : num * k / (den * k) = num / den := Nat.mul_div_mul_right num den hk
  have hmod : num * k % (den * k) = num % den * k := Nat.mul_mod_mul_right k num den
  have hlow : 2 * (num % den * k) < den * k ↔ 2 * (num % den) < den := by
    rw [← Nat.mul_assoc]
    exact Nat.mul_lt_mul_right hk
  have hhigh : den * k < 2 * (num % den * k) ↔ den < 2 * (num % den) := by
    rw [← Nat.mul_assoc]
    exact Nat.mul_lt_mul_right hk
  simp only [roundHalfEven, hdiv, hmod, hlow, hhigh]

theorem roundHalfEven_congr {num den num' den' : ℕ} (hden : 0 < den) (hden' : 0 < den')
    (h : num * den' = num' * den) : roundHalfEven num den = roundHalfEven num' den' := by
  calc roundHalfEven num den = roundHalfEven (num * den') (den * den') :=
        (roundHalfEven_mul_mul num den hden').symm
    _ = roundHalfEven (num' * den) (den' * den) := by rw [h, Nat.mul_comm den den']
    _ = roundHalfEven num' den' := roundHalfEven_mul_mul num' den' hden

theorem roundToGrid_congr {num den num' den' : ℕ} (hden : 0 < den) (hden' : 0 < den')
    (h : num * den' = num' * den) (q : ℤ) : roundToGrid num den q = roundToGrid num' den' q := by
  cases q with
  | ofNat k =>
    have hpos : 0 < 2 ^ k := Nat.two_pow_pos k
    refine roundHalfEven_congr (Nat.mul_pos hden hpos) (Nat.mul_pos hden' hpos) ?_
    rw [← Nat.mul_assoc, h, Nat.mul_assoc]
  | negSucc k =>
    refine roundHalfEven_congr hden hden' ?_
    rw [Nat.mul_right_comm, h, Nat.mul_right_comm]

section Powers

variable {num den : ℕ}

theorem powerLe_iff {base : ℕ} (hbase : 0 < base) (hden : 0 < den) (e : ℤ) :
    powerLe base e num den = true ↔ (base : ℚ) ^ e ≤ num / den := by
  have hden' : (0 : ℚ) < den := by exact_mod_cast hden
  rw [le_div_iff₀ hden']
  cases e with
  | ofNat k =>
    simp only [powerLe, decide_eq_true_eq, Int.ofNat_eq_natCast, zpow_natCast, Nat.pow_eq]
    rw [mul_comm]
    exact_mod_cast Iff.rfl
  | negSucc k =>
    have hpos : (0 : ℚ) < (base : ℚ) ^ (k + 1) := by positivity
    simp only [powerLe, decide_eq_true_eq, zpow_negSucc, Nat.pow_eq]
    rw [inv_mul_le_iff₀ hpos, mul_comm]
    exact_mod_cast Iff.rfl

theorem floorLog2_eq_log (hnum : 0 < num) (hden : 0 < den) :
    floorLog2 num den = Int.log 2 ((num : ℚ) / den) := by
  have hnum' : (0 : ℚ) < num := by exact_mod_cast hnum
  have hden' : (0 : ℚ) < den := by exact_mod_cast hden
  have hquot : (0 : ℚ) < num / den := div_pos hnum' hden'
  have hnlo : (2 : ℚ) ^ num.log2 ≤ num := by exact_mod_cast Nat.log2_self_le hnum.ne'
  have hnhi : (num : ℚ) < 2 ^ (num.log2 + 1) := by exact_mod_cast Nat.lt_log2_self
  have hdlo : (2 : ℚ) ^ den.log2 ≤ den := by exact_mod_cast Nat.log2_self_le hden.ne'
  have hdhi : (den : ℚ) < 2 ^ (den.log2 + 1) := by exact_mod_cast Nat.lt_log2_self
  -- The binary lengths of the two numbers leave two exponents to choose from.
  have hupper : Int.log 2 ((num : ℚ) / den) < (num.log2 : ℤ) - den.log2 + 1 := by
    rw [← Int.lt_zpow_iff_log_lt one_lt_two hquot, div_lt_iff₀ hden']
    calc (num : ℚ) < 2 ^ (num.log2 + 1) := hnhi
      _ = (2 : ℚ) ^ ((num.log2 : ℤ) - den.log2 + 1) * 2 ^ den.log2 := by
        rw [← zpow_natCast, ← zpow_natCast, ← zpow_add₀ two_ne_zero]
        congr 1
        push_cast
        ring
      _ ≤ _ := by
        push_cast
        gcongr
  have hlower : (num.log2 : ℤ) - den.log2 - 1 ≤ Int.log 2 ((num : ℚ) / den) := by
    rw [← Int.zpow_le_iff_le_log one_lt_two hquot, le_div_iff₀ hden']
    calc ((2 : ℕ) : ℚ) ^ ((num.log2 : ℤ) - den.log2 - 1) * den
        ≤ (2 : ℚ) ^ ((num.log2 : ℤ) - den.log2 - 1) * 2 ^ (den.log2 + 1) := by
          push_cast
          gcongr
      _ = 2 ^ num.log2 := by
        rw [← zpow_natCast, ← zpow_natCast, ← zpow_add₀ two_ne_zero]
        congr 1
        push_cast
        ring
      _ ≤ num := hnlo
  have hpower : powerLe 2 ((num.log2 : ℤ) - den.log2) num den = true ↔
      ((2 : ℕ) : ℚ) ^ ((num.log2 : ℤ) - den.log2) ≤ num / den := powerLe_iff two_pos hden _
  rw [Int.zpow_le_iff_le_log one_lt_two hquot] at hpower
  simp only [floorLog2]
  split_ifs with hle
  · have hreached := hpower.mp hle
    omega
  · have hmissed := mt hpower.mpr hle
    omega

end Powers

/-- Quotients that are equal round to the same double. -/
theorem codeOfRatio_congr {num den num' den' : ℕ} (hden : 0 < den) (hden' : 0 < den')
    (h : (num : ℚ) / den = num' / den') : codeOfRatio num den = codeOfRatio num' den' := by
  have hcross : num * den' = num' * den := by
    have hne : (den : ℚ) ≠ 0 := by exact_mod_cast hden.ne'
    have hne' : (den' : ℚ) ≠ 0 := by exact_mod_cast hden'.ne'
    exact_mod_cast (div_eq_div_iff hne hne').mp h
  rcases Nat.eq_zero_or_pos num with rfl | hnum
  · have hzero : num' = 0 := by simpa [hden.ne'] using hcross.symm
    simp [codeOfRatio, hzero]
  · have hnum' : 0 < num' := by
      refine Nat.pos_of_ne_zero fun hzero => ?_
      simp [hzero, hnum.ne', hden'.ne'] at hcross
    simp only [codeOfRatio, if_neg hnum.ne', if_neg hnum'.ne', floorLog2_eq_log hnum hden,
      floorLog2_eq_log hnum' hden', h, roundToGrid_congr hden hden' hcross]

/-! ### The magnitude of a double -/

/-- The magnitude of a double is a significand of at most 53 bits times a power of two. -/
theorem value_ratioOfCode (code : ℕ) :
    ((ratioOfCode code).1 : ℚ) / (ratioOfCode code).2 =
      (significand code).1 * 2 ^ (significand code).2 := by
  rcases h : significand code with ⟨m, k | k⟩
  · simp [ratioOfCode, h]
  · simp only [ratioOfCode, h, zpow_negSucc, Nat.pow_eq]
    push_cast
    rfl

theorem ratioOfCode_den_pos (code : ℕ) : 0 < (ratioOfCode code).2 := by
  rcases h : significand code with ⟨m, k | k⟩
  · simp [ratioOfCode, h]
  · simp [ratioOfCode, h]

theorem roundToGrid_ratioOfCode (code : ℕ) :
    roundToGrid (ratioOfCode code).1 (ratioOfCode code).2 (significand code).2 =
      (significand code).1 := by
  rcases h : significand code with ⟨m, k | k⟩
  · simp only [ratioOfCode, h, roundToGrid, one_mul, Nat.pow_eq]
    exact roundHalfEven_mul m (Nat.two_pow_pos k)
  · simp only [ratioOfCode, h, roundToGrid, Nat.pow_eq]
    exact roundHalfEven_mul m (Nat.two_pow_pos (k + 1))

/-- The exponent of the leading bit of `m * 2 ^ q`, from bounds on `m`. -/
theorem log_mul_zpow {m n : ℕ} (hlo : 2 ^ n ≤ m) (hhi : m < 2 ^ (n + 1)) (q : ℤ) :
    Int.log 2 ((m : ℚ) * 2 ^ q) = n + q := by
  have hm : 0 < m := (Nat.two_pow_pos n).trans_le hlo
  have hpos : (0 : ℚ) < (m : ℚ) * 2 ^ q := by positivity
  have hlower : (n : ℤ) + q ≤ Int.log 2 ((m : ℚ) * 2 ^ q) := by
    rw [← Int.zpow_le_iff_le_log one_lt_two hpos]
    rw [Nat.cast_two, zpow_add₀ two_ne_zero, zpow_natCast]
    exact mul_le_mul_of_nonneg_right (by exact_mod_cast hlo) (zpow_pos two_pos q).le
  have hupper : Int.log 2 ((m : ℚ) * 2 ^ q) < (n : ℤ) + q + 1 := by
    rw [← Int.lt_zpow_iff_log_lt one_lt_two hpos]
    rw [Nat.cast_two, add_right_comm, zpow_add₀ two_ne_zero, ← Nat.cast_succ, zpow_natCast]
    exact mul_lt_mul_of_pos_right (by exact_mod_cast hhi) (zpow_pos two_pos q)
  omega

theorem ratioOfCode_num_pos {code : ℕ} (h : 0 < (significand code).1) :
    0 < (ratioOfCode code).1 := by
  rcases hsig : significand code with ⟨m, k | k⟩
  · simpa [ratioOfCode, hsig] using h
  · simpa [ratioOfCode, hsig] using h

theorem floorLog2_ratioOfCode {code n : ℕ} (hlo : 2 ^ n ≤ (significand code).1)
    (hhi : (significand code).1 < 2 ^ (n + 1)) :
    floorLog2 (ratioOfCode code).1 (ratioOfCode code).2 = n + (significand code).2 := by
  have hnum := ratioOfCode_num_pos ((Nat.two_pow_pos n).trans_le hlo)
  rw [floorLog2_eq_log hnum (ratioOfCode_den_pos code), value_ratioOfCode, log_mul_zpow hlo hhi]

/-- The significand has 53 bits, or fewer on the lowest grid, and makes up the encoding together
with the number of its grid. -/
theorem significand_spec {code : ℕ} (hpos : 0 < code) :
    (((significand code).2 + 1074).toNat * 2 ^ 52 + (significand code).1 = code ∧
      0 < (significand code).1) ∧
    (2 ^ 52 ≤ (significand code).1 ∧ (significand code).1 < 2 ^ 53 ∧
        -1074 ≤ (significand code).2 ∨
      (significand code).1 < 2 ^ 52 ∧ (significand code).2 = -1074) := by
  by_cases hsub : code < 0x10000000000000
  · have hsig : significand code = (code, -1074) := if_pos hsub
    rw [hsig]
    exact ⟨⟨by simp, hpos⟩, .inr ⟨hsub, rfl⟩⟩
  · have hsig : significand code =
        (code % 0x10000000000000 + 0x10000000000000, ((code / 0x10000000000000 : ℕ) : ℤ) - 1075) :=
      if_neg hsub
    have hdiv := Nat.div_add_mod code 0x10000000000000
    have hmod := Nat.mod_lt code (show 0 < 0x10000000000000 by decide)
    rw [hsig]
    simp only
    refine ⟨⟨?_, ?_⟩, .inl ⟨?_, ?_, ?_⟩⟩ <;> omega

/-- The magnitude of a finite double, as an exact quotient, rounds back to the double. -/
theorem codeOfRatio_ratioOfCode {code : ℕ} (hpos : 0 < code) (hfin : code < infinityCode) :
    codeOfRatio (ratioOfCode code).1 (ratioOfCode code).2 = code := by
  obtain ⟨⟨hcode, hm⟩, hgrid⟩ := significand_spec hpos
  have hmax : max (floorLog2 (ratioOfCode code).1 (ratioOfCode code).2 - 52) (-1074) =
      (significand code).2 := by
    rcases hgrid with ⟨hlo, hhi, hq⟩ | ⟨hhi, hq⟩
    · rw [floorLog2_ratioOfCode hlo hhi]
      omega
    · have hlog : (significand code).1.log2 < 52 := (Nat.log2_lt hm.ne').mpr hhi
      rw [floorLog2_ratioOfCode (Nat.log2_self_le hm.ne') Nat.lt_log2_self, hq]
      omega
  have hleading : 0x10000000000000 = 2 ^ 52 := rfl
  simp only [codeOfRatio, if_neg (ratioOfCode_num_pos hm).ne', hmax, roundToGrid_ratioOfCode,
    hleading, hcode]
  exact min_eq_right hfin.le

end JsonShape.Binary64
