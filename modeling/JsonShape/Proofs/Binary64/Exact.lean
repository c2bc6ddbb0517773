import JsonShape.Proofs.Binary64.Rounding
import Mathlib.Tactic.Linarith

/-!
The exact numbers that doubles stand for. They are ordered as the doubles are. An integer of 64 bits
is never rounded to infinity: it is rounded to itself if it is a double, as all integers of 53 bits
are, and is otherwise moved by no more than a part in `2 ^ 53`.
-/

set_option autoImplicit false

namespace JsonShape.Binary64

/-- The number of an encoded magnitude below infinity. -/
def magnitude (code : ℕ) : ℚ := (significand code).1 * 2 ^ (significand code).2

/-- The number that a double stands for; infinities and NaN stand for none. -/
def toRat? : Binary64 → Option ℚ
  | nan => none
  | number negative code _ =>
    if code < infinityCode then some (if negative then -magnitude code else magnitude code)
    else none

section Magnitude

theorem magnitude_zero : magnitude 0 = 0 := by
  have hsig : significand 0 = (0, -1074) := rfl
  simp [magnitude, hsig]

theorem magnitude_pos {code : ℕ} (h : 0 < code) : 0 < magnitude code := by
  have hm : 0 < (significand code).1 := (significand_spec h).1.2
  exact mul_pos (by exact_mod_cast hm) (zpow_pos two_pos _)

/-- A larger encoding has a larger significand on the same grid, or one of full length on a coarser
grid. -/
theorem magnitude_strictMono : StrictMono magnitude := by
  intro code larger h
  rcases Nat.eq_zero_or_pos code with rfl | hpos
  · rw [magnitude_zero]
    exact magnitude_pos h
  obtain ⟨⟨hcode, -⟩, hgrid⟩ := significand_spec hpos
  obtain ⟨⟨hlarger, -⟩, hgrid'⟩ := significand_spec (hpos.trans h)
  simp only [magnitude]
  generalize significand code = s at *
  generalize significand larger = t at *
  obtain ⟨m, q⟩ := s
  obtain ⟨n, r⟩ := t
  simp only at *
  rcases lt_trichotomy q r with hlt | rfl | hgt
  · have hm : (m : ℚ) < 2 ^ 53 := by exact_mod_cast (by omega : m < 2 ^ 53)
    have hn : (2 : ℚ) ^ 52 ≤ n := by exact_mod_cast (by omega : 2 ^ 52 ≤ n)
    calc (m : ℚ) * 2 ^ q < 2 ^ 53 * 2 ^ q := mul_lt_mul_of_pos_right hm (zpow_pos two_pos q)
      _ = 2 ^ 52 * 2 ^ (q + 1) := by rw [zpow_add_one₀ two_ne_zero]; ring
      _ ≤ 2 ^ 52 * 2 ^ r := by gcongr <;> [norm_num; omega]
      _ ≤ n * 2 ^ r := by gcongr
  · have hmn : (m : ℚ) < n := by exact_mod_cast (by omega : m < n)
    exact mul_lt_mul_of_pos_right hmn (zpow_pos two_pos q)
  · omega

theorem magnitude_nonneg (code : ℕ) : 0 ≤ magnitude code := by
  rw [← magnitude_zero]
  exact magnitude_strictMono.monotone (Nat.zero_le code)

/-- A significand of 53 bits on a grid, or the next power of two, has the magnitude that it says. -/
theorem magnitude_grid {e m : ℕ} (hlo : 2 ^ 52 ≤ m) (hhi : m ≤ 2 ^ 53) :
    magnitude (e * 2 ^ 52 + m) = m * 2 ^ ((e : ℤ) - 1074) := by
  have hlarge : ¬ e * 2 ^ 52 + m < 0x10000000000000 := by omega
  rcases hhi.lt_or_eq with hlt | rfl
  · have hmod : (e * 2 ^ 52 + m) % 0x10000000000000 + 0x10000000000000 = m := by omega
    have hdiv : (e * 2 ^ 52 + m) / 0x10000000000000 = e + 1 := by omega
    rw [magnitude, significand, if_neg hlarge, hmod, hdiv]
    congr 2
    push_cast
    ring
  · have hmod : (e * 2 ^ 52 + 2 ^ 53) % 0x10000000000000 + 0x10000000000000 = 2 ^ 52 := by omega
    have hdiv : (e * 2 ^ 52 + 2 ^ 53) / 0x10000000000000 = e + 2 := by omega
    have hexp : ((e + 2 : ℕ) : ℤ) - 1075 = (e : ℤ) - 1074 + 1 := by
      push_cast
      ring
    rw [magnitude, significand, if_neg hlarge, hmod, hdiv, hexp, zpow_add_one₀ two_ne_zero]
    push_cast
    ring

end Magnitude

section Order

variable {x y : Binary64} {p q : ℚ}

/-- A double that stands for a number has an encoding below infinity. -/
theorem toRat?_eq_some_iff :
    x.toRat? = some p ↔ ∃ negative code, ∃ h : code < infinityCode,
      x = number negative code h.le ∧ p = if negative then -magnitude code else magnitude code := by
  cases x with
  | nan => simp [toRat?]
  | number negative code bounded =>
    constructor
    · intro h
      simp only [toRat?] at h
      split at h
      · next hfinite => exact ⟨negative, code, hfinite, rfl, (Option.some.inj h).symm⟩
      · cases h
    · rintro ⟨negative, code, hfinite, hx, rfl⟩
      cases hx
      exact if_pos hfinite

/-- The doubles that stand for numbers are ordered as these. -/
theorem le_iff_exact (hx : x.toRat? = some p) (hy : y.toRat? = some q) : x ≤ y ↔ p ≤ q := by
  obtain ⟨s, c, hc, rfl, rfl⟩ := toRat?_eq_some_iff.mp hx
  obtain ⟨t, d, hd, rfl, rfl⟩ := toRat?_eq_some_iff.mp hy
  have hle : magnitude c ≤ magnitude d ↔ c ≤ d := magnitude_strictMono.le_iff_le
  have hge : magnitude d ≤ magnitude c ↔ d ≤ c := magnitude_strictMono.le_iff_le
  have hc0 := magnitude_nonneg c
  have hd0 := magnitude_nonneg d
  have hrank : number s c hc.le ≤ number t d hd.le ↔
      (if s then -(c : ℤ) else c) ≤ if t then -(d : ℤ) else d := by simp [le_iff, rank?]
  rw [hrank]
  cases s <;> cases t
  · simpa using hle.symm
  · -- A number without a sign is at most one with a sign only if both are zeros.
    have hczero : magnitude c ≤ 0 ↔ c ≤ 0 := by
      rw [← magnitude_zero, magnitude_strictMono.le_iff_le]
    have hdzero : magnitude d ≤ 0 ↔ d ≤ 0 := by
      rw [← magnitude_zero, magnitude_strictMono.le_iff_le]
    simp only [Bool.false_eq_true, if_false, if_true]
    constructor
    · intro h
      have hczero := hczero.mpr (by omega)
      have hdzero := hdzero.mpr (by omega)
      linarith
    · intro h
      have hczero := hczero.mp (by linarith)
      have hdzero := hdzero.mp (by linarith)
      omega
  · simp only [Bool.false_eq_true, if_false, if_true]
    exact iff_of_true (by omega) (by linarith)
  · simpa using hge.symm

theorem lt_iff_exact (hx : x.toRat? = some p) (hy : y.toRat? = some q) : x < y ↔ p < q := by
  obtain ⟨s, c, hc, rfl, -⟩ := toRat?_eq_some_iff.mp hx
  obtain ⟨t, d, hd, rfl, -⟩ := toRat?_eq_some_iff.mp hy
  rw [← not_le, ← le_iff_exact hy hx]
  exact ⟨fun h hle => not_lt_of_le hle h,
    fun h => by_contra fun hlt => h (le_of_not_lt rfl rfl hlt)⟩

end Order

/-! ### Integers -/

section Integers

/-- Rounding to an integer moves a quotient by a half at most. -/
theorem roundHalfEven_error (num : ℕ) {den : ℕ} (hden : 0 < den) :
    2 * (roundHalfEven num den * den) ≤ 2 * num + den ∧
      2 * num ≤ 2 * (roundHalfEven num den * den) + den := by
  have hdiv := Nat.div_add_mod num den
  have hmod := Nat.mod_lt num hden
  have hup : (num / den + 1) * den = den * (num / den) + den := by ring
  have hdown : num / den * den = den * (num / den) := Nat.mul_comm _ _
  have hcases : roundHalfEven num den = num / den ∧ 2 * (num % den) ≤ den ∨
      roundHalfEven num den = num / den + 1 ∧ den ≤ 2 * (num % den) := by
    simp only [roundHalfEven]
    split_ifs <;> omega
  rcases hcases with ⟨h, hr⟩ | ⟨h, hr⟩
  · rw [h, hdown]
    omega
  · rw [h, hup]
    omega

/-- On a grid of whole units an integer moves by half a unit at most, on a finer one not at all. -/
theorem roundToGrid_error (n : ℕ) (q : ℤ) :
    2 * |(roundToGrid n 1 q : ℚ) * 2 ^ q - n| ≤ 2 ^ q ∧
      (q ≤ 0 → (roundToGrid n 1 q : ℚ) * 2 ^ q = n) := by
  cases q with
  | ofNat k =>
    obtain ⟨hlo, hhi⟩ := roundHalfEven_error n (Nat.two_pow_pos k)
    simp only [roundToGrid, one_mul, Nat.pow_eq, Int.ofNat_eq_natCast, zpow_natCast]
    have hlo' : 2 * ((roundHalfEven n (2 ^ k) : ℚ) * 2 ^ k) ≤ 2 * n + 2 ^ k := by exact_mod_cast hlo
    have hhi' : 2 * (n : ℚ) ≤ 2 * ((roundHalfEven n (2 ^ k) : ℚ) * 2 ^ k) + 2 ^ k := by
      exact_mod_cast hhi
    have habs : |(roundHalfEven n (2 ^ k) : ℚ) * 2 ^ k - n| ≤ 2 ^ k / 2 :=
      abs_le.mpr ⟨by linarith, by linarith⟩
    refine ⟨by linarith, fun hk => ?_⟩
    obtain rfl : k = 0 := by omega
    have hself := roundHalfEven_mul n one_pos
    rw [mul_one] at hself
    rw [pow_zero, pow_zero, mul_one, hself]
  | negSucc k =>
    have hself := roundHalfEven_mul (n * 2 ^ (k + 1)) one_pos
    rw [mul_one] at hself
    have hexact : (roundToGrid n 1 (.negSucc k) : ℚ) * 2 ^ Int.negSucc k = n := by
      simp only [roundToGrid, Nat.pow_eq, hself, zpow_negSucc]
      push_cast
      field_simp
    refine ⟨?_, fun _ => hexact⟩
    rw [hexact, sub_self, abs_zero, mul_zero]
    exact (zpow_pos two_pos _).le

/-- A positive integer of 64 bits is rounded to a finite magnitude that is off by no more than a
part in `2 ^ 53`, and by nothing if it has 53 bits. -/
theorem magnitude_codeOfRatio_one {n : ℕ} (hpos : n ≠ 0) (hn : n ≤ 2 ^ 63) :
    codeOfRatio n 1 < infinityCode ∧ |magnitude (codeOfRatio n 1) - n| ≤ n / 2 ^ 53 ∧
      (n ≤ 2 ^ 53 → magnitude (codeOfRatio n 1) = n) := by
  obtain ⟨hlo, hhi⟩ := roundToGrid_bounds hpos
  obtain ⟨herror, hexact⟩ := roundToGrid_error n (n.log2 - 52)
  have hlog : n.log2 < 64 := (Nat.log2_lt hpos).mpr (hn.trans_lt (by decide))
  have hleast : 2 ^ n.log2 ≤ n := Nat.log2_self_le hpos
  have hcode : codeOfRatio n 1 = (n.log2 + 1022) * 2 ^ 52 + roundToGrid n 1 (n.log2 - 52) := by
    rw [codeOfRatio_one hpos]
    refine min_eq_right ?_
    rw [infinityCode]
    omega
  have hunit : ((n.log2 + 1022 : ℕ) : ℤ) - 1074 = n.log2 - 52 := by
    push_cast
    ring
  rw [hcode, magnitude_grid hlo hhi, hunit]
  refine ⟨?_, ?_, fun hsmall => ?_⟩
  · rw [infinityCode]
    omega
  · have hgrid : (2 : ℚ) ^ ((n.log2 : ℤ) - 52) * 2 ^ 52 ≤ n := by
      rw [zpow_sub₀ two_ne_zero, zpow_natCast]
      have hleast' : (2 : ℚ) ^ n.log2 ≤ n := by exact_mod_cast hleast
      norm_num
      linarith
    linarith
  · rcases hsmall.lt_or_eq with hlt | rfl
    · have hlog53 : n.log2 < 53 := (Nat.log2_lt hpos).mpr hlt
      exact hexact (by omega)
    · have hround : roundToGrid (2 ^ 53) 1 (((2 ^ 53 : ℕ).log2 : ℤ) - 52) = 2 ^ 52 := by decide
      have hlog53 : ((2 ^ 53 : ℕ).log2 : ℤ) - 52 = 1 := by decide
      rw [hround, hlog53]
      norm_num

/-- What an integer of 64 bits is rounded to, as an exact number. -/
structure Rounds (n : ℤ) (q : ℚ) : Prop where
  toRat?_ofInt : (ofInt n).toRat? = some q
  near : |q - n| ≤ |(n : ℚ)| / 2 ^ 53
  eq_of_natAbs_le : n.natAbs ≤ 2 ^ 53 → q = n
  eq_of_toRat? : ∀ x : Binary64, x.toRat? = some (n : ℚ) → q = n

theorem toRat?_ofInt_of_lt {n : ℤ} (h : codeOfRatio n.natAbs 1 < infinityCode) :
    (ofInt n).toRat? = some (if n < 0 then -magnitude (codeOfRatio n.natAbs 1)
      else magnitude (codeOfRatio n.natAbs 1)) := by
  refine toRat?_eq_some_iff.mpr ⟨n < 0, _, h, ?_, by simp only [decide_eq_true_eq]⟩
  have hmin : min (codeOfRatio n.natAbs 1) 0x7ff0000000000000 = codeOfRatio n.natAbs 1 :=
    min_eq_left h.le
  simp only [ofInt, ofCode, hmin]

/-- An integer that is a double is rounded to it. -/
theorem codeOfRatio_of_magnitude {n code : ℕ} (hpos : n ≠ 0) (h : magnitude code = n)
    (hfinite : code < infinityCode) : codeOfRatio n 1 = code := by
  have hcode : 0 < code := by
    refine Nat.pos_of_ne_zero fun hzero => hpos ?_
    rw [hzero, magnitude_zero] at h
    exact_mod_cast h.symm
  have hratio : (n : ℚ) / (1 : ℕ) = ((ratioOfCode code).1 : ℚ) / (ratioOfCode code).2 := by
    rw [value_ratioOfCode, Nat.cast_one, div_one]
    exact h.symm
  rw [codeOfRatio_congr one_pos (ratioOfCode_den_pos code) hratio]
  exact codeOfRatio_ratioOfCode hcode hfinite

theorem exists_rounds {n : ℤ} (hn : n.natAbs ≤ 2 ^ 63) : ∃ q, Rounds n q := by
  rcases eq_or_ne n 0 with rfl | hne
  · have hzero : (ofInt 0).toRat? = some 0 := by
      rw [toRat?_ofInt_of_lt (by decide)]
      exact congrArg some magnitude_zero
    exact ⟨0, by simpa using hzero, by simp, fun _ => by simp, fun _ _ => by simp⟩
  have hpos : n.natAbs ≠ 0 := Int.natAbs_ne_zero.mpr hne
  obtain ⟨hfinite, hnear, hsmall⟩ := magnitude_codeOfRatio_one hpos hn
  have hexact (x : Binary64) (hx : x.toRat? = some (n : ℚ)) :
      magnitude (codeOfRatio n.natAbs 1) = n.natAbs := by
    obtain ⟨negative, code, hcode, -, hvalue⟩ := toRat?_eq_some_iff.mp hx
    have hsize : magnitude code = n.natAbs := by
      rw [Nat.cast_natAbs, Int.cast_abs, hvalue, ← abs_of_nonneg (magnitude_nonneg code)]
      cases negative <;> simp
    rw [codeOfRatio_of_magnitude hpos hsize hcode, hsize]
  have habs : |(n : ℚ)| = n.natAbs := by rw [Nat.cast_natAbs, Int.cast_abs]
  have hsign : (if n < 0 then -(n.natAbs : ℚ) else n.natAbs) = n := by
    split_ifs with hneg
    · rw [← habs, abs_of_neg (by exact_mod_cast hneg), neg_neg]
    · rw [← habs, abs_of_nonneg (by exact_mod_cast not_lt.mp hneg)]
  refine ⟨_, toRat?_ofInt_of_lt hfinite, ?_, fun hle => ?_, fun x hx => ?_⟩
  · rw [habs, ← hsign]
    split_ifs
    · rw [neg_sub_neg, abs_sub_comm]
      exact hnear
    · exact hnear
  · rw [hsmall hle, hsign]
  · rw [hexact x hx, hsign]

theorem toRat?_ofInt_of_natAbs_le {n : ℤ} (h : n.natAbs ≤ 2 ^ 53) :
    (ofInt n).toRat? = some (n : ℚ) := by
  obtain ⟨q, hq⟩ := exists_rounds (h.trans (by decide))
  rw [hq.toRat?_ofInt, hq.eq_of_natAbs_le h]

end Integers

end JsonShape.Binary64
