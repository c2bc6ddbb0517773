import JsonShape.Binary64.Rounding
import Mathlib.Algebra.Order.Ring.Int
import Mathlib.Tactic.SplitIfs

/-!
The numeric order of doubles. Both zeros stand at one place and NaN stands nowhere, so the order is
reflexive and total on the numbers alone. Rounding an integer to a double keeps the order: inside a
binade the grid is one and rounding to it is monotone, and two binades meet in a power of two.
-/

set_option autoImplicit false

namespace JsonShape.Binary64

/-- One number lies at or below another; NaN lies below and above nothing. -/
def atMost (x y : Binary64) : Bool :=
  match x.rank?, y.rank? with
  | some a, some b => a ≤ b
  | _, _ => false

instance : LE Binary64 := ⟨fun x y => x.atMost y = true⟩

instance : DecidableLE Binary64 := fun x y => inferInstanceAs (Decidable (x.atMost y = true))

/-- A double that is not NaN. -/
def isNumber : Binary64 → Bool
  | nan => false
  | number _ _ _ => true

theorem isNumber_iff {x : Binary64} : x.isNumber = true ↔ ∃ a, x.rank? = some a := by
  cases x <;> simp [isNumber, rank?]

theorem le_iff {x y : Binary64} :
    x ≤ y ↔ ∃ a b, x.rank? = some a ∧ y.rank? = some b ∧ a ≤ b := by
  change x.atMost y = true ↔ _
  unfold atMost
  cases x.rank? <;> cases y.rank? <;> simp

theorem lt_iff {x y : Binary64} :
    x < y ↔ ∃ a b, x.rank? = some a ∧ y.rank? = some b ∧ a < b := by
  change x.below y = true ↔ _
  unfold below
  cases x.rank? <;> cases y.rank? <;> simp

theorem le_refl_of_isNumber {x : Binary64} (h : x.isNumber = true) : x ≤ x := by
  obtain ⟨a, ha⟩ := isNumber_iff.mp h
  exact le_iff.mpr ⟨a, a, ha, ha, le_rfl⟩

theorem le_trans {x y z : Binary64} (hxy : x ≤ y) (hyz : y ≤ z) : x ≤ z := by
  obtain ⟨a, b, ha, hb, hab⟩ := le_iff.mp hxy
  obtain ⟨b', c, hb', hc, hbc⟩ := le_iff.mp hyz
  obtain rfl : b = b' := Option.some.inj (hb.symm.trans hb')
  exact le_iff.mpr ⟨a, c, ha, hc, hab.trans hbc⟩

theorem le_of_lt {x y : Binary64} (h : x < y) : x ≤ y := by
  obtain ⟨a, b, ha, hb, hab⟩ := lt_iff.mp h
  exact le_iff.mpr ⟨a, b, ha, hb, hab.le⟩

theorem le_of_not_lt {x y : Binary64} (hx : x.isNumber = true) (hy : y.isNumber = true)
    (h : ¬ y < x) : x ≤ y := by
  obtain ⟨a, ha⟩ := isNumber_iff.mp hx
  obtain ⟨b, hb⟩ := isNumber_iff.mp hy
  refine le_iff.mpr ⟨a, b, ha, hb, not_lt.mp fun hlt => h ?_⟩
  exact lt_iff.mpr ⟨b, a, hb, ha, hlt⟩

theorem not_lt_of_le {x y : Binary64} (h : x ≤ y) : ¬ y < x := by
  intro hlt
  obtain ⟨a, b, ha, hb, hab⟩ := le_iff.mp h
  obtain ⟨b', a', hb', ha', hba⟩ := lt_iff.mp hlt
  rw [ha] at ha'
  rw [hb] at hb'
  cases ha'
  cases hb'
  omega

theorem lt_trans {x y z : Binary64} (hxy : x < y) (hyz : y < z) : x < z := by
  obtain ⟨a, b, ha, hb, hab⟩ := lt_iff.mp hxy
  obtain ⟨b', c, hb', hc, hbc⟩ := lt_iff.mp hyz
  obtain rfl : b = b' := Option.some.inj (hb.symm.trans hb')
  exact lt_iff.mpr ⟨a, c, ha, hc, hab.trans hbc⟩

theorem lt_asymm {x y : Binary64} (h : x < y) : ¬ y < x :=
  not_lt_of_le (le_of_lt h)

/-- A number between two others lies strictly off one of them if these are apart. -/
theorem lt_or_lt_of_lt {x y z : Binary64} (hy : y.isNumber = true) (h : x < z) :
    x < y ∨ y < z := by
  obtain ⟨a, c, ha, hc, hac⟩ := lt_iff.mp h
  obtain ⟨b, hb⟩ := isNumber_iff.mp hy
  rcases lt_or_ge a b with hab | hba
  · exact .inl (lt_iff.mpr ⟨a, b, ha, hb, hab⟩)
  · exact .inr (lt_iff.mpr ⟨b, c, hb, hc, hba.trans_lt hac⟩)

theorem roundHalfEven_mono {m n : Nat} (den : Nat) (h : m ≤ n) :
    roundHalfEven m den ≤ roundHalfEven n den := by
  have hm := Nat.div_add_mod m den
  have hn := Nat.div_add_mod n den
  have hq : m / den ≤ n / den := Nat.div_le_div_right h
  simp only [roundHalfEven]
  rcases hq.lt_or_eq with hlt | heq
  · split_ifs <;> omega
  · have hr : m % den ≤ n % den := by rw [heq] at hm; omega
    rw [heq]
    split_ifs <;> omega

theorem roundHalfEven_mul (k : Nat) {den : Nat} (h : 0 < den) :
    roundHalfEven (k * den) den = k := by
  simp [roundHalfEven, Nat.mul_div_cancel k h, h]

theorem roundToGrid_mono {m n : Nat} (q : Int) (h : m ≤ n) :
    roundToGrid m 1 q ≤ roundToGrid n 1 q := by
  cases q with
  | ofNat k => exact roundHalfEven_mono _ h
  | negSucc k => exact roundHalfEven_mono _ (Nat.mul_le_mul_right _ h)

/-- On the grid of its own binade a number takes 53 bits, or rounds up to the next power of two. -/
theorem roundToGrid_bounds {n : Nat} (h : n ≠ 0) :
    2 ^ 52 ≤ roundToGrid n 1 (n.log2 - 52) ∧ roundToGrid n 1 (n.log2 - 52) ≤ 2 ^ 53 := by
  have hlo : 2 ^ n.log2 ≤ n := Nat.log2_self_le h
  have hhi : n ≤ 2 ^ (n.log2 + 1) := Nat.lt_log2_self.le
  rcases hq : (n.log2 : Int) - 52 with k | k
  · have hk : n.log2 = 52 + k := by simp only [Int.ofNat_eq_natCast] at hq; omega
    rw [hk, Nat.add_right_comm] at hhi
    rw [hk] at hlo
    rw [pow_add] at hlo hhi
    have hpos : 0 < 2 ^ k := Nat.two_pow_pos k
    simp only [roundToGrid, one_mul, Nat.pow_eq]
    constructor
    · simpa only [roundHalfEven_mul _ hpos] using roundHalfEven_mono (2 ^ k) hlo
    · simpa only [roundHalfEven_mul _ hpos] using roundHalfEven_mono (2 ^ k) hhi
  · have hk : n.log2 + (k + 1) = 52 := by omega
    have hexact := roundHalfEven_mul (n * 2 ^ (k + 1)) one_pos
    rw [mul_one] at hexact
    simp only [roundToGrid, Nat.pow_eq, hexact]
    constructor
    · calc 2 ^ 52 = 2 ^ n.log2 * 2 ^ (k + 1) := by rw [← pow_add, hk]
        _ ≤ n * 2 ^ (k + 1) := Nat.mul_le_mul_right _ hlo
    · calc n * 2 ^ (k + 1) ≤ 2 ^ (n.log2 + 1) * 2 ^ (k + 1) := Nat.mul_le_mul_right _ hhi
        _ = 2 ^ 53 := by rw [← pow_add, Nat.add_right_comm, hk]

theorem floorLog2_one {n : Nat} (h : n ≠ 0) : floorLog2 n 1 = n.log2 := by
  have hlo : 2 ^ n.log2 ≤ n := Nat.log2_self_le h
  have hone : Nat.log2 1 = 0 := rfl
  simp only [floorLog2, hone, Nat.cast_zero, sub_zero]
  have hle : powerLe 2 n.log2 n 1 = true := by
    change decide (1 * 2 ^ n.log2 ≤ n) = true
    simpa using hlo
  rw [if_pos hle]

/-- The encoding of a positive integer: its binade, and what is left of it on the binade's grid. -/
theorem codeOfRatio_one {n : Nat} (h : n ≠ 0) :
    codeOfRatio n 1 =
      min infinityCode ((n.log2 + 1022) * 2 ^ 52 + roundToGrid n 1 (n.log2 - 52)) := by
  have hmax : max ((n.log2 : Int) - 52) (-1074) = n.log2 - 52 := by omega
  have hexp : ((n.log2 : Int) - 52 + 1074).toNat = n.log2 + 1022 := by omega
  have hleading : 0x10000000000000 = 2 ^ 52 := rfl
  simp only [codeOfRatio, if_neg h, floorLog2_one h, hmax, hexp, hleading]

theorem codeOfRatio_mono {m n : Nat} (h : m ≤ n) : codeOfRatio m 1 ≤ codeOfRatio n 1 := by
  rcases eq_or_ne m 0 with rfl | hm
  · simp [codeOfRatio]
  · have hn : n ≠ 0 := by omega
    have hlog : m.log2 ≤ n.log2 := (Nat.le_log2 hn).mpr ((Nat.log2_self_le hm).trans h)
    rw [codeOfRatio_one hm, codeOfRatio_one hn]
    refine min_le_min_left _ ?_
    rcases hlog.eq_or_lt with heq | hlt
    · rw [heq]
      exact Nat.add_le_add_left (roundToGrid_mono _ h) _
    -- The lower binade rounds up to the first number of the next one at most.
    · have hupper := (roundToGrid_bounds hm).2
      have hlower := (roundToGrid_bounds hn).1
      omega

theorem codeOfRatio_le_infinityCode (num den : Nat) : codeOfRatio num den ≤ infinityCode := by
  unfold codeOfRatio
  split_ifs
  · exact Nat.zero_le _
  · exact Nat.min_le_left _ _

theorem rank_ofInt (n : Int) :
    (ofInt n).rank? = some (if n < 0 then -(codeOfRatio n.natAbs 1 : Int)
      else codeOfRatio n.natAbs 1) := by
  have hmin : min (codeOfRatio n.natAbs 1) 0x7ff0000000000000 = codeOfRatio n.natAbs 1 :=
    min_eq_left (codeOfRatio_le_infinityCode _ _)
  simp only [ofInt, ofCode, rank?, hmin, decide_eq_true_eq]

theorem codeOfRatio_pos {n : Nat} (h : n ≠ 0) : 0 < codeOfRatio n 1 := by
  rw [codeOfRatio_one h]
  refine lt_min (by decide) ?_
  omega

/-- Integers that round to one place round to one double, for of zeros only the one without a sign
stands for an integer. -/
theorem ofInt_eq_of_le_of_le {m n : Int} (hmn : ofInt m ≤ ofInt n) (hnm : ofInt n ≤ ofInt m) :
    ofInt m = ofInt n := by
  obtain ⟨a, b, ha, hb, hab⟩ := le_iff.mp hmn
  obtain ⟨b', a', hb', ha', hba⟩ := le_iff.mp hnm
  rw [rank_ofInt, Option.some.injEq] at ha hb ha' hb'
  have hm (h : m < 0) := codeOfRatio_pos (Int.natAbs_ne_zero.mpr h.ne)
  have hn (h : n < 0) := codeOfRatio_pos (Int.natAbs_ne_zero.mpr h.ne)
  have hsame : (m < 0 ↔ n < 0) ∧ codeOfRatio m.natAbs 1 = codeOfRatio n.natAbs 1 := by
    split_ifs at ha hb ha' hb' <;> constructor <;> omega
  rw [ofInt, ofInt, hsame.2, decide_eq_decide.mpr hsame.1]

theorem ofInt_mono {m n : Int} (h : m ≤ n) : ofInt m ≤ ofInt n := by
  refine le_iff.mpr ⟨_, _, rank_ofInt m, rank_ofInt n, ?_⟩
  split_ifs with hm hn hn
  · have habs : n.natAbs ≤ m.natAbs := by omega
    have hcode := codeOfRatio_mono habs
    omega
  · omega
  · omega
  · have habs : m.natAbs ≤ n.natAbs := by omega
    have hcode := codeOfRatio_mono habs
    omega

end JsonShape.Binary64
