import JsonShape.Inference
import JsonShape.Proofs.Binary64.Exact
import JsonShape.Proofs.Tally

/-!
Integers merged with floats, in exact numbers. The bounds of the merged range are the outermost of
the float bounds and of the rounded integer bounds. So the range covers all floats, and all integers
as they are rounded; an integer bound itself is missed where rounding moves it inwards and no float
bound lies beyond it, and never by more than a part in `2 ^ 53`.
-/

set_option autoImplicit false

namespace JsonShape

namespace Range

/-- The exact bounds of a range of doubles; one with an infinity or NaN has none. -/
def toRat? (r : Range Binary64) : Option (Range ℚ) := do
  return ⟨← r.lo.toRat?, ← r.hi.toRat?⟩

theorem toRat?_eq_some_iff {r : Range Binary64} {x : Range ℚ} :
    r.toRat? = some x ↔ r.lo.toRat? = some x.lo ∧ r.hi.toRat? = some x.hi := by
  obtain ⟨lo, hi⟩ := x
  cases hlo : r.lo.toRat? <;> cases hhi : r.hi.toRat? <;> simp [toRat?, hlo, hhi]

/-- The hull of two ranges has the outermost of their exact bounds. -/
theorem toRat?_hull {r s : Range Binary64} {x y : Range ℚ} (hr : r.toRat? = some x)
    (hs : s.toRat? = some y) :
    (r.hull s).toRat? = some ⟨min x.lo y.lo, max x.hi y.hi⟩ := by
  obtain ⟨hrlo, hrhi⟩ := toRat?_eq_some_iff.mp hr
  obtain ⟨hslo, hshi⟩ := toRat?_eq_some_iff.mp hs
  refine toRat?_eq_some_iff.mpr ⟨?_, ?_⟩
  · simp only [hull, Binary64.lt_iff_exact hslo hrlo]
    split_ifs with h
    · rw [hslo, min_eq_right h.le]
    · rw [hrlo, min_eq_left (not_lt.mp h)]
  · simp only [hull, Binary64.lt_iff_exact hrhi hshi]
    split_ifs with h
    · rw [hshi, max_eq_right h.le]
    · rw [hrhi, max_eq_left (not_lt.mp h)]

/-- An exact range around another one and around integers, but for the rounding of their bounds. -/
structure Covers (x : Range ℚ) (r : Range ℤ) (y : Range ℚ) : Prop where
  lo_le : x.lo ≤ y.lo
  le_hi : y.hi ≤ x.hi
  /-- Every integer of the range is covered as it is rounded. -/
  rounded : ∀ n, r.lo ≤ n → n ≤ r.hi →
    ∃ q, (Binary64.ofInt n).toRat? = some q ∧ x.lo ≤ q ∧ q ≤ x.hi
  /-- The lower integer bound itself is covered unless it is rounded up. -/
  lo_le_iff : x.lo ≤ r.lo ↔
    y.lo ≤ r.lo ∨ ∃ q, (Binary64.ofInt r.lo).toRat? = some q ∧ q ≤ r.lo
  /-- The upper integer bound itself is covered unless it is rounded down. -/
  le_hi_iff : r.hi ≤ x.hi ↔
    r.hi ≤ y.hi ∨ ∃ q, (Binary64.ofInt r.hi).toRat? = some q ∧ r.hi ≤ q
  /-- Integers of 53 bits are covered, and so are all that are doubles. -/
  lo_le_of_double : r.lo.natAbs ≤ 2 ^ 53 ∨ (∃ z : Binary64, z.toRat? = some (r.lo : ℚ)) →
    x.lo ≤ r.lo
  le_hi_of_double : r.hi.natAbs ≤ 2 ^ 53 ∨ (∃ z : Binary64, z.toRat? = some (r.hi : ℚ)) →
    r.hi ≤ x.hi
  near_lo : x.lo - r.lo ≤ |(r.lo : ℚ)| / 2 ^ 53
  near_hi : r.hi - x.hi ≤ |(r.hi : ℚ)| / 2 ^ 53

section Covers

variable {r : Range ℤ} {y : Range ℚ} {a b : ℚ}

/-- The outermost of rounded integer bounds and of other bounds cover both ranges. -/
theorem covers_of_rounds (hlo : r.lo.natAbs ≤ 2 ^ 63) (hhi : r.hi.natAbs ≤ 2 ^ 63)
    (ha : Binary64.Rounds r.lo a) (hb : Binary64.Rounds r.hi b) :
    Covers ⟨min a y.lo, max b y.hi⟩ r y where
  lo_le := min_le_right _ _
  le_hi := le_max_right _ _
  rounded n hn hn' := by
    obtain ⟨q, hq⟩ := Binary64.exists_rounds (n := n) (by omega)
    refine ⟨q, hq.toRat?_ofInt, (min_le_left _ _).trans ?_, le_trans ?_ (le_max_left _ _)⟩
    · exact (Binary64.le_iff_exact ha.toRat?_ofInt hq.toRat?_ofInt).mp (Binary64.ofInt_mono hn)
    · exact (Binary64.le_iff_exact hq.toRat?_ofInt hb.toRat?_ofInt).mp (Binary64.ofInt_mono hn')
  lo_le_iff := by
    simp only [min_le_iff, ha.toRat?_ofInt, Option.some.injEq, exists_eq_left', or_comm]
  le_hi_iff := by
    simp only [le_max_iff, hb.toRat?_ofInt, Option.some.injEq, exists_eq_left', or_comm]
  lo_le_of_double h := by
    have heq : a = r.lo := h.elim ha.eq_of_natAbs_le fun ⟨z, hz⟩ => ha.eq_of_toRat? z hz
    exact (min_le_left _ _).trans heq.le
  le_hi_of_double h := by
    have heq : b = r.hi := h.elim hb.eq_of_natAbs_le fun ⟨z, hz⟩ => hb.eq_of_toRat? z hz
    exact heq.ge.trans (le_max_left _ _)
  near_lo := by
    have hnear := (abs_le.mp ha.near).2
    have hmin : min a y.lo ≤ a := min_le_left _ _
    linarith
  near_hi := by
    have hnear := (abs_le.mp hb.near).1
    have hmax : b ≤ max b y.hi := le_max_left _ _
    linarith

end Covers

end Range

namespace Shape

/-- The merge of integers and finite floats, in either order, makes one exact range of floats, which
covers both but for the rounding of the integer bounds. -/
theorem on_unify_int_float {r : Range ℤ} {s : Range Binary64} {y : Range ℚ}
    (hlo : Value.fitsInt64 r.lo = true) (hhi : Value.fitsInt64 r.hi = true)
    (hs : s.toRat? = some y) (merges : ℕ) :
    ∃ t u x, ((int r).unify (float s)).on merges = (.ok (float t), merges + 1) ∧
      ((float s).unify (int r)).on merges = (.ok (float u), merges + 1) ∧
        t.toRat? = some x ∧ u.toRat? = some x ∧ x.Covers r y := by
  have hwidening := Progress.ofWidening_of_isNarrow (isNarrow_int_iff.mpr ⟨hlo, hhi⟩)
  have hleft : Progress.ofMerge nestingRoom (int r) (float s) = Progress.done.step :=
    congrArg Progress.step hwidening
  have hright : Progress.ofMerge nestingRoom (float s) (int r) = Progress.done.step :=
    congrArg Progress.step hwidening
  have hlo := natAbs_le_of_fitsInt64 hlo
  have hhi := natAbs_le_of_fitsInt64 hhi
  obtain ⟨a, ha⟩ := Binary64.exists_rounds hlo
  obtain ⟨b, hb⟩ := Binary64.exists_rounds hhi
  have hr : r.toBinary64.toRat? = some ⟨a, b⟩ :=
    Range.toRat?_eq_some_iff.mpr ⟨ha.toRat?_ofInt, hb.toRat?_ofInt⟩
  have hhull := Range.toRat?_hull hs hr
  rw [min_comm, max_comm] at hhull
  refine ⟨_, _, _, ?_, ?_, Range.toRat?_hull hr hs, hhull, Range.covers_of_rounds hlo hhi ha hb⟩
  · rw [on_unify, hleft]
    rfl
  · rw [on_unify, hright]
    rfl

/-- Integers up to one that is no double. -/
def unevenRange : Range ℤ := ⟨-7, 2 ^ 53 + 1⟩

/-- The float zero alone. -/
def zeroRange : Range Binary64 := .point (.ofInt 0)

theorem toRat?_zeroRange : zeroRange.toRat? = some ⟨0, 0⟩ := by
  have hzero : (Binary64.ofInt 0).toRat? = some 0 := by
    exact_mod_cast Binary64.toRat?_ofInt_of_natAbs_le (n := 0) (by decide)
  exact Range.toRat?_eq_some_iff.mpr ⟨hzero, hzero⟩

theorem on_unify_unevenRange_zeroRange :
    Value.fitsInt64 unevenRange.lo = true ∧ Value.fitsInt64 unevenRange.hi = true ∧
      zeroRange.toRat? = some ⟨0, 0⟩ ∧
        ∃ t u x, ((int unevenRange).unify (float zeroRange)).on 0 = (.ok (float t), 1) ∧
          ((float zeroRange).unify (int unevenRange)).on 0 = (.ok (float u), 1) ∧
            t.toRat? = some x ∧ u.toRat? = some x ∧ x.Covers unevenRange ⟨0, 0⟩ := by
  have hlo : Value.fitsInt64 unevenRange.lo = true := by decide
  have hhi : Value.fitsInt64 unevenRange.hi = true := by decide
  exact ⟨hlo, hhi, toRat?_zeroRange, on_unify_int_float hlo hhi toRat?_zeroRange 0⟩

/-- Not every integer bound is covered as it is: rounding may move it inwards. -/
theorem not_on_unify_int_float_covers :
    ¬ ∀ (r : Range ℤ) (s : Range Binary64) (y : Range ℚ),
      -2 ^ 63 ≤ r.lo → r.lo ≤ r.hi → r.hi ≤ 2 ^ 63 - 1 → s.toRat? = some y → y.lo ≤ y.hi →
        ∃ t x, ((int r).unify (float s)).on 0 = (.ok (float t), 1) ∧ t.toRat? = some x ∧
          x.lo ≤ r.lo ∧ r.hi ≤ x.hi ∧ x.lo ≤ y.lo ∧ y.hi ≤ x.hi := by
  intro h
  obtain ⟨t, x, hrun, hx, -, hhi, -, -⟩ := h unevenRange zeroRange ⟨0, 0⟩ (by decide) (by decide)
    (by decide) toRat?_zeroRange le_rfl
  have ht : t.hi = .ofInt (2 ^ 53) := by
    cases hrun
    decide
  have hround : (Binary64.ofInt (2 ^ 53)).toRat? = some ((2 ^ 53 : ℤ) : ℚ) :=
    Binary64.toRat?_ofInt_of_natAbs_le (by decide)
  have hbound := (Range.toRat?_eq_some_iff.mp hx).2
  rw [ht, hround, Option.some.injEq] at hbound
  rw [← hbound] at hhi
  have hmissed : ¬ unevenRange.hi ≤ 2 ^ 53 := by decide
  exact hmissed (by exact_mod_cast hhi)

end Shape

end JsonShape
