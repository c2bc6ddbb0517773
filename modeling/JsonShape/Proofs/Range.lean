import JsonShape.Proofs.Binary64.Order
import JsonShape.Range

/-!
Ranges inside ranges. The hull of two ranges lies inside every range around both, and it lies
around both itself: for integers always, for doubles when no bound is NaN. So the bounds of a hull
are in order when those of one of the ranges are, and if two ranges go from the least to the
greatest of some numbers each, their hull does of them all.
-/

set_option autoImplicit false

namespace JsonShape.Range

variable {α : Type}

/-- What holds of two ranges bound by bound holds of their hull: its bounds are theirs. -/
theorem bounds_hull [LT α] [DecidableLT α] {r s : Range α} {p q : α → Prop}
    (hr : p r.lo ∧ q r.hi) (hs : p s.lo ∧ q s.hi) : p (r.hull s).lo ∧ q (r.hull s).hi := by
  simp only [hull]
  constructor
  · split_ifs
    · exact hs.1
    · exact hr.1
  · split_ifs
    · exact hs.2
    · exact hr.2

theorem hull_self [LT α] [DecidableLT α] (r : Range α) : r.hull r = r := by
  rw [hull, ite_self, ite_self]

/-- A range that went into a hull does not move its bounds again. -/
private theorem hull_hull_of_asymm [LT α] [DecidableLT α] (hasymm : ∀ x y : α, x < y → ¬ y < x)
    (r s : Range α) : (r.hull s).hull r = r.hull s ∧ (r.hull s).hull s = r.hull s := by
  have hself (x : α) : ¬ x < x := fun h => hasymm x x h h
  simp only [hull, mk.injEq]
  constructor <;> constructor <;> split_ifs <;> simp_all

theorem hull_hull (r s : Range Int) :
    (r.hull s).hull r = r.hull s ∧ (r.hull s).hull s = r.hull s :=
  hull_hull_of_asymm (fun _ _ => Int.lt_asymm) r s

theorem binary64_hull_hull (r s : Range Binary64) :
    (r.hull s).hull r = r.hull s ∧ (r.hull s).hull s = r.hull s :=
  hull_hull_of_asymm (fun _ _ => Binary64.lt_asymm) r s

section Bounds

variable [LE α] [DecidableLE α]

/-- A range lies inside another one. -/
def within (r s : Range α) : Bool := s.lo ≤ r.lo && r.hi ≤ s.hi

/-- A number or a length lies in a range. -/
def contains (r : Range α) (a : α) : Bool := r.lo ≤ a && a ≤ r.hi

theorem within_iff {r s : Range α} : r.within s = true ↔ s.lo ≤ r.lo ∧ r.hi ≤ s.hi := by
  simp [within]

theorem point_within (a : α) (s : Range α) : (point a).within s = s.contains a := rfl

theorem hull_within [LT α] [DecidableLT α] {r s t : Range α} (hr : r.within t = true)
    (hs : s.within t = true) : (r.hull s).within t = true := by
  have hbounds := bounds_hull (p := (t.lo ≤ ·)) (q := (· ≤ t.hi))
    (within_iff.mp hr) (within_iff.mp hs)
  exact within_iff.mpr hbounds

end Bounds

/-- Neither bound of a range of doubles is NaN. -/
def isNumeric (r : Range Binary64) : Bool := r.lo.isNumber && r.hi.isNumber

theorem isNumeric_iff {r : Range Binary64} :
    r.isNumeric = true ↔ r.lo.isNumber = true ∧ r.hi.isNumber = true := by
  simp [isNumeric]

theorem isNumeric_hull {r s : Range Binary64} (hr : r.isNumeric = true)
    (hs : s.isNumeric = true) : (r.hull s).isNumeric = true := by
  have hbounds := bounds_hull (p := (Binary64.isNumber · = true))
    (q := (Binary64.isNumber · = true)) (isNumeric_iff.mp hr) (isNumeric_iff.mp hs)
  exact isNumeric_iff.mpr hbounds

@[simp] theorem toBinary64_point (n : Int) : (point n).toBinary64 = point (.ofInt n) := rfl

theorem isNumeric_toBinary64 (r : Range Int) : r.toBinary64.isNumeric = true := rfl

theorem within_refl (r : Range Int) : r.within r = true := by
  simp [within_iff]

theorem within_refl_of_isNumeric {r : Range Binary64} (h : r.isNumeric = true) :
    r.within r = true := by
  obtain ⟨hlo, hhi⟩ := isNumeric_iff.mp h
  exact within_iff.mpr ⟨Binary64.le_refl_of_isNumber hlo, Binary64.le_refl_of_isNumber hhi⟩

theorem within_trans {r s t : Range Int} (hrs : r.within s = true) (hst : s.within t = true) :
    r.within t = true := by
  rw [within_iff] at *
  omega

theorem within_antisymm {r s : Range Int} (hrs : r.within s = true) (hsr : s.within r = true) :
    r = s := by
  obtain ⟨hlo, hhi⟩ := within_iff.mp hrs
  obtain ⟨hlo', hhi'⟩ := within_iff.mp hsr
  obtain ⟨lo, hi⟩ := r
  exact congrArg₂ Range.mk (le_antisymm hlo' hlo) (le_antisymm hhi hhi')

theorem binary64_within_trans {r s t : Range Binary64} (hrs : r.within s = true)
    (hst : s.within t = true) : r.within t = true := by
  rw [within_iff] at *
  exact ⟨Binary64.le_trans hst.1 hrs.1, Binary64.le_trans hrs.2 hst.2⟩

theorem within_hull (r s : Range Int) :
    r.within (r.hull s) = true ∧ s.within (r.hull s) = true := by
  simp only [within_iff, hull]
  constructor <;> constructor <;> split_ifs <;> omega

theorem within_hull_of_isNumeric {r s : Range Binary64} (hr : r.isNumeric = true)
    (hs : s.isNumeric = true) :
    r.within (r.hull s) = true ∧ s.within (r.hull s) = true := by
  obtain ⟨hrlo, hrhi⟩ := isNumeric_iff.mp hr
  obtain ⟨hslo, hshi⟩ := isNumeric_iff.mp hs
  simp only [within_iff, hull]
  refine ⟨⟨?_, ?_⟩, ?_, ?_⟩
  · split_ifs with h
    · exact Binary64.le_of_lt h
    · exact Binary64.le_refl_of_isNumber hrlo
  · split_ifs with h
    · exact Binary64.le_of_lt h
    · exact Binary64.le_refl_of_isNumber hrhi
  · split_ifs with h
    · exact Binary64.le_refl_of_isNumber hslo
    · exact Binary64.le_of_not_lt hrlo hslo h
  · split_ifs with h
    · exact Binary64.le_refl_of_isNumber hshi
    · exact Binary64.le_of_not_lt hshi hrhi h

/-- Of three bounds the outermost is picked, in whatever grouping; of bounds at one place, the
first. -/
private theorem outermost_assoc {α : Type} (beyond : α → α → Prop) [DecidableRel beyond]
    {x y z : α} (htrans : beyond z y → beyond y x → beyond z x)
    (hsplit : beyond z x → beyond z y ∨ beyond y x) :
    (if beyond z (if beyond y x then y else x) then z else if beyond y x then y else x) =
      if beyond (if beyond z y then z else y) x then if beyond z y then z else y else x := by
  by_cases hyx : beyond y x
  · by_cases hzy : beyond z y
    · simp [hyx, hzy, htrans hzy hyx]
    · simp [hyx, hzy]
  · by_cases hzy : beyond z y
    · simp [hyx, hzy]
    · have hzx : ¬ beyond z x := fun h => (hsplit h).elim hzy hyx
      simp [hyx, hzy, hzx]

theorem hull_assoc (r s t : Range Int) : (r.hull s).hull t = r.hull (s.hull t) := by
  simp only [hull, mk.injEq]
  constructor
  · exact outermost_assoc (· < ·) (by omega) (by omega)
  · exact outermost_assoc (fun x y => y < x) (by omega) (by omega)

theorem hull_assoc_of_isNumeric {r s t : Range Binary64} (hs : s.isNumeric = true) :
    (r.hull s).hull t = r.hull (s.hull t) := by
  obtain ⟨hlo, hhi⟩ := isNumeric_iff.mp hs
  simp only [hull, mk.injEq]
  constructor
  · exact outermost_assoc (· < ·) Binary64.lt_trans (Binary64.lt_or_lt_of_lt hlo)
  · refine outermost_assoc (fun x y => y < x) (fun hts hsr => ?_) fun htr => ?_
    · exact Binary64.lt_trans hsr hts
    · exact (Binary64.lt_or_lt_of_lt hhi htr).symm

theorem toBinary64_hull (r s : Range Int) :
    (r.hull s).toBinary64 = r.toBinary64.hull s.toBinary64 := by
  -- Where rounding joins two integers, either of them gives the same bound.
  have hjoined {m n : Int} (h : m < n) (hnot : ¬ Binary64.ofInt m < Binary64.ofInt n) :
      Binary64.ofInt m = Binary64.ofInt n :=
    Binary64.ofInt_eq_of_le_of_le (Binary64.ofInt_mono h.le) (Binary64.le_of_not_lt rfl rfl hnot)
  have hkept {m n : Int} (h : ¬ m < n) : ¬ Binary64.ofInt m < Binary64.ofInt n :=
    Binary64.not_lt_of_le (Binary64.ofInt_mono (not_lt.mp h))
  have hlo : Binary64.ofInt (if s.lo < r.lo then s.lo else r.lo) =
      if Binary64.ofInt s.lo < Binary64.ofInt r.lo then .ofInt s.lo else .ofInt r.lo := by
    split_ifs with h hlt hlt
    · rfl
    · exact hjoined h hlt
    · exact absurd hlt (hkept h)
    · rfl
  have hhi : Binary64.ofInt (if r.hi < s.hi then s.hi else r.hi) =
      if Binary64.ofInt r.hi < Binary64.ofInt s.hi then .ofInt s.hi else .ofInt r.hi := by
    split_ifs with h hlt hlt
    · rfl
    · exact (hjoined h hlt).symm
    · exact absurd hlt (hkept h)
    · rfl
  exact congrArg₂ Range.mk hlo hhi

theorem toBinary64_within {r s : Range Int} (h : r.within s = true) :
    r.toBinary64.within s.toBinary64 = true := by
  obtain ⟨hlo, hhi⟩ := within_iff.mp h
  exact within_iff.mpr ⟨Binary64.ofInt_mono hlo, Binary64.ofInt_mono hhi⟩

theorem hull_toBinary64_within {r s : Range Int} {t : Range Binary64}
    (hr : r.toBinary64.within t = true) (hs : s.toBinary64.within t = true) :
    (r.hull s).toBinary64.within t = true := by
  have hbounds := bounds_hull (p := (t.lo ≤ Binary64.ofInt ·)) (q := (Binary64.ofInt · ≤ t.hi))
    (within_iff.mp hr) (within_iff.mp hs)
  exact within_iff.mpr hbounds

section Ordered

/-- The bounds of a range are in order. -/
def isOrdered [LE α] [DecidableLE α] (r : Range α) : Bool := r.lo ≤ r.hi

theorem isOrdered_iff [LE α] [DecidableLE α] {r : Range α} :
    r.isOrdered = true ↔ r.lo ≤ r.hi := by
  simp [isOrdered]

theorem isOrdered_point (n : Int) : (point n).isOrdered = true :=
  isOrdered_iff.mpr le_rfl

theorem isOrdered_point_of_isNumber {x : Binary64} (h : x.isNumber = true) :
    (point x).isOrdered = true :=
  isOrdered_iff.mpr (Binary64.le_refl_of_isNumber h)

theorem isOrdered_hull {r : Range Int} (h : r.isOrdered = true) (s : Range Int) :
    (r.hull s).isOrdered = true := by
  obtain ⟨hlo, hhi⟩ := within_iff.mp (within_hull r s).1
  exact isOrdered_iff.mpr ((hlo.trans (isOrdered_iff.mp h)).trans hhi)

/-- A range of doubles whose bounds are in order has no NaN. -/
theorem isNumeric_of_isOrdered {r : Range Binary64} (h : r.isOrdered = true) :
    r.isNumeric = true := by
  obtain ⟨a, b, ha, hb, -⟩ := Binary64.le_iff.mp (isOrdered_iff.mp h)
  exact isNumeric_iff.mpr ⟨Binary64.isNumber_iff.mpr ⟨a, ha⟩, Binary64.isNumber_iff.mpr ⟨b, hb⟩⟩

theorem binary64_isOrdered_hull {r s : Range Binary64} (hr : r.isOrdered = true)
    (hs : s.isNumeric = true) : (r.hull s).isOrdered = true := by
  obtain ⟨hlo, hhi⟩ := within_iff.mp (within_hull_of_isNumeric (isNumeric_of_isOrdered hr) hs).1
  exact isOrdered_iff.mpr (Binary64.le_trans (Binary64.le_trans hlo (isOrdered_iff.mp hr)) hhi)

theorem isOrdered_toBinary64 {r : Range Int} (h : r.isOrdered = true) :
    r.toBinary64.isOrdered = true :=
  isOrdered_iff.mpr (Binary64.ofInt_mono (isOrdered_iff.mp h))

end Ordered

section Spans

/-- A range goes from the least of some numbers to the greatest, and its bounds are among them. -/
structure Spans [LE α] (r : Range α) (xs : List α) : Prop where
  lo_mem : r.lo ∈ xs
  hi_mem : r.hi ∈ xs
  lo_le : ∀ x ∈ xs, r.lo ≤ x
  le_hi : ∀ x ∈ xs, x ≤ r.hi

theorem Spans.ne_nil [LE α] {r : Range α} {xs : List α} (h : r.Spans xs) : xs ≠ [] :=
  List.ne_nil_of_mem h.lo_mem

theorem spans_point [LE α] {x : α} (h : x ≤ x) : (point x).Spans [x] where
  lo_mem := List.mem_singleton_self x
  hi_mem := List.mem_singleton_self x
  lo_le := List.forall_mem_singleton.mpr h
  le_hi := List.forall_mem_singleton.mpr h

/-- A hull around two ranges spans the numbers that they span. -/
private theorem spans_hull_of_within [LE α] [DecidableLE α] [LT α] [DecidableLT α]
    (htrans : ∀ {x y z : α}, x ≤ y → y ≤ z → x ≤ z) {r s : Range α} {xs ys : List α}
    (hr : r.Spans xs) (hs : s.Spans ys)
    (h : r.within (r.hull s) = true ∧ s.within (r.hull s) = true) :
    (r.hull s).Spans (xs ++ ys) := by
  obtain ⟨hleft, hright⟩ := h
  rw [within_iff] at hleft hright
  obtain ⟨hlo, hhi⟩ := bounds_hull (p := (· ∈ xs ++ ys)) (q := (· ∈ xs ++ ys))
    ⟨List.mem_append_left ys hr.lo_mem, List.mem_append_left ys hr.hi_mem⟩
    ⟨List.mem_append_right xs hs.lo_mem, List.mem_append_right xs hs.hi_mem⟩
  refine ⟨hlo, hhi, List.forall_mem_append.mpr ⟨?_, ?_⟩, List.forall_mem_append.mpr ⟨?_, ?_⟩⟩
  · exact fun x hx => htrans hleft.1 (hr.lo_le x hx)
  · exact fun y hy => htrans hright.1 (hs.lo_le y hy)
  · exact fun x hx => htrans (hr.le_hi x hx) hleft.2
  · exact fun y hy => htrans (hs.le_hi y hy) hright.2

theorem Spans.hull {r s : Range Int} {ms ns : List Int} (hr : r.Spans ms) (hs : s.Spans ns) :
    (r.hull s).Spans (ms ++ ns) :=
  spans_hull_of_within Int.le_trans hr hs (within_hull r s)

/-- The least and the greatest of some doubles, being at or below themselves, are not NaN. -/
theorem Spans.isNumeric {r : Range Binary64} {xs : List Binary64} (h : r.Spans xs) :
    r.isNumeric = true := by
  have hlo : (point r.lo).isOrdered = true := isOrdered_iff.mpr (h.lo_le _ h.lo_mem)
  have hhi : (point r.hi).isOrdered = true := isOrdered_iff.mpr (h.le_hi _ h.hi_mem)
  exact isNumeric_iff.mpr ⟨(isNumeric_iff.mp (isNumeric_of_isOrdered hlo)).1,
    (isNumeric_iff.mp (isNumeric_of_isOrdered hhi)).1⟩

theorem Spans.binary64_hull {r s : Range Binary64} {xs ys : List Binary64} (hr : r.Spans xs)
    (hs : s.Spans ys) : (r.hull s).Spans (xs ++ ys) :=
  spans_hull_of_within Binary64.le_trans hr hs
    (within_hull_of_isNumeric hr.isNumeric hs.isNumeric)

theorem Spans.toBinary64 {r : Range Int} {ns : List Int} (h : r.Spans ns) :
    r.toBinary64.Spans (ns.map .ofInt) where
  lo_mem := List.mem_map_of_mem h.lo_mem
  hi_mem := List.mem_map_of_mem h.hi_mem
  lo_le := List.forall_mem_map.mpr fun n hn => Binary64.ofInt_mono (h.lo_le n hn)
  le_hi := List.forall_mem_map.mpr fun n hn => Binary64.ofInt_mono (h.le_hi n hn)

end Spans

end JsonShape.Range
