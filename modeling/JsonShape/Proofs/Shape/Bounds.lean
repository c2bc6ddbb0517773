import JsonShape.Inference
import JsonShape.Proofs.Shape.Join

/-!
The bounds in a shape. In a consistent shape every range goes from a lower bound to an upper one,
integers have 64 bits and lengths no sign, and the shape keeps to the rules of shapes as well.
Merges and marks keep shapes consistent.
-/

set_option autoImplicit false

namespace JsonShape.Shape

open Value (fitsInt64)

/-- The bounds of a node are in order. Those of integers have 64 bits, and lengths have no sign. -/
def isBoundedNode : Shape → Bool
  | int r => r.isOrdered && fitsInt64 r.lo && fitsInt64 r.hi
  | float r => r.isOrdered
  | text r | list r _ => r.isOrdered && 0 ≤ r.lo
  | _ => true

/-- The bounds of every node are in order and within their limits. -/
def isBounded (s : Shape) : Bool := s.everywhere isBoundedNode

/-- A shape that keeps to the rules of shapes and of bounds. -/
structure Consistent (s : Shape) : Prop where
  tidy : s.isTidy = true
  bounded : s.isBounded = true

section Bounded

@[simp] theorem isBounded_unknown : unknown.isBounded = true := rfl
@[simp] theorem isBounded_any : any.isBounded = true := rfl
@[simp] theorem isBounded_bool : bool.isBounded = true := rfl

theorem isBounded_int_iff {r : Range Int} :
    (int r).isBounded = true ↔
      r.isOrdered = true ∧ fitsInt64 r.lo = true ∧ fitsInt64 r.hi = true := by
  change (r.isOrdered && fitsInt64 r.lo && fitsInt64 r.hi) = true ↔ _
  rw [Bool.and_eq_true, Bool.and_eq_true, and_assoc]

@[simp] theorem isBounded_float (r : Range Binary64) : (float r).isBounded = r.isOrdered := rfl

theorem isBounded_text_iff {r : Range Int} :
    (text r).isBounded = true ↔ r.isOrdered = true ∧ 0 ≤ r.lo := by
  change (r.isOrdered && decide (0 ≤ r.lo)) = true ↔ _
  rw [Bool.and_eq_true, decide_eq_true_eq]

theorem isBounded_list_iff {r : Range Int} {item : Shape} :
    (list r item).isBounded = true ↔
      (r.isOrdered = true ∧ 0 ≤ r.lo) ∧ item.isBounded = true := by
  change (r.isOrdered && decide (0 ≤ r.lo) && item.isBounded) = true ↔ _
  rw [Bool.and_eq_true, Bool.and_eq_true, decide_eq_true_eq]

theorem isBounded_record_iff {fields : List Field} :
    (record fields).isBounded = true ↔ ∀ f ∈ fields, f.2.isBounded = true :=
  everywhereFields_iff

@[simp] theorem isBounded_optional (child : Shape) :
    (optional child).isBounded = child.isBounded := rfl

theorem isBounded_makeOptional (s : Shape) : s.makeOptional.isBounded = s.isBounded := by
  cases s <;> rfl

end Bounded

private theorem lengths_hull {r s : Range Int} (hr : r.isOrdered = true ∧ 0 ≤ r.lo)
    (hs : s.isOrdered = true ∧ 0 ≤ s.lo) : (r.hull s).isOrdered = true ∧ 0 ≤ (r.hull s).lo :=
  ⟨Range.isOrdered_hull hr.1 s,
    (Range.bounds_hull (p := (0 ≤ ·)) (q := fun _ => True) ⟨hr.2, trivial⟩ ⟨hs.2, trivial⟩).1⟩

theorem isBounded_merge {a b : Shape} (ha : a.Consistent) (hb : b.Consistent) :
    (a.merge b).isBounded = true := by
  obtain ⟨hat, ha⟩ := ha
  obtain ⟨hbt, hb⟩ := hb
  induction a, b using mergeInduction with
  | unknownLeft b => simpa using hb
  | unknownRight a => simpa using ha
  | marked a b ih =>
    rw [isTidy_optional_iff] at hat hbt
    simpa using ih hat.2 ha hbt.2 hb
  | markedLeft a b hkind ih =>
    rw [isTidy_optional_iff] at hat
    simpa [merge_optional_left hkind] using ih hat.2 ha hbt hb
  | markedRight a b hkind ih =>
    rw [isTidy_optional_iff] at hbt
    simpa [merge_optional_right hkind] using ih hat ha hbt.2 hb
  | ints r s =>
    obtain ⟨hr, hrfits⟩ := isBounded_int_iff.mp ha
    obtain ⟨-, hsfits⟩ := isBounded_int_iff.mp hb
    refine isBounded_int_iff.mpr ⟨Range.isOrdered_hull hr s, ?_⟩
    exact Range.bounds_hull (p := (fitsInt64 · = true)) (q := (fitsInt64 · = true)) hrfits hsfits
  | intFloat r s =>
    have hr := Range.isOrdered_toBinary64 (isBounded_int_iff.mp ha).1
    exact Range.binary64_isOrdered_hull hr (Range.isNumeric_of_isOrdered hb)
  | floatInt r s => exact Range.binary64_isOrdered_hull ha (Range.isNumeric_toBinary64 s)
  | floats r s => exact Range.binary64_isOrdered_hull ha (Range.isNumeric_of_isOrdered hb)
  | texts r s =>
    exact isBounded_text_iff.mpr
      (lengths_hull (isBounded_text_iff.mp ha) (isBounded_text_iff.mp hb))
  | lists r s a b ih =>
    obtain ⟨hr, ha⟩ := isBounded_list_iff.mp ha
    obtain ⟨hs, hb⟩ := isBounded_list_iff.mp hb
    exact isBounded_list_iff.mpr ⟨lengths_hull hr hs, ih hat ha hbt hb⟩
  | records fields others ih =>
    obtain ⟨hfields, hat⟩ := isTidy_record_iff.mp hat
    obtain ⟨hothers, hbt⟩ := isTidy_record_iff.mp hbt
    rw [isBounded_record_iff] at ha hb
    rw [merge_record_record, isBounded_record_iff]
    intro h hh
    rcases (mem_mergedFields hfields hothers).mp hh with
      ⟨f, hf, g, hg, -, rfl⟩ | ⟨f, hf, -, rfl⟩ | ⟨g, hg, -, rfl⟩
    · exact ih f hf g hg (hat f hf) (ha f hf) (hbt g hg) (hb g hg)
    · exact (isBounded_makeOptional f.2).trans (ha f hf)
    · exact (isBounded_makeOptional g.2).trans (hb g hg)
  | foreigns x y => simp at hat
  | conflict a b k l hk hl hne => simp [merge_conflict hk hl hne]
  | _ => simp

theorem Consistent.merge {a b : Shape} (ha : a.Consistent) (hb : b.Consistent) :
    (a.merge b).Consistent :=
  ⟨isTidy_merge ha.tidy hb.tidy, isBounded_merge ha hb⟩

theorem Consistent.makeOptional {s : Shape} (h : s.Consistent) : s.makeOptional.Consistent :=
  ⟨isTidy_makeOptional h.tidy, (isBounded_makeOptional s).trans h.bounded⟩

theorem consistent_unknown : unknown.Consistent := ⟨rfl, rfl⟩

theorem Consistent.around {shapes : List Shape} (h : ∀ s ∈ shapes, s.Consistent) :
    (around shapes).Consistent :=
  around_of_merge consistent_unknown Consistent.merge h

end JsonShape.Shape
