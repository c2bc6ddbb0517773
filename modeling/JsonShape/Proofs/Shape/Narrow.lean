import JsonShape.Inference
import JsonShape.Proofs.Binary64.Exact
import JsonShape.Proofs.Shape.Join
import JsonShape.Proofs.Shape.Progress

/-!
Shapes whose integers have 64 bits, as all have that inference makes. Such integers are rounded to
finite doubles, so that no merge is given up because an integer is too large to widen, and merges
make no other integers.
-/

set_option autoImplicit false

namespace JsonShape

open Value (fitsInt64)

theorem Binary64.holdsInt_of_natAbs_le {n : ℤ} (h : n.natAbs ≤ 2 ^ 63) : holdsInt n = true := by
  refine decide_eq_true ?_
  rcases Nat.eq_zero_or_pos n.natAbs with hzero | hpos
  · rw [hzero]
    decide
  · exact (magnitude_codeOfRatio_one hpos.ne' h).1

namespace Shape

theorem natAbs_le_of_fitsInt64 {n : ℤ} (h : fitsInt64 n = true) : n.natAbs ≤ 2 ^ 63 := by
  simp only [fitsInt64, Bool.and_eq_true, decide_eq_true_eq] at h
  omega

/-- An integer node has bounds of 64 bits. -/
def isNarrowNode : Shape → Bool
  | int r => fitsInt64 r.lo && fitsInt64 r.hi
  | _ => true

/-- All integer bounds in a shape have 64 bits. -/
def isNarrow (s : Shape) : Bool := s.everywhere isNarrowNode

theorem isNarrow_int_iff {r : Range ℤ} :
    (int r).isNarrow = true ↔ fitsInt64 r.lo = true ∧ fitsInt64 r.hi = true :=
  Bool.and_eq_true_iff

theorem isNarrow_record_iff {fields : List Field} :
    (record fields).isNarrow = true ↔ ∀ f ∈ fields, f.2.isNarrow = true :=
  everywhereFields_iff

theorem isNarrow_makeOptional (s : Shape) : s.makeOptional.isNarrow = s.isNarrow := by
  cases s <;> rfl

theorem isNarrow_merge {a b : Shape} (ha : a.isNarrow = true) (hb : b.isNarrow = true) :
    (a.merge b).isNarrow = true := by
  induction a, b using mergeInduction with
  | unknownLeft b => rwa [merge_unknown_left]
  | unknownRight a => rwa [merge_unknown_right]
  | anyRight a => rw [merge_any_right]; rfl
  | marked a b ih => exact ih ha hb
  | markedLeft a b hkind ih =>
    rw [merge_optional_left hkind]
    exact ih ha hb
  | markedRight a b hkind ih =>
    rw [merge_optional_right hkind]
    exact ih ha hb
  | ints r s =>
    exact isNarrow_int_iff.mpr (Range.bounds_hull (p := (fitsInt64 · = true))
      (q := (fitsInt64 · = true)) (isNarrow_int_iff.mp ha) (isNarrow_int_iff.mp hb))
  | lists r s a b ih => exact ih ha hb
  | records fields others ih =>
    rw [isNarrow_record_iff] at ha hb
    rw [merge_record_record, isNarrow_record_iff]
    exact forall_mem_mergedFields (p := (isNarrow · = true))
      (fun f hf g hg => ih f hf g hg (ha f hf) (hb g hg))
      (fun f hf => (isNarrow_makeOptional f.2).trans (ha f hf))
      fun g hg => (isNarrow_makeOptional g.2).trans (hb g hg)
  | foreigns x y => rw [merge_foreign_foreign]; split <;> rfl
  | conflict a b k l hk hl hne => rw [merge_conflict hk hl hne]; rfl
  | _ => rfl

end Shape

namespace Progress

open Shape

theorem ofWidening_of_isNarrow {r : Range ℤ} (h : (int r).isNarrow = true) :
    ofWidening r = done := by
  obtain ⟨hlo, hhi⟩ := isNarrow_int_iff.mp h
  have hfits : r.fitsBinary64 = true := Bool.and_eq_true_iff.mpr
    ⟨Binary64.holdsInt_of_natAbs_le (natAbs_le_of_fitsInt64 hlo),
      Binary64.holdsInt_of_natAbs_le (natAbs_le_of_fitsInt64 hhi)⟩
  rw [ofWidening, if_pos hfits]

/-- The merges of fields have no fault that none of their pairs has. -/
theorem fault_ofFields_ne {room : ℕ} {fault : MergeFault} {fields : List Field}
    {shared : List SharedField} (h : ∀ f ∈ fields, ∀ s ∈ shared,
      (ofMerge room f.2 s.shape).fault ≠ some fault) :
    (ofFields room fields shared).fault ≠ some fault := by
  induction fields generalizing shared with
  | nil => simp [ofFields, done]
  | cons f rest ih =>
    obtain ⟨hfirst, hrest⟩ := List.forall_mem_cons.mp h
    simp only [ofFields]
    split
    · exact ih hrest
    · next s hs =>
      have hpair := hfirst s (List.mem_of_find?_eq_some hs)
      rw [fault_andThen, Ne, Option.or_eq_some_iff]
      rintro (hfault | ⟨-, hfault⟩)
      · exact hpair hfault
      · exact ih (fun g hg t ht => hrest g hg t (List.mem_filter.mp ht).1) hfault

/-- No merge of shapes with integers of 64 bits is given up because one is too large to widen. -/
theorem fault_ofMerge_ne_overflow (room : ℕ) {a b : Shape} (ha : a.isNarrow = true)
    (hb : b.isNarrow = true) : (ofMerge room a b).fault ≠ some .overflow := by
  induction room, a, b using roomInduction with
  | noRoom a b => rw [ofMerge_zero]; simp [noRoom]
  | unknownRight room a => rw [ofMerge_unknown_right]; simp [step, done]
  | anyRight room a => rw [ofMerge_any_right]; simp [step, done]
  | marked room a b ih =>
    rw [ofMerge_optional_optional]
    exact ih ha hb
  | markedLeft room a b hkind ih =>
    rw [ofMerge_optional_left room hkind]
    exact ih ha hb
  | markedRight room a b hkind ih =>
    rw [ofMerge_optional_right room hkind]
    exact ih ha hb
  | intFloat room r s => simp [ofMerge_int_float, step, done, ofWidening_of_isNarrow ha]
  | floatInt room r s => simp [ofMerge_float_int, step, done, ofWidening_of_isNarrow hb]
  | lists room r s a b ih =>
    rw [ofMerge_list_list]
    exact ih ha hb
  | records room fields others ih =>
    rw [isNarrow_record_iff] at ha hb
    rw [ofMerge_record_record]
    refine fault_ofFields_ne fun f hf s hs => ?_
    have hmem := CutFields.toField_mem_of_mem_shared hs
    exact ih f hf _ hmem (ha f hf) (hb _ hmem)
  | foreigns room x y =>
    rw [ofMerge_foreign_foreign]
    split <;> simp [step, done]
  | conflict room a b k l hk hl hne => rw [ofMerge_conflict room hk hl hne]; simp [step, done]
  | _ => simp [ofMerge, underOptional, step, done]

end Progress

end JsonShape
