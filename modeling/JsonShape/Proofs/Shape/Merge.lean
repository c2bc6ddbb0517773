import JsonShape.Proofs.Shape.Fields

/-!
What the merge of two shapes does, case by case, and the induction that follows these cases. Every
law of the merge is proved along `mergeInduction`: unknown and any shapes, then optional marks, then
two shapes of one kind, and last a conflict of two kinds.
-/

set_option autoImplicit false

namespace JsonShape.Shape

/-- The kinds of values that exclude each other at one place. -/
inductive Kind
  | bool | number | text | list | record | foreign
  deriving DecidableEq

/-- The kind of the values that a shape describes, if it has seen one kind and bears no mark. -/
def kind? : Shape → Option Kind
  | bool => some .bool
  | int _ | float _ => some .number
  | text _ => some .text
  | list _ _ => some .list
  | record _ => some .record
  | foreign _ => some .foreign
  | unknown | any | optional _ => none

@[simp] theorem merge_unknown_left (b : Shape) : unknown.merge b = b := rfl

@[simp] theorem merge_unknown_right (a : Shape) : a.merge unknown = a := by
  cases a <;> rfl

@[simp] theorem merge_any_left (b : Shape) : any.merge b = any := rfl

@[simp] theorem merge_any_right (a : Shape) : a.merge any = any := by
  cases a <;> rfl

@[simp] theorem merge_optional_optional (a b : Shape) :
    (optional a).merge (optional b) = optional (a.merge b) := rfl

theorem merge_optional_left {a b : Shape} (hb : b.kind?.isSome = true) :
    (optional a).merge b = optional (a.merge b) := by
  cases b with
  | unknown | any | optional _ => simp [kind?] at hb
  | _ => rfl

theorem merge_optional_right {a b : Shape} (ha : a.kind?.isSome = true) :
    a.merge (optional b) = optional (a.merge b) := by
  cases a with
  | unknown | any | optional _ => simp [kind?] at ha
  | _ => rfl

theorem merge_conflict {a b : Shape} {k l : Kind} (ha : a.kind? = some k) (hb : b.kind? = some l)
    (h : k ≠ l) : a.merge b = any := by
  cases a <;> cases b <;> first | rfl | simp_all [kind?]

@[simp] theorem merge_bool_bool : bool.merge bool = bool := rfl

@[simp] theorem merge_int_int (r s : Range Int) : (int r).merge (int s) = int (r.hull s) := rfl

@[simp] theorem merge_int_float (r : Range Int) (s : Range Binary64) :
    (int r).merge (float s) = float (r.toBinary64.hull s) := rfl

@[simp] theorem merge_float_int (r : Range Binary64) (s : Range Int) :
    (float r).merge (int s) = float (r.hull s.toBinary64) := rfl

@[simp] theorem merge_float_float (r s : Range Binary64) :
    (float r).merge (float s) = float (r.hull s) := rfl

@[simp] theorem merge_text_text (r s : Range Int) :
    (text r).merge (text s) = text (r.hull s) := rfl

@[simp] theorem merge_list_list (r s : Range Int) (a b : Shape) :
    (list r a).merge (list s b) = list (r.hull s) (a.merge b) := rfl

@[simp] theorem merge_record_record (fields others : List Field) :
    (record fields).merge (record others) = record (mergedFields fields others) := rfl

theorem merge_foreign_foreign (x y : Foreign) :
    (foreign x).merge (foreign y) = if x.sameKind y then foreign x else any := rfl

/-- Induction along the merge of two shapes. The marks come off first, and shapes of one kind meet
below them. -/
theorem mergeInduction {motive : Shape → Shape → Prop}
    (unknownLeft : ∀ b, motive unknown b) (unknownRight : ∀ a, motive a unknown)
    (anyLeft : ∀ b, motive any b) (anyRight : ∀ a, motive a any)
    (marked : ∀ a b, motive a b → motive (optional a) (optional b))
    (markedLeft : ∀ a b, b.kind?.isSome = true → motive a b → motive (optional a) b)
    (markedRight : ∀ a b, a.kind?.isSome = true → motive a b → motive a (optional b))
    (bools : motive bool bool) (ints : ∀ r s, motive (int r) (int s))
    (intFloat : ∀ r s, motive (int r) (float s)) (floatInt : ∀ r s, motive (float r) (int s))
    (floats : ∀ r s, motive (float r) (float s)) (texts : ∀ r s, motive (text r) (text s))
    (lists : ∀ r s a b, motive a b → motive (list r a) (list s b))
    (records : ∀ fields others, (∀ f ∈ fields, ∀ g ∈ others, motive f.2 g.2) →
      motive (record fields) (record others))
    (foreigns : ∀ x y, motive (foreign x) (foreign y))
    (conflict : ∀ a b k l, a.kind? = some k → b.kind? = some l → k ≠ l → motive a b)
    (a b : Shape) : motive a b := by
  -- A shape of some kind meets the marks of the other shape one by one, then its core.
  have ofKind (a : Shape) (k : Kind) (ha : a.kind? = some k)
      (same : ∀ b, b.kind? = some k → motive a b) (b : Shape) : motive a b := by
    have kinds (b : Shape) (l : Kind) (hb : b.kind? = some l) : motive a b := by
      by_cases hk : k = l
      · exact same b (hk ▸ hb)
      · exact conflict a b k l ha hb hk
    induction b using nodeInduction with
    | unknown => exact unknownRight a
    | any => exact anyRight a
    | optional b ih => exact markedRight a b (by simp [ha]) ih
    | _ => exact kinds _ _ rfl
  induction a using nodeInduction generalizing b with
  | unknown => exact unknownLeft b
  | any => exact anyLeft b
  | optional a ih =>
    cases b with
    | unknown => exact unknownRight _
    | any => exact anyRight _
    | optional b => exact marked a b (ih b)
    | _ => exact markedLeft a _ rfl (ih _)
  | bool =>
    refine ofKind _ .bool rfl (fun b hb => ?_) b
    cases b <;> simp [kind?] at hb
    exact bools
  | int r =>
    refine ofKind _ .number rfl (fun b hb => ?_) b
    cases b <;> simp [kind?] at hb
    · exact ints r _
    · exact intFloat r _
  | float r =>
    refine ofKind _ .number rfl (fun b hb => ?_) b
    cases b <;> simp [kind?] at hb
    · exact floatInt r _
    · exact floats r _
  | text r =>
    refine ofKind _ .text rfl (fun b hb => ?_) b
    cases b <;> simp [kind?] at hb
    exact texts r _
  | list r a ih =>
    refine ofKind _ .list rfl (fun b hb => ?_) b
    cases b <;> simp [kind?] at hb
    exact lists r _ a _ (ih _)
  | record fields ih =>
    refine ofKind _ .record rfl (fun b hb => ?_) b
    cases b <;> simp [kind?] at hb
    exact records fields _ fun f hf g _ => ih f hf g.2
  | foreign x =>
    refine ofKind _ .foreign rfl (fun b hb => ?_) b
    cases b <;> simp [kind?] at hb
    exact foreigns x _

theorem isOptional_eq_false_of_kind {s : Shape} (h : s.kind?.isSome = true) :
    s.isOptional = false := by
  cases s <;> simp_all [kind?, isOptional]

theorem isOptional_merge {a b : Shape} (ha : a.isOptional = false) (hb : b.isOptional = false) :
    (a.merge b).isOptional = false := by
  induction a, b using mergeInduction with
  | unknownLeft b => simpa using hb
  | unknownRight a => simpa using ha
  | marked a b _ => simp [isOptional] at ha
  | markedLeft a b _ _ => simp [isOptional] at ha
  | markedRight a b _ _ => simp [isOptional] at hb
  | foreigns x y =>
    rw [merge_foreign_foreign]
    split_ifs <;> rfl
  | conflict a b k l hk hl hne => simp [merge_conflict hk hl hne, isOptional]
  | _ => simp [isOptional]

theorem isFlat_merge {a b : Shape} (ha : a.isFlat = true) (hb : b.isFlat = true) :
    (a.merge b).isFlat = true := by
  induction a, b using mergeInduction with
  | unknownLeft b => simpa using hb
  | unknownRight a => simpa using ha
  | marked a b ih =>
    rw [isFlat_optional_iff] at ha hb
    simp [isOptional_merge ha.1 hb.1, ih ha.2 hb.2]
  | markedLeft a b hkind ih =>
    rw [isFlat_optional_iff] at ha
    rw [merge_optional_left hkind]
    simp [isOptional_merge ha.1 (isOptional_eq_false_of_kind hkind), ih ha.2 hb]
  | markedRight a b hkind ih =>
    rw [isFlat_optional_iff] at hb
    rw [merge_optional_right hkind]
    simp [isOptional_merge (isOptional_eq_false_of_kind hkind) hb.1, ih ha hb.2]
  | lists r s a b ih => exact ih ha hb
  | records fields others ih =>
    rw [isFlat_record_iff] at ha hb
    rw [merge_record_record, isFlat_record_iff]
    exact forall_mem_mergedFields (p := (isFlat · = true))
      (fun f hf g hg => ih f hf g hg (ha f hf) (hb g hg))
      (fun f hf => isFlat_makeOptional (ha f hf)) fun g hg => isFlat_makeOptional (hb g hg)
  | foreigns x y => simp at ha
  | conflict a b k l hk hl hne => rw [merge_conflict hk hl hne]; rfl
  | anyRight a => rw [merge_any_right]; rfl
  | _ => rfl

theorem isTidy_merge {a b : Shape} (ha : a.isTidy = true) (hb : b.isTidy = true) :
    (a.merge b).isTidy = true := by
  induction a, b using mergeInduction with
  | unknownLeft b => simpa using hb
  | unknownRight a => simpa using ha
  | marked a b ih =>
    rw [isTidy_optional_iff] at ha hb
    simp [isOptional_merge ha.1 hb.1, ih ha.2 hb.2]
  | markedLeft a b hkind ih =>
    rw [isTidy_optional_iff] at ha
    rw [merge_optional_left hkind]
    simp [isOptional_merge ha.1 (isOptional_eq_false_of_kind hkind), ih ha.2 hb]
  | markedRight a b hkind ih =>
    rw [isTidy_optional_iff] at hb
    rw [merge_optional_right hkind]
    simp [isOptional_merge (isOptional_eq_false_of_kind hkind) hb.1, ih ha hb.2]
  | lists r s a b ih => simpa using ih (by simpa using ha) (by simpa using hb)
  | records fields others ih =>
    obtain ⟨hfields, ha⟩ := isTidy_record_iff.mp ha
    obtain ⟨hothers, hb⟩ := isTidy_record_iff.mp hb
    rw [merge_record_record]
    refine isTidy_record_iff.mpr ⟨nodup_mergedFields hfields hothers, fun h hh => ?_⟩
    rcases (mem_mergedFields hfields hothers).mp hh with
      ⟨f, hf, g, hg, -, rfl⟩ | ⟨f, hf, -, rfl⟩ | ⟨g, hg, -, rfl⟩
    · exact ih f hf g hg (ha f hf) (hb g hg)
    · exact isTidy_makeOptional (ha f hf)
    · exact isTidy_makeOptional (hb g hg)
  | foreigns x y => simp at ha
  | conflict a b k l hk hl hne => simp [merge_conflict hk hl hne]
  | _ => simp

theorem WellFormed.merge {a b : Shape} (ha : a.WellFormed) (hb : b.WellFormed) :
    (a.merge b).WellFormed := by
  refine ⟨isTidy_merge ha.tidy hb.tidy, ?_⟩
  induction a, b using mergeInduction with
  | unknownLeft b => simpa using hb.numeric
  | unknownRight a => simpa using ha.numeric
  | marked a b ih =>
    simpa using ih (wellFormed_optional_iff.mp ha).2 (wellFormed_optional_iff.mp hb).2
  | markedLeft a b hkind ih =>
    simpa [merge_optional_left hkind] using ih (wellFormed_optional_iff.mp ha).2 hb
  | markedRight a b hkind ih =>
    simpa [merge_optional_right hkind] using ih ha (wellFormed_optional_iff.mp hb).2
  | intFloat r s => simpa using Range.isNumeric_hull (Range.isNumeric_toBinary64 r) hb.numeric
  | floatInt r s => simpa using Range.isNumeric_hull ha.numeric (Range.isNumeric_toBinary64 s)
  | floats r s => simpa using Range.isNumeric_hull ha.numeric hb.numeric
  | lists r s a b ih => simpa using ih (wellFormed_list_iff.mp ha) (wellFormed_list_iff.mp hb)
  | records fields others ih =>
    obtain ⟨hfields, ha⟩ := wellFormed_record_iff.mp ha
    obtain ⟨hothers, hb⟩ := wellFormed_record_iff.mp hb
    rw [merge_record_record]
    apply isNumeric_record_iff.mpr
    intro h hh
    rcases (mem_mergedFields hfields hothers).mp hh with
      ⟨f, hf, g, hg, -, rfl⟩ | ⟨f, hf, -, rfl⟩ | ⟨g, hg, -, rfl⟩
    · exact ih f hf g hg (ha f hf) (hb g hg)
    · exact (ha f hf).makeOptional.numeric
    · exact (hb g hg).makeOptional.numeric
  | foreigns x y => exact absurd ha (not_wellFormed_foreign x)
  | conflict a b k l hk hl hne => simp [merge_conflict hk hl hne]
  | _ => simp

end JsonShape.Shape
