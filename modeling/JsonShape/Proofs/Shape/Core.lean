import JsonShape.Proofs.Shape.Marks
import JsonShape.Proofs.Shape.Presentation

/-!
Shapes by what is below their marks. The merge of two shapes merges what is below their marks and
is marked if one of them is, unless an any shape absorbs the mark. So two shapes are alike just when
they are below their marks, and marked alike unless nothing but an any shape is there.
-/

set_option autoImplicit false

namespace JsonShape.Shape

theorem core_of_not_isOptional {s : Shape} (h : s.isOptional = false) : s.core = s := by
  cases s with
  | optional _ => simp [isOptional] at h
  | _ => rfl

theorem core_makeOptional (s : Shape) : s.makeOptional.core = s.core := by
  cases s <;> rfl

theorem core_optional {s : Shape} (h : (optional s).isTidy = true) : (optional s).core = s := by
  rw [isTidy_optional_iff] at h
  exact core_of_not_isOptional h.1

theorem isNumeric_core (s : Shape) : s.core.isNumeric = s.isNumeric := by
  induction s using nodeInduction with
  | optional s ih => exact ih
  | _ => rfl

theorem WellFormed.core {s : Shape} (h : s.WellFormed) : s.core.WellFormed :=
  ⟨isTidy_core h.tidy, (isNumeric_core s).trans h.numeric⟩

theorem core_merge (a b : Shape) : (a.merge b).core = a.core.merge b.core := by
  induction a, b using mergeInduction with
  | unknownRight a =>
    rw [merge_unknown_right]
    exact (merge_unknown_right a.core).symm
  | anyRight a =>
    rw [merge_any_right]
    exact (merge_any_right a.core).symm
  | marked a b ih => exact ih
  | markedLeft a b hkind ih =>
    rw [merge_optional_left hkind]
    exact ih
  | markedRight a b hkind ih =>
    rw [merge_optional_right hkind]
    exact ih
  | foreigns x y =>
    rw [merge_foreign_foreign]
    split_ifs with hsame
    · exact (if_pos hsame).symm
    · exact (if_neg hsame).symm
  | conflict a b k l hk hl hne =>
    have ha := isOptional_eq_false_of_kind (s := a) (by simp [hk])
    have hb := isOptional_eq_false_of_kind (s := b) (by simp [hl])
    rw [core_of_not_isOptional ha, core_of_not_isOptional hb, merge_conflict hk hl hne]
    rfl
  | _ => rfl

theorem core_eq_any_or_isOptional_merge (a b : Shape) :
    (a.merge b).core = any ∨ (a.merge b).isOptional = (a.isOptional || b.isOptional) := by
  induction a, b using mergeInduction with
  | unknownRight a => simp [isOptional]
  | anyRight a => simp [core]
  | markedLeft a b hkind _ => exact .inr (by simp [merge_optional_left hkind, isOptional])
  | markedRight a b hkind _ => exact .inr (by simp [merge_optional_right hkind, isOptional])
  | foreigns x y =>
    rw [merge_foreign_foreign]
    split_ifs
    · exact .inr rfl
    · exact .inl rfl
  | conflict a b k l hk hl hne =>
    rw [merge_conflict hk hl hne]
    exact .inl rfl
  | anyLeft b => exact .inl rfl
  | _ => exact .inr rfl

section Alike

variable {same : Binary64 → Binary64 → Prop}

theorem Reordered.isOptional_eq {a b : Shape} (h : a.Reordered same b) :
    a.isOptional = b.isOptional := by
  cases a with
  | float r =>
    obtain ⟨s, rfl, -⟩ := reordered_float_iff.mp h
    rfl
  | list r a =>
    obtain ⟨b, rfl, -⟩ := reordered_list_iff.mp h
    rfl
  | record fields =>
    obtain ⟨others, -, rfl, -⟩ := reordered_record_iff.mp h
    rfl
  | optional a =>
    obtain ⟨b, rfl, -⟩ := reordered_optional_iff.mp h
    rfl
  | _ =>
    obtain rfl := h
    rfl

theorem isOptional_absorbed {s : Shape} (h : s.isOptional = false) :
    s.absorbed.isOptional = false := by
  cases s with
  | optional _ => simp [isOptional] at h
  | _ => simp [absorbed, isOptional]

theorem absorbed_eq_any_iff {s : Shape} (h : s.isOptional = false) :
    s.absorbed = any ↔ s = any := by
  cases s with
  | optional _ => simp [isOptional] at h
  | _ => simp [absorbed]

theorem reordered_markUnlessAny_iff {a b : Shape} :
    a.markUnlessAny.Reordered same b.markUnlessAny ↔ a.Reordered same b := by
  refine ⟨fun h => ?_, Reordered.markUnlessAny⟩
  by_cases ha : a = any
  · subst ha
    by_cases hb : b = any
    · exact hb.symm
    · have hmark := h.isOptional_eq
      rw [markUnlessAny_of_ne_any hb] at hmark
      exact absurd hmark Bool.false_ne_true
  · by_cases hb : b = any
    · subst hb
      have hmark := h.isOptional_eq
      rw [markUnlessAny_of_ne_any ha] at hmark
      exact absurd hmark.symm Bool.false_ne_true
    · rwa [markUnlessAny_of_ne_any ha, markUnlessAny_of_ne_any hb] at h

private theorem eq_any_of_isOptional_markUnlessAny {s : Shape} (hs : s.isOptional = false)
    (h : s.absorbed.markUnlessAny.isOptional = false) : s = any := by
  by_contra hany
  rw [← absorbed_eq_any_iff hs] at hany
  rw [markUnlessAny_of_ne_any hany] at h
  exact Bool.noConfusion h

theorem alike_optional_left_iff {a b : Shape} (ha : a.isOptional = false)
    (hb : b.isOptional = false) : (optional a).Alike same b ↔ a.Alike same b ∧ a = any := by
  constructor
  · intro h
    have hmark := Reordered.isOptional_eq h
    rw [isOptional_absorbed hb] at hmark
    obtain rfl := eq_any_of_isOptional_markUnlessAny ha hmark
    exact ⟨h, rfl⟩
  · rintro ⟨h, rfl⟩
    exact h

theorem alike_optional_right_iff {a b : Shape} (ha : a.isOptional = false)
    (hb : b.isOptional = false) : a.Alike same (optional b) ↔ a.Alike same b ∧ a = any := by
  constructor
  · intro h
    have hmark := Reordered.isOptional_eq h
    rw [isOptional_absorbed ha] at hmark
    obtain rfl := eq_any_of_isOptional_markUnlessAny hb hmark.symm
    exact ⟨h, (absorbed_eq_any_iff ha).mp (reordered_any_right.mp h)⟩
  · rintro ⟨h, rfl⟩
    exact reordered_markUnlessAny_iff.mpr h

/-- Tidy shapes are alike just when they are below their marks and are marked alike, for which any
shapes need no mark. -/
theorem alike_iff_core {a b : Shape} (ha : a.isTidy = true) (hb : b.isTidy = true) :
    a.Alike same b ↔
      a.core.Alike same b.core ∧ (a.core = any ∨ a.isOptional = b.isOptional) := by
  cases hma : a.isOptional with
  | true =>
    obtain ⟨a, rfl⟩ := isOptional_iff.mp hma
    rw [core_optional ha]
    cases hmb : b.isOptional with
    | true =>
      obtain ⟨b, rfl⟩ := isOptional_iff.mp hmb
      rw [core_optional hb, Alike, absorbed, absorbed, reordered_markUnlessAny_iff, ← Alike]
      simp
    | false =>
      rw [isTidy_optional_iff] at ha
      rw [core_of_not_isOptional hmb, alike_optional_left_iff ha.1 hmb]
      simp
  | false =>
    rw [core_of_not_isOptional hma]
    cases hmb : b.isOptional with
    | true =>
      obtain ⟨b, rfl⟩ := isOptional_iff.mp hmb
      rw [core_optional hb]
      rw [isTidy_optional_iff] at hb
      rw [alike_optional_right_iff hma hb.1]
      simp
    | false =>
      rw [core_of_not_isOptional hmb]
      simp

end Alike

end JsonShape.Shape
