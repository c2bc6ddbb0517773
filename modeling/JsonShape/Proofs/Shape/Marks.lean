import JsonShape.Proofs.Shape.Join
import Mathlib.Data.List.Induction

/-!
Optional marks and kinds in merges. A mark on the left of a merge may as well be put on its outcome,
so that marks can be left out of account until the end; only an any shape on the right absorbs them.
A merge has a kind only if every shape in it has this kind or has seen nothing.
-/

set_option autoImplicit false

namespace JsonShape.Shape

theorem makeOptional_makeOptional (s : Shape) : s.makeOptional.makeOptional = s.makeOptional := by
  cases s <;> rfl

theorem makeOptional_of_isOptional {s : Shape} (h : s.isOptional = true) : s.makeOptional = s := by
  obtain ⟨t, rfl⟩ := isOptional_iff.mp h
  rfl

theorem kind?_isSome {s : Shape} (hunknown : s ≠ unknown) (hany : s ≠ any)
    (hmark : s.isOptional = false) : s.kind?.isSome = true := by
  cases s <;> simp_all [kind?, isOptional]

/-- A mark stays in a merge, unless an any shape absorbs it. -/
theorem isOptional_merge_left {t s : Shape} (ht : t.isOptional = true) (hs : s ≠ any) :
    (t.merge s).isOptional = true := by
  obtain ⟨t, rfl⟩ := isOptional_iff.mp ht
  by_cases hunknown : s = unknown
  · subst hunknown
    simpa using ht
  by_cases hmark : s.isOptional = true
  · obtain ⟨s, rfl⟩ := isOptional_iff.mp hmark
    simp [isOptional]
  · rw [merge_optional_left (kind?_isSome hunknown hs (by simpa using hmark))]
    rfl

private theorem merge_optional_right_makeOptional {t : Shape} (ht : t.isOptional = false)
    (s : Shape) : (t.merge (optional s)).makeOptional = optional (t.merge s) := by
  by_cases hunknown : t = unknown
  · simp [hunknown, makeOptional]
  by_cases hany : t = any
  · simp [hany, makeOptional]
  rw [merge_optional_right (kind?_isSome hunknown hany ht)]
  rfl

/-- A mark on the left of a merge may as well be put on its outcome, unless an any shape absorbs
it. -/
theorem merge_makeOptional_left {t s : Shape} (hs : s ≠ any) :
    t.makeOptional.merge s = (t.merge s).makeOptional := by
  by_cases ht : t.isOptional = true
  · rw [makeOptional_of_isOptional ht, makeOptional_of_isOptional (isOptional_merge_left ht hs)]
  rw [Bool.not_eq_true] at ht
  rw [makeOptional_of_not_isOptional ht]
  by_cases hunknown : s = unknown
  · simp [hunknown, makeOptional_of_not_isOptional ht]
  by_cases hmark : s.isOptional = true
  · obtain ⟨s, rfl⟩ := isOptional_iff.mp hmark
    rw [merge_optional_optional, merge_optional_right_makeOptional ht]
  · rw [Bool.not_eq_true] at hmark
    rw [merge_optional_left (kind?_isSome hunknown hs hmark),
      makeOptional_of_not_isOptional (isOptional_merge ht hmark)]

/-- A shape is another one or the same with a mark. -/
def UpToMark (t s : Shape) : Prop := t = s ∨ t = s.makeOptional

theorem UpToMark.makeOptional {t s : Shape} (h : t.UpToMark s) : t.makeOptional.UpToMark s := by
  rcases h with rfl | rfl
  · exact .inr rfl
  · exact .inr (makeOptional_makeOptional s)

theorem UpToMark.trans {t s r : Shape} (hts : t.UpToMark s) (hsr : s.UpToMark r) :
    t.UpToMark r := by
  rcases hts with rfl | rfl
  · exact hsr
  · exact hsr.makeOptional

theorem UpToMark.eq_of_isOptional {t s : Shape} (h : t.UpToMark s) (ht : t.isOptional = false) :
    t = s := by
  rcases h with rfl | rfl
  · rfl
  · simp [isOptional_makeOptional] at ht

theorem UpToMark.eq_of_optional {t s : Shape} (h : (optional t).UpToMark s)
    (hs : s.isOptional = false) : t = s := by
  rcases h with rfl | h
  · simp [isOptional] at hs
  · rw [makeOptional_of_not_isOptional hs] at h
    cases h
    rfl

theorem UpToMark.merge {t s next : Shape} (h : t.UpToMark s) (hnext : next ≠ any) :
    (t.merge next).UpToMark (s.merge next) := by
  rcases h with rfl | rfl
  · exact .inl rfl
  · exact .inr (merge_makeOptional_left hnext)

theorem merge_null (t : Shape) : (t.merge (optional unknown)).UpToMark t := by
  by_cases hany : t = any
  · exact .inl (by simp [hany])
  by_cases hunknown : t = unknown
  · exact .inr (by simp [hunknown, makeOptional])
  by_cases hmark : t.isOptional = true
  · obtain ⟨t, rfl⟩ := isOptional_iff.mp hmark
    exact .inl (by simp)
  · rw [Bool.not_eq_true] at hmark
    rw [merge_optional_right (kind?_isSome hunknown hany hmark), merge_unknown_right]
    exact .inr (makeOptional_of_not_isOptional hmark).symm

theorem around_concat (shapes : List Shape) (s : Shape) :
    around (shapes ++ [s]) = (around shapes).merge s := by
  simp only [around, List.foldl_append, List.foldl_cons, List.foldl_nil]

theorem isOptional_around {shapes : List Shape} (h : ∀ s ∈ shapes, s.isOptional = false) :
    (around shapes).isOptional = false :=
  around_of_merge (p := (isOptional · = false)) rfl isOptional_merge h

/-- No values but those of one kind have been seen. -/
def SeenOnly (k : Kind) (s : Shape) : Prop := s = unknown ∨ s.kind? = some k

theorem SeenOnly.of_merge {k : Kind} {a b : Shape} (h : (a.merge b).SeenOnly k) :
    a.SeenOnly k ∧ b.SeenOnly k := by
  induction a, b using mergeInduction with
  | unknownLeft b => exact ⟨.inl rfl, by simpa using h⟩
  | unknownRight a => exact ⟨by simpa using h, .inl rfl⟩
  | markedLeft a b hkind _ => simp [merge_optional_left hkind, SeenOnly, kind?] at h
  | markedRight a b hkind _ => simp [merge_optional_right hkind, SeenOnly, kind?] at h
  | foreigns x y =>
    rw [merge_foreign_foreign] at h
    split_ifs at h
    · exact ⟨h, .inr (by simpa [SeenOnly, kind?] using h)⟩
    · simp [SeenOnly, kind?] at h
  | conflict a b l m hl hm hne => simp [merge_conflict hl hm hne, SeenOnly, kind?] at h
  | _ => simp_all [SeenOnly, kind?]

theorem SeenOnly.of_around {k : Kind} {shapes : List Shape} (h : (around shapes).SeenOnly k) :
    ∀ s ∈ shapes, s.SeenOnly k := by
  induction shapes using List.reverseRecOn with
  | nil => simp
  | append_singleton shapes s ih =>
    rw [around_concat] at h
    obtain ⟨hleft, hright⟩ := h.of_merge
    simp only [List.forall_mem_append, List.forall_mem_singleton]
    exact ⟨ih hleft, hright⟩

end JsonShape.Shape
