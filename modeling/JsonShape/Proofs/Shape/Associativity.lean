import JsonShape.Proofs.Shape.Core
import JsonShape.Proofs.Tally

/-!
The merge of three shapes, or of more, in whatever grouping. The outcomes are alike: marks and the
order of fields apart, they are equal, bounds and signs of zeros included. Below the marks, shapes
of two kinds make an any shape in every grouping, and shapes of one kind are merged bound by bound,
item by item and name by name. Counted merges find these outcomes wherever they have room.
-/

set_option autoImplicit false

namespace JsonShape.Shape

theorem alike_any_iff {same : Binary64 → Binary64 → Prop} {s : Shape} (hs : s.isOptional = false) :
    s.Alike same any ↔ s = any :=
  reordered_any_right.trans (absorbed_eq_any_iff hs)

theorem alike_list_iff {same : Binary64 → Binary64 → Prop} {r : Range Int} {a b : Shape}
    (hb : b.isOptional = false) :
    (list r a).Alike same b ↔ ∃ c, b = list r c ∧ a.Alike same c := by
  simp only [Alike, absorbed, reordered_list_iff]
  constructor
  · rintro ⟨d, hd, h⟩
    cases b with
    | list s c =>
      cases hd
      exact ⟨c, rfl, h⟩
    | _ => simp_all [absorbed, isOptional]
  · rintro ⟨c, rfl, h⟩
    exact ⟨_, rfl, h⟩

/-- Shapes without marks that are alike are equal, or both lists or records. -/
theorem eq_or_nested_of_alike {a b : Shape} (h : a.Alike Eq b) (ha : a.isOptional = false)
    (hb : b.isOptional = false) :
    a = b ∨ (∃ r x y, a = list r x ∧ b = list r y ∧ x.Alike Eq y) ∨
      ∃ fields others, a = record fields ∧ b = record others := by
  cases a with
  | list r x =>
    obtain ⟨y, rfl, hxy⟩ := (alike_list_iff hb).mp h
    exact .inr (.inl ⟨r, x, y, rfl, rfl, hxy⟩)
  | record fields =>
    rw [Alike, absorbed_record] at h
    obtain ⟨others, _, hothers, -⟩ := reordered_record_iff.mp h
    cases b with
    | record others => exact .inr (.inr ⟨fields, others, rfl, rfl⟩)
    | _ => simp_all [absorbed, isOptional]
  | float r =>
    obtain ⟨s, hs, hlo, hhi⟩ := reordered_float_iff.mp h
    have hrs : r = s := congrArg₂ Range.mk hlo hhi
    cases b <;> simp_all [absorbed, isOptional]
  | optional _ => simp [isOptional] at ha
  | _ =>
    have heq : _ = b.absorbed := h
    cases b <;> simp_all [absorbed, isOptional]

section Congruence

private theorem alike_merge_of_core {a a' b : Shape} (ha : a.isTidy = true)
    (ha' : a'.isTidy = true) (hb : b.isTidy = true) (h : a.Alike Eq a')
    (hcore : (a.core.merge b.core).Alike Eq (a'.core.merge b.core)) :
    (a.merge b).Alike Eq (a'.merge b) := by
  obtain ⟨-, hmark⟩ := (alike_iff_core ha ha').mp h
  rw [alike_iff_core (isTidy_merge ha hb) (isTidy_merge ha' hb), core_merge, core_merge]
  refine ⟨hcore, or_iff_not_imp_left.mpr fun hany => ?_⟩
  have hany' : a'.core.merge b.core ≠ any := by
    intro heq
    rw [heq, alike_any_iff (isOptional_merge (isOptional_core a) (isOptional_core b))] at hcore
    exact hany hcore
  have hne : a.core ≠ any := fun heq => hany (by rw [heq, merge_any_left])
  rw [← core_merge] at hany hany'
  rw [(core_eq_any_or_isOptional_merge a b).resolve_left hany,
    (core_eq_any_or_isOptional_merge a' b).resolve_left hany', hmark.resolve_left hne]

/-- Shapes of one kind that are alike have merges that are, if they have with all of this kind. -/
private theorem alike_merge_of_kind {a a' b : Shape} {k : Kind} (ha : a.kind? = some k)
    (ha' : a'.kind? = some k) (hb : b.isOptional = false) (h : a.Alike Eq a')
    (step : b.kind? = some k → (a.merge b).Alike Eq (a'.merge b)) :
    (a.merge b).Alike Eq (a'.merge b) := by
  by_cases hunknown : b = unknown
  · simpa [hunknown] using h
  by_cases hany : b = any
  · simpa [hany] using Alike.refl any
  obtain ⟨l, hl⟩ := Option.isSome_iff_exists.mp (kind?_isSome hunknown hany hb)
  by_cases hkl : k = l
  · exact step (hkl ▸ hl)
  · rw [merge_conflict ha hl hkl, merge_conflict ha' hl hkl]
    exact Alike.refl any

theorem rel_mergeCells_left {x x' y : Option Shape} (h : Option.Rel (Alike Eq) x x')
    (hx : ∀ a ∈ x, a.isTidy = true) (hx' : ∀ a ∈ x', a.isTidy = true)
    (hmerge : ∀ a ∈ x, ∀ a' ∈ x', ∀ b ∈ y, a.Alike Eq a' →
      (a.merge b).Alike Eq (a'.merge b)) :
    Option.Rel (Alike Eq) (mergeCells x y) (mergeCells x' y) := by
  cases h with
  | none =>
    cases y with
    | none => exact .none
    | some b => exact .some (Alike.refl _)
  | some h =>
    rename_i a a'
    cases y with
    | none =>
      have ha := hx a rfl
      have ha' := hx' a' rfl
      refine .some ((alike_iff_core (isTidy_makeOptional ha) (isTidy_makeOptional ha')).mpr ?_)
      rw [core_makeOptional, core_makeOptional, isOptional_makeOptional, isOptional_makeOptional]
      exact ⟨((alike_iff_core ha ha').mp h).1, .inr rfl⟩
    | some b => exact .some (hmerge a rfl a' rfl b rfl h)

private theorem alike_merge_record {fields others row : List Field}
    (ha : (record fields).isTidy = true) (ha' : (record others).isTidy = true)
    (hb : (record row).isTidy = true) (h : (record fields).Alike Eq (record others))
    (ih : ∀ f ∈ fields, ∀ {a' b : Shape}, f.2.isTidy = true → a'.isTidy = true →
      b.isTidy = true → f.2.Alike Eq a' → (f.2.merge b).Alike Eq (a'.merge b)) :
    ((record fields).merge (record row)).Alike Eq ((record others).merge (record row)) := by
  obtain ⟨hfields, hf⟩ := isTidy_record_iff.mp ha
  obtain ⟨hothers, hg⟩ := isTidy_record_iff.mp ha'
  obtain ⟨hrow, hh⟩ := isTidy_record_iff.mp hb
  rw [merge_record_record, merge_record_record,
    alike_record_iff (nodup_mergedFields hfields hrow) (nodup_mergedFields hothers hrow)]
  intro name
  rw [get?_mergedFields hfields hrow, get?_mergedFields hothers hrow]
  refine rel_mergeCells_left ((alike_record_iff hfields hothers).mp h name)
    (fun a hget => hf _ (mem_of_get? hget)) (fun a hget => hg _ (mem_of_get? hget)) ?_
  intro a hget a' hget' b hgetb
  exact ih _ (mem_of_get? hget) (hf _ (mem_of_get? hget)) (hg _ (mem_of_get? hget'))
    (hh _ (mem_of_get? hgetb))

/-- Shapes that are alike have merges with every shape that are. -/
theorem alike_merge_left {a a' b : Shape} (ha : a.isTidy = true) (ha' : a'.isTidy = true)
    (hb : b.isTidy = true) (h : a.Alike Eq a') : (a.merge b).Alike Eq (a'.merge b) := by
  induction a using nodeInduction generalizing a' b with
  | optional x ih =>
    obtain ⟨hcores, -⟩ := (alike_iff_core ha ha').mp h
    refine alike_merge_of_core ha ha' hb h ?_
    rw [core_optional ha] at hcores ⊢
    rw [isTidy_optional_iff] at ha
    exact ih ha.2 (isTidy_core ha') (isTidy_core hb) hcores
  | list r x ih =>
    obtain ⟨hcores, -⟩ := (alike_iff_core ha ha').mp h
    refine alike_merge_of_core ha ha' hb h ?_
    obtain ⟨y, hy, hxy⟩ := (alike_list_iff (isOptional_core a')).mp hcores
    have hyt := isTidy_core ha'
    have hbt := isTidy_core hb
    rw [hy] at hcores hyt ⊢
    refine alike_merge_of_kind rfl rfl (isOptional_core b) hcores fun hkind => ?_
    cases hz : b.core with
    | list s z =>
      rw [hz] at hbt
      rw [isTidy_list] at ha hyt hbt
      exact (ih ha hyt hbt hxy).list _
    | _ => simp [hz, kind?] at hkind
  | record fields ih =>
    obtain ⟨hcores, -⟩ := (alike_iff_core ha ha').mp h
    refine alike_merge_of_core ha ha' hb h ?_
    obtain heq | ⟨_, _, _, hlist, -⟩ | ⟨_, others, -, heq⟩ :=
      eq_or_nested_of_alike hcores rfl (isOptional_core a')
    · rw [← heq]
      exact Alike.refl _
    · cases hlist
    · have hat := isTidy_core ha'
      have hbt := isTidy_core hb
      rw [heq] at hcores hat ⊢
      refine alike_merge_of_kind rfl rfl (isOptional_core b) hcores fun hkind => ?_
      cases hz : b.core with
      | record row =>
        rw [hz] at hbt
        exact alike_merge_record ha hat hbt hcores ih
      | _ => simp [hz, kind?] at hkind
  | _ =>
    obtain ⟨hcores, -⟩ := (alike_iff_core ha ha').mp h
    refine alike_merge_of_core ha ha' hb h ?_
    obtain heq | ⟨_, _, _, hlist, -⟩ | ⟨_, _, hrecord, -⟩ :=
      eq_or_nested_of_alike hcores rfl (isOptional_core a')
    · rw [← heq]
      exact Alike.refl _
    · cases hlist
    · cases hrecord

end Congruence

section Associativity

private theorem alike_assoc_of_core {a b c : Shape} (ha : a.isTidy = true) (hb : b.isTidy = true)
    (hc : c.isTidy = true) (hcore : ((a.core.merge b.core).merge c.core).Alike Eq
      (a.core.merge (b.core.merge c.core))) :
    ((a.merge b).merge c).Alike Eq (a.merge (b.merge c)) := by
  rw [alike_iff_core (isTidy_merge (isTidy_merge ha hb) hc)
    (isTidy_merge ha (isTidy_merge hb hc))]
  simp only [core_merge]
  refine ⟨hcore, or_iff_not_imp_left.mpr fun hany => ?_⟩
  have hany' : a.core.merge (b.core.merge c.core) ≠ any := by
    intro heq
    rw [heq, alike_any_iff (isOptional_merge (isOptional_merge (isOptional_core a)
      (isOptional_core b)) (isOptional_core c))] at hcore
    exact hany hcore
  have hleft : (a.merge b).core ≠ any := by
    intro heq
    rw [core_merge] at heq
    exact hany (by rw [heq, merge_any_left])
  have hright : (b.merge c).core ≠ any := by
    intro heq
    rw [core_merge] at heq
    exact hany' (by rw [heq, merge_any_right])
  rw [← core_merge, ← core_merge] at hany
  rw [← core_merge, ← core_merge] at hany'
  rw [(core_eq_any_or_isOptional_merge _ c).resolve_left hany,
    (core_eq_any_or_isOptional_merge a b).resolve_left hleft,
    (core_eq_any_or_isOptional_merge a _).resolve_left hany',
    (core_eq_any_or_isOptional_merge b c).resolve_left hright, Bool.or_assoc]

theorem kind?_merge {a b : Shape} {k : Kind} (ha : a.isTidy = true) (hak : a.kind? = some k)
    (hbk : b.kind? = some k) : (a.merge b).kind? = some k := by
  induction a, b using mergeInduction with
  | foreigns x y => simp at ha
  | conflict a b l m hl hm hne =>
    rw [hak] at hl
    rw [hbk] at hm
    exact absurd (Option.some.inj (hl.symm.trans hm)) hne
  | _ => simp_all [kind?]

/-- A shape of some kind has a merge with two others in whatever grouping if it has with two of its
kind: any others are unknown, or make an any shape. -/
private theorem alike_assoc_of_kind {a b c : Shape} {k : Kind} (ha : a.isTidy = true)
    (hb : b.isTidy = true) (hak : a.kind? = some k) (hbm : b.isOptional = false)
    (hcm : c.isOptional = false) (step : b.kind? = some k → c.kind? = some k →
      ((a.merge b).merge c).Alike Eq (a.merge (b.merge c))) :
    ((a.merge b).merge c).Alike Eq (a.merge (b.merge c)) := by
  by_cases hbu : b = unknown
  · simpa [hbu] using Alike.refl _
  by_cases hba : b = any
  · simpa [hba] using Alike.refl _
  by_cases hcu : c = unknown
  · simpa [hcu] using Alike.refl _
  by_cases hca : c = any
  · simpa [hca] using Alike.refl _
  obtain ⟨l, hbk⟩ := Option.isSome_iff_exists.mp (kind?_isSome hbu hba hbm)
  obtain ⟨m, hck⟩ := Option.isSome_iff_exists.mp (kind?_isSome hcu hca hcm)
  by_cases hkl : k = l
  · subst hkl
    by_cases hkm : k = m
    · exact step hbk (hkm ▸ hck)
    · rw [merge_conflict (kind?_merge ha hak hbk) hck hkm, merge_conflict hbk hck hkm,
        merge_any_right]
      exact Alike.refl _
  · rw [merge_conflict hak hbk hkl, merge_any_left]
    by_cases hlm : l = m
    · rw [merge_conflict hak (kind?_merge hb hbk (hlm ▸ hck)) hkl]
      exact Alike.refl _
    · rw [merge_conflict hbk hck hlm, merge_any_right]
      exact Alike.refl _

private theorem alike_assoc_of_kinds {a b c : Shape} {k : Kind} (ha : a.WellFormed)
    (hb : b.WellFormed) (hc : c.WellFormed) (hak : a.kind? = some k)
    (step : ∀ b c : Shape, b.WellFormed → c.WellFormed → b.kind? = some k → c.kind? = some k →
      ((a.merge b).merge c).Alike Eq (a.merge (b.merge c))) :
    ((a.merge b).merge c).Alike Eq (a.merge (b.merge c)) := by
  refine alike_assoc_of_core ha.tidy hb.tidy hc.tidy ?_
  rw [core_of_not_isOptional (isOptional_eq_false_of_kind (s := a) (by simp [hak]))]
  exact alike_assoc_of_kind ha.tidy hb.core.tidy hak (isOptional_core b) (isOptional_core c)
    (step _ _ hb.core hc.core)

private theorem merge_assoc_int {r : Range Int} {b c : Shape} (hb : b.WellFormed)
    (hbk : b.kind? = some .number) (hck : c.kind? = some .number) :
    ((int r).merge b).merge c = (int r).merge (b.merge c) := by
  cases b <;> simp [kind?] at hbk <;> cases c <;> simp [kind?] at hck
  · simp only [merge_int_int, Range.hull_assoc]
  · simp only [merge_int_int, merge_int_float, Range.toBinary64_hull,
      Range.hull_assoc_of_isNumeric (Range.isNumeric_toBinary64 _)]
  · simp only [merge_int_float, merge_float_int, Range.hull_assoc_of_isNumeric hb.numeric]
  · simp only [merge_int_float, merge_float_float, Range.hull_assoc_of_isNumeric hb.numeric]

private theorem merge_assoc_float {r : Range Binary64} {b c : Shape} (hb : b.WellFormed)
    (hbk : b.kind? = some .number) (hck : c.kind? = some .number) :
    ((float r).merge b).merge c = (float r).merge (b.merge c) := by
  cases b <;> simp [kind?] at hbk <;> cases c <;> simp [kind?] at hck
  · simp only [merge_float_int, merge_int_int, Range.toBinary64_hull,
      Range.hull_assoc_of_isNumeric (Range.isNumeric_toBinary64 _)]
  · simp only [merge_float_int, merge_int_float, merge_float_float,
      Range.hull_assoc_of_isNumeric (Range.isNumeric_toBinary64 _)]
  · simp only [merge_float_int, merge_float_float, Range.hull_assoc_of_isNumeric hb.numeric]
  · simp only [merge_float_float, Range.hull_assoc_of_isNumeric hb.numeric]

/-- Two shapes with the same one below their marks are alike if both are marked, or need not be. -/
private theorem alike_of_marked {s t : Shape} (hs : s.isTidy = true) (ht : t.isTidy = true)
    (hcore : s.core = t.core) (hsm : s.core = any ∨ s.isOptional = true)
    (htm : t.core = any ∨ t.isOptional = true) : s.Alike Eq t := by
  rw [alike_iff_core hs ht, ← hcore]
  refine ⟨Alike.refl _, ?_⟩
  rcases hsm with hany | hs
  · exact .inl hany
  · rw [← hcore] at htm
    exact htm.imp_right fun ht => hs.trans ht.symm

private theorem marked_merge_left (a b : Shape) :
    (a.makeOptional.merge b).core = any ∨ (a.makeOptional.merge b).isOptional = true := by
  have h := core_eq_any_or_isOptional_merge a.makeOptional b
  rwa [isOptional_makeOptional, Bool.true_or] at h

private theorem marked_merge_right (a b : Shape) :
    (a.merge b.makeOptional).core = any ∨ (a.merge b.makeOptional).isOptional = true := by
  have h := core_eq_any_or_isOptional_merge a b.makeOptional
  rwa [isOptional_makeOptional, Bool.or_true] at h

theorem rel_mergeCells_assoc {x y z : Option Shape} (hx : ∀ a ∈ x, a.isTidy = true)
    (hy : ∀ b ∈ y, b.isTidy = true) (hz : ∀ c ∈ z, c.isTidy = true)
    (hassoc : ∀ a ∈ x, ∀ b ∈ y, ∀ c ∈ z, ((a.merge b).merge c).Alike Eq (a.merge (b.merge c))) :
    Option.Rel (Alike Eq) (mergeCells (mergeCells x y) z) (mergeCells x (mergeCells y z)) := by
  -- Where one record lacks the name, the mark for it is put on before or after the merge.
  rcases x with _ | a <;> rcases y with _ | b <;> rcases z with _ | c <;>
    simp only [mergeCells, Option.rel_some_some]
  · exact .none
  · rw [makeOptional_makeOptional]
    exact Alike.refl _
  · exact Alike.refl _
  · have hb := hy b rfl
    have hc := hz c rfl
    refine alike_of_marked (isTidy_merge (isTidy_makeOptional hb) hc)
      (isTidy_makeOptional (isTidy_merge hb hc)) ?_ (marked_merge_left b c)
      (.inr (isOptional_makeOptional _))
    simp only [core_merge, core_makeOptional]
  · rw [makeOptional_makeOptional]
    exact Alike.refl _
  · have ha := hx a rfl
    have hc := hz c rfl
    refine alike_of_marked (isTidy_merge (isTidy_makeOptional ha) hc)
      (isTidy_merge ha (isTidy_makeOptional hc)) ?_ (marked_merge_left a c) (marked_merge_right a c)
    simp only [core_merge, core_makeOptional]
  · have ha := hx a rfl
    have hb := hy b rfl
    refine alike_of_marked (isTidy_makeOptional (isTidy_merge ha hb))
      (isTidy_merge ha (isTidy_makeOptional hb)) ?_ (.inr (isOptional_makeOptional _))
      (marked_merge_right a b)
    simp only [core_merge, core_makeOptional]
  · exact hassoc a rfl b rfl c rfl

private theorem alike_assoc_record {fields others row : List Field}
    (ha : (record fields).WellFormed) (hb : (record others).WellFormed)
    (hc : (record row).WellFormed)
    (ih : ∀ f ∈ fields, ∀ {b c : Shape}, f.2.WellFormed → b.WellFormed → c.WellFormed →
      ((f.2.merge b).merge c).Alike Eq (f.2.merge (b.merge c))) :
    (((record fields).merge (record others)).merge (record row)).Alike Eq
      ((record fields).merge ((record others).merge (record row))) := by
  obtain ⟨hfields, hf⟩ := wellFormed_record_iff.mp ha
  obtain ⟨hothers, hg⟩ := wellFormed_record_iff.mp hb
  obtain ⟨hrow, hh⟩ := wellFormed_record_iff.mp hc
  have hleft := nodup_mergedFields hfields hothers
  have hright := nodup_mergedFields hothers hrow
  simp only [merge_record_record]
  rw [alike_record_iff (nodup_mergedFields hleft hrow) (nodup_mergedFields hfields hright)]
  intro name
  rw [get?_mergedFields hleft hrow, get?_mergedFields hfields hright,
    get?_mergedFields hfields hothers, get?_mergedFields hothers hrow]
  refine rel_mergeCells_assoc (fun a ha => (hf _ (mem_of_get? ha)).tidy)
    (fun b hb => (hg _ (mem_of_get? hb)).tidy) (fun c hc => (hh _ (mem_of_get? hc)).tidy) ?_
  intro a ha b hb c hc
  exact ih _ (mem_of_get? ha) (hf _ (mem_of_get? ha)) (hg _ (mem_of_get? hb))
    (hh _ (mem_of_get? hc))

/-- The merge of three shapes is the same in either grouping, but for presentation. -/
theorem alike_merge_assoc {a b c : Shape} (ha : a.WellFormed) (hb : b.WellFormed)
    (hc : c.WellFormed) : ((a.merge b).merge c).Alike Eq (a.merge (b.merge c)) := by
  induction a using nodeInduction generalizing b c with
  | unknown | any => exact Alike.refl _
  | optional x ih =>
    refine alike_assoc_of_core ha.tidy hb.tidy hc.tidy ?_
    rw [core_optional ha.tidy]
    exact ih (wellFormed_optional_iff.mp ha).2 hb.core hc.core
  | bool =>
    refine alike_assoc_of_kinds ha hb hc (k := .bool) rfl fun b c _ _ hbk hck => ?_
    cases b <;> simp [kind?] at hbk
    cases c <;> simp [kind?] at hck
    rfl
  | int r =>
    refine alike_assoc_of_kinds ha hb hc (k := .number) rfl fun b c hb _ hbk hck => ?_
    rw [merge_assoc_int hb hbk hck]
    exact Alike.refl _
  | float r =>
    refine alike_assoc_of_kinds ha hb hc (k := .number) rfl fun b c hb _ hbk hck => ?_
    rw [merge_assoc_float hb hbk hck]
    exact Alike.refl _
  | text r =>
    refine alike_assoc_of_kinds ha hb hc (k := .text) rfl fun b c _ _ hbk hck => ?_
    cases b <;> simp [kind?] at hbk
    cases c <;> simp [kind?] at hck
    simp only [merge_text_text, Range.hull_assoc]
    exact Alike.refl _
  | list r x ih =>
    refine alike_assoc_of_kinds ha hb hc (k := .list) rfl fun b c hb hc hbk hck => ?_
    cases b <;> simp [kind?] at hbk
    cases c <;> simp [kind?] at hck
    rw [wellFormed_list_iff] at ha hb hc
    simp only [merge_list_list, Range.hull_assoc]
    exact (ih ha hb hc).list _
  | record fields ih =>
    refine alike_assoc_of_kinds ha hb hc (k := .record) rfl fun b c hb hc hbk hck => ?_
    cases b <;> simp [kind?] at hbk
    cases c <;> simp [kind?] at hck
    exact alike_assoc_record ha hb hc fun f hf _ _ => ih f hf
  | foreign x => exact absurd ha (not_wellFormed_foreign x)

end Associativity

section Runs

/-- A shape has too many levels for the room for nesting, if they must all be merged. -/
def Outgrows (s : Shape) : Prop := nestingRoom < 2 * s.levels + 2

/-- Of three shapes two have too many levels for the room for nesting. -/
def TwoOutgrow (a b c : Shape) : Prop :=
  a.Outgrows ∧ b.Outgrows ∨ a.Outgrows ∧ c.Outgrows ∨ b.Outgrows ∧ c.Outgrows

theorem outgrow_of_lt_mergeRoom {a b : Shape} (h : nestingRoom < a.mergeRoom b) :
    a.Outgrows ∧ b.Outgrows := by
  have hroom := h.trans_le (mergeRoom_le a b)
  constructor
  · unfold Outgrows
    omega
  · unfold Outgrows
    omega

theorem outgrows_of_merge {a b : Shape} (ha : a.isTidy = true) (hb : b.isTidy = true)
    (h : (a.merge b).Outgrows) : a.Outgrows ∨ b.Outgrows := by
  have hlevels := levels_merge_le (isFlat_of_isTidy ha) (isFlat_of_isTidy hb)
  unfold Outgrows at *
  omega

/-- All integer bounds in three shapes have 64 bits. -/
def AllNarrow (a b c : Shape) : Prop :=
  a.isNarrow = true ∧ b.isNarrow = true ∧ c.isNarrow = true

private theorem on_unify_unify_left {a b c : Shape} (ha : a.isTidy = true) (hb : b.isTidy = true)
    (hc : c.isTidy = true) (merges : Nat) :
    (∃ reached, (a.unify b >>= (·.unify c)).on merges = (.ok ((a.merge b).merge c), reached)) ∨
      TwoOutgrow a b c ∧
        (∃ reached, (a.unify b >>= (·.unify c)).on merges = (.error .tooDeep, reached)) ∨
      ¬ AllNarrow a b c ∧
        ∃ reached, (a.unify b >>= (·.unify c)).on merges = (.error .overflow, reached) := by
  rcases on_unify_of_isTidy ha hb merges with
    ⟨between, hfirst⟩ | ⟨hroom, reached, hfirst⟩ | ⟨hwide, reached, hfirst⟩
  · rcases on_unify_of_isTidy (isTidy_merge ha hb) hc between with
      ⟨reached, hsecond⟩ | ⟨hroom, reached, hsecond⟩ | ⟨hwide, reached, hsecond⟩
    · exact .inl ⟨reached, by simp only [Tally.on_bind, hfirst, hsecond]⟩
    · refine .inr (.inl ⟨?_, reached, by simp only [Tally.on_bind, hfirst, hsecond]⟩)
      obtain ⟨hmerged, hc⟩ := outgrow_of_lt_mergeRoom hroom
      rcases outgrows_of_merge ha hb hmerged with ha | hb
      · exact .inr (.inl ⟨ha, hc⟩)
      · exact .inr (.inr ⟨hb, hc⟩)
    · refine .inr (.inr ⟨?_, reached, by simp only [Tally.on_bind, hfirst, hsecond]⟩)
      exact fun hall => hwide ⟨isNarrow_merge hall.1 hall.2.1, hall.2.2⟩
  · exact .inr (.inl ⟨.inl (outgrow_of_lt_mergeRoom hroom), reached,
      by simp only [Tally.on_bind, hfirst]⟩)
  · exact .inr (.inr ⟨fun hall => hwide ⟨hall.1, hall.2.1⟩, reached,
      by simp only [Tally.on_bind, hfirst]⟩)

private theorem on_unify_unify_right {a b c : Shape} (ha : a.isTidy = true) (hb : b.isTidy = true)
    (hc : c.isTidy = true) (merges : Nat) :
    (∃ reached, (b.unify c >>= a.unify).on merges = (.ok (a.merge (b.merge c)), reached)) ∨
      TwoOutgrow a b c ∧
        (∃ reached, (b.unify c >>= a.unify).on merges = (.error .tooDeep, reached)) ∨
      ¬ AllNarrow a b c ∧
        ∃ reached, (b.unify c >>= a.unify).on merges = (.error .overflow, reached) := by
  rcases on_unify_of_isTidy hb hc merges with
    ⟨between, hfirst⟩ | ⟨hroom, reached, hfirst⟩ | ⟨hwide, reached, hfirst⟩
  · rcases on_unify_of_isTidy ha (isTidy_merge hb hc) between with
      ⟨reached, hsecond⟩ | ⟨hroom, reached, hsecond⟩ | ⟨hwide, reached, hsecond⟩
    · exact .inl ⟨reached, by simp only [Tally.on_bind, hfirst, hsecond]⟩
    · refine .inr (.inl ⟨?_, reached, by simp only [Tally.on_bind, hfirst, hsecond]⟩)
      obtain ⟨ha, hmerged⟩ := outgrow_of_lt_mergeRoom hroom
      rcases outgrows_of_merge hb hc hmerged with hb | hc
      · exact .inl ⟨ha, hb⟩
      · exact .inr (.inl ⟨ha, hc⟩)
    · refine .inr (.inr ⟨?_, reached, by simp only [Tally.on_bind, hfirst, hsecond]⟩)
      exact fun hall => hwide ⟨hall.1, isNarrow_merge hall.2.1 hall.2.2⟩
  · exact .inr (.inl ⟨.inr (.inr (outgrow_of_lt_mergeRoom hroom)), reached,
      by simp only [Tally.on_bind, hfirst]⟩)
  · exact .inr (.inr ⟨fun hall => hwide hall.2, reached, by simp only [Tally.on_bind, hfirst]⟩)

/-- Counted merges of three well-formed shapes have the same outcome in either grouping, but for
presentation. A grouping is given up only if two of the shapes are too deep for the room, or because
an integer of more than 64 bits is too large to widen. -/
theorem on_unify_assoc {a b c : Shape} (ha : a.WellFormed) (hb : b.WellFormed)
    (hc : c.WellFormed) (merges before : Nat) :
    (∃ s t reached after, (a.unify b >>= (·.unify c)).on merges = (.ok s, reached) ∧
      (b.unify c >>= a.unify).on before = (.ok t, after) ∧ s.Alike Eq t) ∨
      TwoOutgrow a b c ∧
        ((∃ reached, (a.unify b >>= (·.unify c)).on merges = (.error .tooDeep, reached)) ∨
          ∃ after, (b.unify c >>= a.unify).on before = (.error .tooDeep, after)) ∨
      ¬ AllNarrow a b c ∧
        ((∃ reached, (a.unify b >>= (·.unify c)).on merges = (.error .overflow, reached)) ∨
          ∃ after, (b.unify c >>= a.unify).on before = (.error .overflow, after)) := by
  rcases on_unify_unify_left ha.tidy hb.tidy hc.tidy merges with
    ⟨reached, hleft⟩ | ⟨hdeep, hleft⟩ | ⟨hwide, hleft⟩
  · rcases on_unify_unify_right ha.tidy hb.tidy hc.tidy before with
      ⟨after, hright⟩ | ⟨hdeep, hright⟩ | ⟨hwide, hright⟩
    · exact .inl ⟨_, _, reached, after, hleft, hright, alike_merge_assoc ha hb hc⟩
    · exact .inr (.inl ⟨hdeep, .inr hright⟩)
    · exact .inr (.inr ⟨hwide, .inr hright⟩)
  · exact .inr (.inl ⟨hdeep, .inl hleft⟩)
  · exact .inr (.inr ⟨hwide, .inl hleft⟩)

/-- A record with integers at two names, one of them beyond the integers that doubles hold. -/
def intRecord : Shape :=
  record [("x", int ⟨-3, 2 ^ 53 + 1⟩), ("y", int ⟨0, 2 ^ 62⟩)]

/-- A record with an integer at one of these names. -/
def lackingRecord : Shape := record [("y", optional (int ⟨-(2 ^ 63), 5⟩))]

/-- A record with a float at one of these names and shapes of several kinds at the other. -/
def looseRecord : Shape :=
  record [("z", bool), ("x", any), ("y", float ⟨.ofInt 1, .ofInt (2 ^ 53)⟩)]

/-- The shape around these records. -/
def jointRecord (x : Shape) : Shape :=
  record [("x", x), ("y", optional (float ⟨.ofInt (-(2 ^ 63)), .ofInt (2 ^ 62)⟩)),
    ("z", optional bool)]

theorem on_unify_assoc_records :
    intRecord.WellFormed ∧ lackingRecord.WellFormed ∧ looseRecord.WellFormed ∧
      (intRecord.unify lackingRecord >>= (·.unify looseRecord)).on 0 =
        (.ok (jointRecord any), 7) ∧
          (lackingRecord.unify looseRecord >>= intRecord.unify).on 0 =
            (.ok (jointRecord (optional any)), 8) ∧
              (jointRecord any).Alike Eq (jointRecord (optional any)) := by
  have hints : intRecord.WellFormed := ⟨by decide, by decide⟩
  have hlacking : lackingRecord.WellFormed := ⟨by decide, by decide⟩
  have hloose : looseRecord.WellFormed := ⟨by decide, by decide⟩
  have hleft : (intRecord.unify lackingRecord >>= (·.unify looseRecord)).on 0 =
      (.ok (jointRecord any), 7) := rfl
  have hright : (lackingRecord.unify looseRecord >>= intRecord.unify).on 0 =
      (.ok (jointRecord (optional any)), 8) := rfl
  refine ⟨hints, hlacking, hloose, hleft, hright, ?_⟩
  rcases on_unify_assoc hints hlacking hloose 0 0 with
    ⟨s, t, reached, after, hs, ht, halike⟩ | ⟨-, ⟨reached, hfault⟩ | ⟨after, hfault⟩⟩ |
      ⟨-, ⟨reached, hfault⟩ | ⟨after, hfault⟩⟩
  · cases hleft.symm.trans hs
    cases hright.symm.trans ht
    exact halike
  · cases hleft.symm.trans hfault
  · cases hright.symm.trans hfault
  · cases hleft.symm.trans hfault
  · cases hright.symm.trans hfault

end Runs

end JsonShape.Shape
