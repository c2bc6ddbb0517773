import JsonShape.Proofs.Shape.Merge
import JsonShape.Proofs.Shape.Order

/-!
The merge of two well-formed shapes lies above both, and below every tidy shape above both.
-/

set_option autoImplicit false

namespace JsonShape.Shape

theorem isNullable_makeOptional (s : Shape) : s.makeOptional.isNullable = true := by
  cases s <;> rfl

theorem le_makeOptional {s : Shape} (h : s.WellFormed) : s ≤ s.makeOptional := by
  cases hs : s.isOptional with
  | true =>
    obtain ⟨t, rfl⟩ := isOptional_iff.mp hs
    exact le_refl_of_wellFormed h
  | false =>
    rw [makeOptional_of_not_isOptional hs, le_optional hs]
    exact le_refl_of_wellFormed h

theorem makeOptional_le {s c : Shape} (h : s ≤ c) (hc : c.isNullable = true) :
    s.makeOptional ≤ c := by
  cases hs : s.isOptional with
  | true =>
    obtain ⟨t, rfl⟩ := isOptional_iff.mp hs
    exact h
  | false =>
    rw [makeOptional_of_not_isOptional hs]
    cases c with
    | any => exact le_any _
    | optional d => exact optional_le_optional.mpr ((le_optional hs).mp h)
    | _ => simp [isNullable] at hc

private theorem record_le_mergedFields_left {fields others : List Field}
    (hfields : (fields.map Prod.fst).Nodup) (hothers : (others.map Prod.fst).Nodup)
    (hwf : ∀ f ∈ fields, f.2.WellFormed)
    (hle : ∀ f ∈ fields, ∀ g ∈ others, f.2 ≤ f.2.merge g.2) :
    record fields ≤ record (mergedFields fields others) := by
  refine record_le_record.mpr ⟨fun f hf => ?_, fun h hh hfresh => ?_⟩
  · by_cases hname : f.1 ∈ others.map Prod.fst
    · obtain ⟨g, hg, hgname⟩ := List.mem_map.mp hname
      exact ⟨_, (mem_mergedFields hfields hothers).mpr (.inl ⟨f, hf, g, hg, hgname, rfl⟩),
        rfl, hle f hf g hg⟩
    · exact ⟨_, (mem_mergedFields hfields hothers).mpr (.inr (.inl ⟨f, hf, hname, rfl⟩)),
        rfl, le_makeOptional (hwf f hf)⟩
  · rcases (mem_mergedFields hfields hothers).mp hh with
      ⟨f, hf, _, _, _, rfl⟩ | ⟨f, hf, _, rfl⟩ | ⟨g, _, _, rfl⟩
    · exact absurd (List.mem_map_of_mem hf) hfresh
    · exact absurd (List.mem_map_of_mem hf) hfresh
    · exact isNullable_makeOptional g.2

private theorem record_le_mergedFields_right {fields others : List Field}
    (hfields : (fields.map Prod.fst).Nodup) (hothers : (others.map Prod.fst).Nodup)
    (hwf : ∀ g ∈ others, g.2.WellFormed)
    (hle : ∀ f ∈ fields, ∀ g ∈ others, g.2 ≤ f.2.merge g.2) :
    record others ≤ record (mergedFields fields others) := by
  refine record_le_record.mpr ⟨fun g hg => ?_, fun h hh hfresh => ?_⟩
  · by_cases hname : g.1 ∈ fields.map Prod.fst
    · obtain ⟨f, hf, hfname⟩ := List.mem_map.mp hname
      exact ⟨_, (mem_mergedFields hfields hothers).mpr (.inl ⟨f, hf, g, hg, hfname.symm, rfl⟩),
        hfname, hle f hf g hg⟩
    · exact ⟨_, (mem_mergedFields hfields hothers).mpr (.inr (.inr ⟨g, hg, hname, rfl⟩)),
        rfl, le_makeOptional (hwf g hg)⟩
  · rcases (mem_mergedFields hfields hothers).mp hh with
      ⟨f, _, g, hg, hname, rfl⟩ | ⟨f, _, _, rfl⟩ | ⟨g, hg, _, rfl⟩
    · exact absurd (hname ▸ List.mem_map_of_mem hg) hfresh
    · exact isNullable_makeOptional f.2
    · exact absurd (List.mem_map_of_mem hg) hfresh

/-- The merge of two well-formed shapes lies above both. -/
theorem le_merge {a b : Shape} (ha : a.WellFormed) (hb : b.WellFormed) :
    a ≤ a.merge b ∧ b ≤ a.merge b := by
  induction a, b using mergeInduction with
  | unknownLeft b =>
    rw [merge_unknown_left]
    exact ⟨unknown_le b, le_refl_of_wellFormed hb⟩
  | unknownRight a =>
    rw [merge_unknown_right]
    exact ⟨le_refl_of_wellFormed ha, unknown_le a⟩
  | anyLeft b => simp
  | anyRight a => simp
  | marked a b ih =>
    rw [merge_optional_optional, optional_le_optional, optional_le_optional]
    exact ih (wellFormed_optional_iff.mp ha).2 (wellFormed_optional_iff.mp hb).2
  | markedLeft a b hkind ih =>
    rw [merge_optional_left hkind, optional_le_optional,
      le_optional (isOptional_eq_false_of_kind hkind)]
    exact ih (wellFormed_optional_iff.mp ha).2 hb
  | markedRight a b hkind ih =>
    rw [merge_optional_right hkind, optional_le_optional,
      le_optional (isOptional_eq_false_of_kind hkind)]
    exact ih ha (wellFormed_optional_iff.mp hb).2
  | bools => exact ⟨rfl, rfl⟩
  | ints r s | texts r s => exact Range.within_hull r s
  | intFloat r s =>
    exact Range.within_hull_of_isNumeric (Range.isNumeric_toBinary64 r) hb.numeric
  | floatInt r s =>
    exact Range.within_hull_of_isNumeric ha.numeric (Range.isNumeric_toBinary64 s)
  | floats r s => exact Range.within_hull_of_isNumeric ha.numeric hb.numeric
  | lists r s a b ih =>
    obtain ⟨hr, hs⟩ := Range.within_hull r s
    obtain ⟨hleft, hright⟩ := ih (wellFormed_list_iff.mp ha) (wellFormed_list_iff.mp hb)
    rw [merge_list_list, list_le_list, list_le_list]
    exact ⟨⟨hr, hleft⟩, hs, hright⟩
  | records fields others ih =>
    obtain ⟨hfields, ha⟩ := wellFormed_record_iff.mp ha
    obtain ⟨hothers, hb⟩ := wellFormed_record_iff.mp hb
    have hle (f : Field) (hf : f ∈ fields) (g : Field) (hg : g ∈ others) :=
      ih f hf g hg (ha f hf) (hb g hg)
    rw [merge_record_record]
    exact ⟨record_le_mergedFields_left hfields hothers ha fun f hf g hg => (hle f hf g hg).1,
      record_le_mergedFields_right hfields hothers hb fun f hf g hg => (hle f hf g hg).2⟩
  | foreigns x y => exact absurd ha (not_wellFormed_foreign x)
  | conflict a b k l hk hl hne =>
    rw [merge_conflict hk hl hne]
    exact ⟨le_any a, le_any b⟩

private theorem kind_of_le {a c : Shape} {k : Kind} (hk : a.kind? = some k) (h : a ≤ c)
    (hc : c.isOptional = false) : c = any ∨ c.kind? = some k := by
  cases a <;> cases c <;> simp_all [kind?, le_def, within, isOptional]

/-- Shapes of two kinds lie below any shapes only. -/
private theorem any_le_of_conflict {a b c : Shape} {k l : Kind} (hk : a.kind? = some k)
    (hl : b.kind? = some l) (hne : k ≠ l) (ha : a ≤ c) (hb : b ≤ c) : any ≤ c := by
  rw [le_core_iff (isOptional_eq_false_of_kind (by simp [hk]))] at ha
  rw [le_core_iff (isOptional_eq_false_of_kind (by simp [hl]))] at hb
  rw [le_core_iff rfl]
  rcases kind_of_le hk ha (isOptional_core c) with hany | hck
  · exact hany ▸ le_any any
  · rcases kind_of_le hl hb (isOptional_core c) with hany | hcl
    · exact hany ▸ le_any any
    · exact absurd (Option.some.inj (hck.symm.trans hcl)) hne

/-- Shapes of one kind have, besides any shapes, bounds of their own kind only. -/
private theorem le_of_same_kind {a b m c : Shape} {k : Kind} (ha : a.kind? = some k)
    (hb : b.kind? = some k) (hm : m.kind? = some k) (hct : c.isTidy = true)
    (step : ∀ d, d.kind? = some k → d.isTidy = true → a ≤ d → b ≤ d → m ≤ d)
    (hac : a ≤ c) (hbc : b ≤ c) : m ≤ c := by
  rw [le_core_iff (isOptional_eq_false_of_kind (by simp [ha]))] at hac
  rw [le_core_iff (isOptional_eq_false_of_kind (by simp [hb]))] at hbc
  rw [le_core_iff (isOptional_eq_false_of_kind (by simp [hm]))]
  rcases kind_of_le ha hac (isOptional_core c) with hany | hk
  · exact hany ▸ le_any m
  · exact step c.core hk (isTidy_core hct) hac hbc

private theorem mergedFields_le {fields others bound : List Field}
    (hfields : (fields.map Prod.fst).Nodup) (hothers : (others.map Prod.fst).Nodup)
    (hbound : (bound.map Prod.fst).Nodup)
    (hle : ∀ f ∈ fields, ∀ g ∈ others, ∀ h ∈ bound, f.2 ≤ h.2 → g.2 ≤ h.2 → f.2.merge g.2 ≤ h.2)
    (ha : record fields ≤ record bound) (hb : record others ≤ record bound) :
    record (mergedFields fields others) ≤ record bound := by
  obtain ⟨hfields_le, hfields_lack⟩ := record_le_record.mp ha
  obtain ⟨hothers_le, hothers_lack⟩ := record_le_record.mp hb
  refine record_le_record.mpr ⟨fun m hm => ?_, fun h hh hfresh => ?_⟩
  · rcases (mem_mergedFields hfields hothers).mp hm with
      ⟨f, hf, g, hg, hname, rfl⟩ | ⟨f, hf, hname, rfl⟩ | ⟨g, hg, hname, rfl⟩
    · obtain ⟨h, hh, hhname, hfh⟩ := hfields_le f hf
      have hgh := le_of_record_le hbound hb hg hh (hhname.trans hname.symm)
      exact ⟨h, hh, hhname, hle f hf g hg h hh hfh hgh⟩
    · obtain ⟨h, hh, hhname, hfh⟩ := hfields_le f hf
      exact ⟨h, hh, hhname, makeOptional_le hfh (hothers_lack h hh (hhname ▸ hname))⟩
    · obtain ⟨h, hh, hhname, hgh⟩ := hothers_le g hg
      exact ⟨h, hh, hhname, makeOptional_le hgh (hfields_lack h hh (hhname ▸ hname))⟩
  · refine hfields_lack h hh fun hmem => hfresh ?_
    exact (mem_names_mergedFields hfields hothers).mpr (.inl hmem)

/-- The merge lies below every tidy shape that both shapes lie below. -/
theorem merge_le {a b c : Shape} (hat : a.isTidy = true) (hbt : b.isTidy = true)
    (hct : c.isTidy = true) (ha : a ≤ c) (hb : b ≤ c) : a.merge b ≤ c := by
  induction a, b using mergeInduction generalizing c with
  | unknownLeft b => rwa [merge_unknown_left]
  | unknownRight a => rwa [merge_unknown_right]
  | anyLeft b => rwa [merge_any_left]
  | anyRight a => rwa [merge_any_right]
  | marked a b ih =>
    rw [isTidy_optional_iff] at hat hbt
    rcases optional_le_iff.mp ha with rfl | ⟨d, rfl, ha⟩
    · exact le_any _
    · rw [isTidy_optional_iff] at hct
      rw [merge_optional_optional, optional_le_optional]
      exact ih hat.2 hbt.2 hct.2 ha (optional_le_optional.mp hb)
  | markedLeft a b hkind ih =>
    rw [isTidy_optional_iff] at hat
    rcases optional_le_iff.mp ha with rfl | ⟨d, rfl, ha⟩
    · exact le_any _
    · rw [isTidy_optional_iff] at hct
      rw [merge_optional_left hkind, optional_le_optional]
      exact ih hat.2 hbt hct.2 ha ((le_optional (isOptional_eq_false_of_kind hkind)).mp hb)
  | markedRight a b hkind ih =>
    rw [isTidy_optional_iff] at hbt
    rcases optional_le_iff.mp hb with rfl | ⟨d, rfl, hb⟩
    · exact le_any _
    · rw [isTidy_optional_iff] at hct
      rw [merge_optional_right hkind, optional_le_optional]
      exact ih hat hbt.2 hct.2 ((le_optional (isOptional_eq_false_of_kind hkind)).mp ha) hb
  | bools => rwa [merge_bool_bool]
  | ints r s =>
    rw [merge_int_int]
    -- The bound may be a range of doubles, around both ranges once these are rounded.
    refine le_of_same_kind rfl rfl rfl hct (fun d hd _ ha hb => ?_) ha hb
    cases d with
    | int t => exact Range.hull_within ha hb
    | float t => exact Range.hull_toBinary64_within ha hb
    | _ => simp [kind?] at hd
  | intFloat r s =>
    rw [merge_int_float]
    refine le_of_same_kind rfl rfl rfl hct (fun d hd _ ha hb => ?_) ha hb
    cases d with
    | int t => exact absurd hb Bool.false_ne_true
    | float t => exact Range.hull_within ha hb
    | _ => simp [kind?] at hd
  | floatInt r s =>
    rw [merge_float_int]
    refine le_of_same_kind rfl rfl rfl hct (fun d hd _ ha hb => ?_) ha hb
    cases d with
    | int t => exact absurd ha Bool.false_ne_true
    | float t => exact Range.hull_within ha hb
    | _ => simp [kind?] at hd
  | floats r s =>
    rw [merge_float_float]
    refine le_of_same_kind rfl rfl rfl hct (fun d hd _ ha hb => ?_) ha hb
    cases d with
    | int t => exact absurd ha Bool.false_ne_true
    | float t => exact Range.hull_within ha hb
    | _ => simp [kind?] at hd
  | texts r s =>
    rw [merge_text_text]
    refine le_of_same_kind rfl rfl rfl hct (fun d hd _ ha hb => ?_) ha hb
    cases d with
    | text t => exact Range.hull_within ha hb
    | _ => simp [kind?] at hd
  | lists r s a b ih =>
    rw [merge_list_list]
    refine le_of_same_kind rfl rfl rfl hct (fun d hd hdt ha hb => ?_) ha hb
    cases d with
    | list t d =>
      rw [list_le_list] at *
      exact ⟨Range.hull_within ha.1 hb.1, ih hat hbt (by simpa using hdt) ha.2 hb.2⟩
    | _ => simp [kind?] at hd
  | records fields others ih =>
    obtain ⟨hfields, hat⟩ := isTidy_record_iff.mp hat
    obtain ⟨hothers, hbt⟩ := isTidy_record_iff.mp hbt
    rw [merge_record_record]
    refine le_of_same_kind rfl rfl rfl hct (fun d hd hdt ha hb => ?_) ha hb
    cases d with
    | record bound =>
      obtain ⟨hbound, hdt⟩ := isTidy_record_iff.mp hdt
      refine mergedFields_le hfields hothers hbound ?_ ha hb
      exact fun f hf g hg h hh => ih f hf g hg (hat f hf) (hbt g hg) (hdt h hh)
    | _ => simp [kind?] at hd
  | foreigns x y => simp at hat
  | conflict a b k l hk hl hne =>
    rw [merge_conflict hk hl hne]
    exact any_le_of_conflict hk hl hne ha hb

theorem merge_le_iff {a b c : Shape} (ha : a.WellFormed) (hb : b.WellFormed)
    (hc : c.isTidy = true) : a.merge b ≤ c ↔ a ≤ c ∧ b ≤ c := by
  obtain ⟨hleft, hright⟩ := le_merge ha hb
  constructor
  · intro h
    exact ⟨le_trans hc hleft h, le_trans hc hright h⟩
  · rintro ⟨hac, hbc⟩
    exact merge_le ha.tidy hb.tidy hc hac hbc

/-- The merge of some shapes from left to right. -/
def around (shapes : List Shape) : Shape := shapes.foldl merge unknown

/-- What merges keep holds of the shape around some shapes if it holds of each. -/
theorem around_of_merge {p : Shape → Prop} (hunknown : p unknown)
    (hmerge : ∀ {a b : Shape}, p a → p b → p (a.merge b)) {shapes : List Shape}
    (h : ∀ s ∈ shapes, p s) : p (around shapes) :=
  List.foldlRecOn shapes merge hunknown fun _ ha b hb => hmerge ha (h b hb)

theorem isTidy_around {shapes : List Shape} (h : ∀ s ∈ shapes, s.isTidy = true) :
    (around shapes).isTidy = true :=
  around_of_merge (p := (isTidy · = true)) rfl isTidy_merge h

private theorem wellFormed_unknown : unknown.WellFormed := ⟨rfl, rfl⟩

theorem WellFormed.around {shapes : List Shape} (h : ∀ s ∈ shapes, s.WellFormed) :
    (around shapes).WellFormed :=
  around_of_merge wellFormed_unknown WellFormed.merge h

private theorem foldl_le_iff {shapes : List Shape} {s c : Shape} (hs : s.WellFormed)
    (h : ∀ t ∈ shapes, t.WellFormed) (hc : c.isTidy = true) :
    shapes.foldl merge s ≤ c ↔ s ≤ c ∧ ∀ t ∈ shapes, t ≤ c := by
  induction shapes generalizing s with
  | nil => simp
  | cons t rest ih =>
    obtain ⟨ht, hrest⟩ := List.forall_mem_cons.mp h
    rw [List.foldl_cons, ih (hs.merge ht) hrest, merge_le_iff hs ht hc, List.forall_mem_cons,
      and_assoc]

theorem around_le_iff {shapes : List Shape} {c : Shape} (h : ∀ s ∈ shapes, s.WellFormed)
    (hc : c.isTidy = true) : around shapes ≤ c ↔ ∀ s ∈ shapes, s ≤ c := by
  simp [around, foldl_le_iff wellFormed_unknown h hc]

theorem le_around {shapes : List Shape} (h : ∀ s ∈ shapes, s.WellFormed) {s : Shape}
    (hs : s ∈ shapes) : s ≤ around shapes := by
  have haround := WellFormed.around h
  exact (around_le_iff h haround.tidy).mp (le_refl_of_wellFormed haround) s hs

end JsonShape.Shape
