import JsonShape.Proofs.Shape.Associativity

/-!
Merging again what has been merged. A tidy shape merged with itself stays as it is. The merge of two
tidy shapes, merged with either of them again, keeps its fields, their order and all ranges; only
any shapes may lose their marks, for an any shape on the right absorbs the mark that a field got
because the other record lacks it.
-/

set_option autoImplicit false

namespace JsonShape.Shape

mutual

/-- The second shape is the first one, but that any shapes may have lost the marks on them. -/
inductive Bares : Shape → Shape → Prop
  | refl (s : Shape) : Bares s s
  | mark : Bares (optional any) any
  | list {a b : Shape} (r : Range Int) (h : Bares a b) : Bares (list r a) (list r b)
  | optional {a b : Shape} (h : Bares a b) : Bares (optional a) (optional b)
  | record {fields others : List (String × Shape)} (h : BaresFields fields others) :
      Bares (record fields) (record others)

/-- The same for fields one by one, under the same names. -/
inductive BaresFields : List (String × Shape) → List (String × Shape) → Prop
  | nil : BaresFields [] []
  | cons (name : String) {a b : Shape} {rest others : List (String × Shape)} (h : Bares a b)
      (hrest : BaresFields rest others) : BaresFields ((name, a) :: rest) ((name, b) :: others)

end

theorem Bares.of_eq {a b : Shape} (h : b = a) : a.Bares b := h ▸ .refl b

theorem baresFields_map {fields : List Field} {g : Field → Field}
    (h : ∀ f ∈ fields, (g f).1 = f.1 ∧ f.2.Bares (g f).2) : BaresFields fields (fields.map g) := by
  induction fields with
  | nil => exact .nil
  | cons f rest ih =>
    obtain ⟨⟨hname, hshape⟩, hrest⟩ := List.forall_mem_cons.mp h
    have hfield : g f = (f.1, (g f).2) := Prod.ext hname rfl
    rw [List.map_cons, hfield]
    exact .cons f.1 hshape (ih hrest)

/-- A tidy shape merged with itself stays as it is. -/
theorem merge_self {s : Shape} (hs : s.isTidy = true) : s.merge s = s := by
  induction s using nodeInduction with
  | int r => rw [merge_int_int, Range.hull_self]
  | float r => rw [merge_float_float, Range.hull_self]
  | text r => rw [merge_text_text, Range.hull_self]
  | list r item ih => rw [merge_list_list, Range.hull_self, ih (by simpa using hs)]
  | record fields ih =>
    obtain ⟨hnames, hfields⟩ := isTidy_record_iff.mp hs
    rw [merge_record_record,
      mergedFields_of_subset hnames hnames fun f hf => List.mem_map_of_mem hf]
    have hsame : ∀ f ∈ fields, pairedField fields f = id f := fun f hf => by
      rw [pairedField_of_mem hnames hf rfl, ih f hf (hfields f hf), id]
    rw [List.map_congr_left hsame, List.map_id]
  | optional child ih =>
    rw [isTidy_optional_iff] at hs
    rw [merge_optional_optional, ih hs.2]
  | foreign x => simp at hs
  | _ => rfl

/-- A field that the other record lacks got a mark, which an any shape absorbs. -/
theorem bares_makeOptional_merge {s : Shape} (hs : s.isTidy = true) :
    s.makeOptional.Bares (s.makeOptional.merge s) := by
  by_cases hany : s = any
  · subst hany
    exact .mark
  · exact .of_eq (by rw [merge_makeOptional_left hany, merge_self hs])

/-- A record that has all names of another, and a mark on each field of its own, keeps them in a
merge with the other if it does so field by field. -/
theorem bares_merge_record {merged row : List Field} (hmerged : (merged.map Prod.fst).Nodup)
    (hrow : (row.map Prod.fst).Nodup) (hnames : ∀ g ∈ row, g.1 ∈ merged.map Prod.fst)
    (hpair : ∀ h ∈ merged, ∀ g ∈ row, g.1 = h.1 → h.2.Bares (h.2.merge g.2))
    (halone : ∀ h ∈ merged, h.1 ∉ row.map Prod.fst → h.2.isOptional = true) :
    (record merged).Bares ((record merged).merge (record row)) := by
  rw [merge_record_record, mergedFields_of_subset hmerged hrow hnames]
  refine .record (baresFields_map fun h hh => ⟨name_pairedField row h, ?_⟩)
  by_cases hname : h.1 ∈ row.map Prod.fst
  · obtain ⟨g, hg, hgname⟩ := List.mem_map.mp hname
    rw [pairedField_of_mem hrow hg hgname]
    exact hpair h hh g hg hgname
  · rw [pairedField_of_notMem hname]
    exact .of_eq (makeOptional_of_isOptional (halone h hh hname))

/-- A record merged with another one, and again with the first, if common fields behave so. -/
theorem bares_merge_record_left {fields others : List Field}
    (hfields : (record fields).isTidy = true) (hothers : (record others).isTidy = true)
    (hcommon : ∀ f ∈ fields, ∀ g ∈ others, (f.2.merge g.2).Bares ((f.2.merge g.2).merge f.2)) :
    (record (mergedFields fields others)).Bares
      ((record (mergedFields fields others)).merge (record fields)) := by
  obtain ⟨hfields, ha⟩ := isTidy_record_iff.mp hfields
  obtain ⟨hothers, -⟩ := isTidy_record_iff.mp hothers
  refine bares_merge_record (nodup_mergedFields hfields hothers) hfields (fun f hf => ?_)
    (fun h hh f hf heq => ?_) fun h hh hfresh => ?_
  · exact (mem_names_mergedFields hfields hothers).mpr (.inl (List.mem_map_of_mem hf))
  · rcases (mem_mergedFields hfields hothers).mp hh with
      ⟨f', hf', g, hg, -, rfl⟩ | ⟨f', hf', -, rfl⟩ | ⟨g, hg, hnot, rfl⟩
    · obtain rfl := List.inj_on_of_nodup_map hfields hf hf' heq
      exact hcommon f hf g hg
    · obtain rfl := List.inj_on_of_nodup_map hfields hf hf' heq
      exact bares_makeOptional_merge (ha f hf)
    · exact absurd (heq ▸ List.mem_map_of_mem hf) hnot
  · rcases (mem_mergedFields hfields hothers).mp hh with
      ⟨f', hf', g, hg, -, rfl⟩ | ⟨f', hf', -, rfl⟩ | ⟨g, hg, hnot, rfl⟩
    · exact absurd (List.mem_map_of_mem hf') hfresh
    · exact absurd (List.mem_map_of_mem hf') hfresh
    · exact isOptional_makeOptional g.2

/-- A record merged with another one, and again with the second, if common fields behave so. -/
theorem bares_merge_record_right {fields others : List Field}
    (hfields : (record fields).isTidy = true) (hothers : (record others).isTidy = true)
    (hcommon : ∀ f ∈ fields, ∀ g ∈ others, (f.2.merge g.2).Bares ((f.2.merge g.2).merge g.2)) :
    (record (mergedFields fields others)).Bares
      ((record (mergedFields fields others)).merge (record others)) := by
  obtain ⟨hfields, -⟩ := isTidy_record_iff.mp hfields
  obtain ⟨hothers, hb⟩ := isTidy_record_iff.mp hothers
  refine bares_merge_record (nodup_mergedFields hfields hothers) hothers (fun g hg => ?_)
    (fun h hh g hg heq => ?_) fun h hh hfresh => ?_
  · exact (mem_names_mergedFields hfields hothers).mpr (.inr (List.mem_map_of_mem hg))
  · rcases (mem_mergedFields hfields hothers).mp hh with
      ⟨f, hf, g', hg', hgname, rfl⟩ | ⟨f, hf, hnot, rfl⟩ | ⟨g', hg', -, rfl⟩
    · obtain rfl := List.inj_on_of_nodup_map hothers hg hg' (heq.trans hgname.symm)
      exact hcommon f hf g hg
    · exact absurd (heq ▸ List.mem_map_of_mem hg) hnot
    · obtain rfl := List.inj_on_of_nodup_map hothers hg hg' heq
      exact bares_makeOptional_merge (hb g hg)
  · rcases (mem_mergedFields hfields hothers).mp hh with
      ⟨f, hf, g', hg', hgname, rfl⟩ | ⟨f, hf, hnot, rfl⟩ | ⟨g', hg', -, rfl⟩
    · exact absurd (hgname ▸ List.mem_map_of_mem hg') hfresh
    · exact isOptional_makeOptional f.2
    · exact absurd (List.mem_map_of_mem hg') hfresh

private theorem bares_of_ranges {α : Type} (c : Range α → Shape) {m x y : Range α}
    (h : x = m ∧ y = m) : (c m).Bares (c x) ∧ (c m).Bares (c y) :=
  h.imp (fun h => .of_eq (congrArg c h)) fun h => .of_eq (congrArg c h)

/-- The merge of two tidy shapes stays as it is in a merge with either of them, but for marks on any
shapes. -/
theorem bares_merge_merge {a b : Shape} (ha : a.isTidy = true) (hb : b.isTidy = true) :
    (a.merge b).Bares ((a.merge b).merge a) ∧ (a.merge b).Bares ((a.merge b).merge b) := by
  induction a, b using mergeInduction with
  | unknownLeft b =>
    rw [merge_unknown_left, merge_unknown_right, merge_self hb]
    exact ⟨.refl b, .refl b⟩
  | unknownRight a =>
    rw [merge_unknown_right, merge_unknown_right, merge_self ha]
    exact ⟨.refl a, .refl a⟩
  | anyLeft b => exact ⟨.refl any, .refl any⟩
  | anyRight a =>
    rw [merge_any_right]
    exact ⟨.refl any, .refl any⟩
  | marked a b ih =>
    rw [isTidy_optional_iff] at ha hb
    exact (ih ha.2 hb.2).imp .optional .optional
  | markedLeft a b hkind ih =>
    rw [isTidy_optional_iff] at ha
    rw [merge_optional_left hkind, merge_optional_left hkind]
    exact (ih ha.2 hb).imp .optional .optional
  | markedRight a b hkind ih =>
    rw [isTidy_optional_iff] at hb
    rw [merge_optional_right hkind, merge_optional_left hkind]
    exact (ih ha hb.2).imp .optional .optional
  | bools => exact ⟨.refl bool, .refl bool⟩
  | ints r s => exact bares_of_ranges int (Range.hull_hull r s)
  | intFloat r s => exact bares_of_ranges float (Range.binary64_hull_hull r.toBinary64 s)
  | floatInt r s => exact bares_of_ranges float (Range.binary64_hull_hull r s.toBinary64)
  | floats r s => exact bares_of_ranges float (Range.binary64_hull_hull r s)
  | texts r s => exact bares_of_ranges text (Range.hull_hull r s)
  | lists r s a b ih =>
    obtain ⟨hleft, hright⟩ := Range.hull_hull r s
    rw [isTidy_list] at ha hb
    rw [merge_list_list, merge_list_list, merge_list_list, hleft, hright]
    exact (ih ha hb).imp (.list _) (.list _)
  | records fields others ih =>
    have hpair : ∀ f ∈ fields, ∀ g ∈ others, (f.2.merge g.2).Bares ((f.2.merge g.2).merge f.2) ∧
        (f.2.merge g.2).Bares ((f.2.merge g.2).merge g.2) := fun f hf g hg =>
      ih f hf g hg ((isTidy_record_iff.mp ha).2 f hf) ((isTidy_record_iff.mp hb).2 g hg)
    rw [merge_record_record]
    exact ⟨bares_merge_record_left ha hb fun f hf g hg => (hpair f hf g hg).1,
      bares_merge_record_right ha hb fun f hf g hg => (hpair f hf g hg).2⟩
  | foreigns x y => simp at ha
  | conflict a b k l hk hl hne =>
    rw [merge_conflict hk hl hne]
    exact ⟨.refl any, .refl any⟩

section Runs

/-- A tidy shape merged with itself stays as it is, and the merge of two tidy shapes stays as it is
in a merge with either of them, but for marks on any shapes. Only a shape with too many levels for
the room is not merged again, and none where an integer of more than 64 bits is too large to
widen. -/
theorem on_unify_again {a b : Shape} (ha : a.isTidy = true) (hb : b.isTidy = true) (merges : Nat) :
    ((∃ reached, (a.unify a).on merges = (.ok a, reached)) ∨
      a.Outgrows ∧ (∃ reached, (a.unify a).on merges = (.error .tooDeep, reached)) ∨
      a.isNarrow = false ∧ ∃ reached, (a.unify a).on merges = (.error .overflow, reached)) ∧
    ∀ c, c = a ∨ c = b →
      (∃ s t between reached, (a.unify b).on merges = (.ok s, between) ∧
        (s.unify c).on between = (.ok t, reached) ∧ s.Bares t) ∨
      c.Outgrows ∧
        (∃ reached, (a.unify b >>= (·.unify c)).on merges = (.error .tooDeep, reached)) ∨
      ¬ (a.isNarrow = true ∧ b.isNarrow = true) ∧
        ∃ reached, (a.unify b >>= (·.unify c)).on merges = (.error .overflow, reached) := by
  refine ⟨?_, fun c hc => ?_⟩
  · rcases on_unify_of_isTidy ha ha merges with hok | ⟨hroom, herror⟩ | ⟨hwide, herror⟩
    · rw [merge_self ha] at hok
      exact .inl hok
    · exact .inr (.inl ⟨(outgrow_of_lt_mergeRoom hroom).1, herror⟩)
    · exact .inr (.inr ⟨eq_false_of_ne_true fun hnarrow => hwide ⟨hnarrow, hnarrow⟩, herror⟩)
  · have hagain : c.isTidy = true ∧ (a.merge b).Bares ((a.merge b).merge c) := by
      rcases hc with rfl | rfl
      · exact ⟨ha, (bares_merge_merge ha hb).1⟩
      · exact ⟨hb, (bares_merge_merge ha hb).2⟩
    rcases on_unify_of_isTidy ha hb merges with
      ⟨between, hfirst⟩ | ⟨hroom, reached, hfirst⟩ | ⟨hwide, reached, hfirst⟩
    · rcases on_unify_of_isTidy (isTidy_merge ha hb) hagain.1 between with
        ⟨reached, hsecond⟩ | ⟨hroom, reached, hsecond⟩ | ⟨hwide, reached, hsecond⟩
      · exact .inl ⟨_, _, between, reached, hfirst, hsecond, hagain.2⟩
      · exact .inr (.inl ⟨(outgrow_of_lt_mergeRoom hroom).2, reached,
          by simp only [Tally.on_bind, hfirst, hsecond]⟩)
      · refine .inr (.inr ⟨fun hnarrow => hwide ⟨isNarrow_merge hnarrow.1 hnarrow.2, ?_⟩, reached,
          by simp only [Tally.on_bind, hfirst, hsecond]⟩)
        rcases hc with rfl | rfl
        · exact hnarrow.1
        · exact hnarrow.2
    · have hdeep : c.Outgrows := by
        rcases hc with rfl | rfl
        · exact (outgrow_of_lt_mergeRoom hroom).1
        · exact (outgrow_of_lt_mergeRoom hroom).2
      exact .inr (.inl ⟨hdeep, reached, by simp only [Tally.on_bind, hfirst]⟩)
    · exact .inr (.inr ⟨hwide, reached, by simp only [Tally.on_bind, hfirst]⟩)

/-- A record with an any shape at a name of its own, and a bound that is NaN. -/
def openRecord : Shape := record [("x", any), ("y", float ⟨.nan, .ofInt 3⟩)]

/-- A record with another name of its own, in front of the one that both have. -/
def listedRecord : Shape := record [("w", list ⟨0, 2⟩ (optional any)), ("y", int ⟨-4, 5⟩)]

/-- The merge of the two records, with some shape at the first name. -/
def openListedRecord (x : Shape) : Shape :=
  record [("x", x), ("y", float ⟨.nan, .ofInt 5⟩), ("w", optional (list ⟨0, 2⟩ (optional any)))]

theorem on_unify_again_openRecord :
    openRecord.isTidy = true ∧ listedRecord.isTidy = true ∧
      (openRecord.unify listedRecord).on 0 = (.ok (openListedRecord (optional any)), 2) ∧
        ((openListedRecord (optional any)).unify openRecord).on 2 =
          (.ok (openListedRecord any), 5) ∧
            (openListedRecord (optional any)).Bares (openListedRecord any) := by
  have hopen : openRecord.isTidy = true := by decide
  have hlisted : listedRecord.isTidy = true := by decide
  have hfirst : (openRecord.unify listedRecord).on 0 =
      (.ok (openListedRecord (optional any)), 2) := rfl
  have hsecond : ((openListedRecord (optional any)).unify openRecord).on 2 =
      (.ok (openListedRecord any), 5) := rfl
  refine ⟨hopen, hlisted, hfirst, hsecond, ?_⟩
  rcases (on_unify_again hopen hlisted 0).2 openRecord (.inl rfl) with
    ⟨s, t, between, reached, hs, ht, hbares⟩ | ⟨hdeep, -⟩ | ⟨hwide, -⟩
  · cases hfirst.symm.trans hs
    cases hsecond.symm.trans ht
    exact hbares
  · exact absurd hdeep (by unfold Outgrows; decide)
  · exact absurd (by decide) hwide

end Runs

end JsonShape.Shape
