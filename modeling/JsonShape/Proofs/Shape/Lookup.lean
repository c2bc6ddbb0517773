import JsonShape.Proofs.Shape.Fields

/-!
Shapes under names. A record with distinct names is settled by what it has under each name, and the
merge of two records is, name by name, the merge of what the two have there.
-/

set_option autoImplicit false

namespace JsonShape.Shape

theorem get?_eq_none {row : List Field} {name : String} (h : name ∉ row.map Prod.fst) :
    (record row).get? name = none := by
  simp only [get?, Option.map_eq_none_iff, List.find?_eq_none]
  intro f hf heq
  exact h (List.mem_map.mpr ⟨f, hf, by simpa using heq⟩)

theorem get?_of_mem {row : List Field} (hnames : (row.map Prod.fst).Nodup) {f : Field}
    (hf : f ∈ row) : (record row).get? f.1 = some f.2 := by
  obtain ⟨g, hg⟩ : ∃ g, row.find? (·.1 == f.1) = some g := by
    rw [← Option.isSome_iff_exists, List.find?_isSome]
    exact ⟨f, hf, by simp⟩
  have hname : g.1 = f.1 := by simpa using List.find?_some hg
  have heq : g = f := List.inj_on_of_nodup_map hnames (List.mem_of_find?_eq_some hg) hf hname
  simp [get?, hg, heq]

theorem mem_of_get? {row : List Field} {name : String} {s : Shape}
    (h : (record row).get? name = some s) : (name, s) ∈ row := by
  simp only [get?, Option.map_eq_some_iff] at h
  obtain ⟨f, hfind, rfl⟩ := h
  have hname : f.1 = name := by simpa using List.find?_some hfind
  exact hname ▸ List.mem_of_find?_eq_some hfind

theorem get?_eq_some_iff {row : List Field} (hnames : (row.map Prod.fst).Nodup) {name : String}
    {s : Shape} : (record row).get? name = some s ↔ (name, s) ∈ row :=
  ⟨mem_of_get?, get?_of_mem hnames⟩

theorem get?_eq_none_iff {row : List Field} {name : String} :
    (record row).get? name = none ↔ name ∉ row.map Prod.fst := by
  refine ⟨fun h hname => ?_, get?_eq_none⟩
  obtain ⟨f, hf, hfname⟩ := List.mem_map.mp hname
  simp only [get?, Option.map_eq_none_iff, List.find?_eq_none] at h
  exact h f hf (by simpa using hfname)

theorem get?_cons (f : Field) (rest : List Field) (name : String) :
    (record (f :: rest)).get? name = if f.1 = name then some f.2 else (record rest).get? name := by
  simp only [get?, List.find?_cons]
  by_cases hname : f.1 = name
  · simp [hname]
  · have hskip : (f.1 == name) = false := by simpa using hname
    simp [hskip, hname]

theorem get?_map (g : Shape → Shape) (row : List Field) (name : String) :
    (record (row.map (Prod.map id g))).get? name = ((record row).get? name).map g := by
  simp only [get?, List.find?_map, Option.map_map]
  rfl

theorem get?_perm {row other : List Field} (hnames : (row.map Prod.fst).Nodup)
    (h : row.Perm other) (name : String) :
    (record row).get? name = (record other).get? name := by
  have hother : (other.map Prod.fst).Nodup := (h.map Prod.fst).nodup_iff.mp hnames
  ext s
  rw [get?_eq_some_iff hnames, get?_eq_some_iff hother, h.mem_iff]

/-- What the merge of two records has under a name, from what the two have there. -/
def mergeCells : Option Shape → Option Shape → Option Shape
  | some a, some b => some (a.merge b)
  | some a, none => some a.makeOptional
  | none, some b => some b.makeOptional
  | none, none => none

theorem get?_mergedFields {fields others : List Field} (hfields : (fields.map Prod.fst).Nodup)
    (hothers : (others.map Prod.fst).Nodup) (name : String) :
    (record (mergedFields fields others)).get? name =
      mergeCells ((record fields).get? name) ((record others).get? name) := by
  have hmerged := nodup_mergedFields hfields hothers
  cases hleft : (record fields).get? name with
  | none =>
    have hfresh := get?_eq_none_iff.mp hleft
    cases hright : (record others).get? name with
    | none =>
      refine get?_eq_none fun hname => ?_
      rcases (mem_names_mergedFields hfields hothers).mp hname with h | h
      · exact hfresh h
      · exact get?_eq_none_iff.mp hright h
    | some b =>
      refine (get?_eq_some_iff hmerged).mpr ((mem_mergedFields hfields hothers).mpr ?_)
      exact .inr (.inr ⟨(name, b), mem_of_get? hright, hfresh, rfl⟩)
  | some a =>
    cases hright : (record others).get? name with
    | none =>
      refine (get?_eq_some_iff hmerged).mpr ((mem_mergedFields hfields hothers).mpr ?_)
      exact .inr (.inl ⟨(name, a), mem_of_get? hleft, get?_eq_none_iff.mp hright, rfl⟩)
    | some b =>
      refine (get?_eq_some_iff hmerged).mpr ((mem_mergedFields hfields hothers).mpr ?_)
      exact .inl ⟨(name, a), mem_of_get? hleft, (name, b), mem_of_get? hright, rfl, rfl⟩

end JsonShape.Shape
