import JsonShape.Proofs.Inference.Outcome
import JsonShape.Proofs.Shape.Columns
import Mathlib.Data.Set.List

/-!
The shape around values that merge into a record. Nulls put no more than a mark on it, and all other
values are dictionaries, whose fields it merges column by column.
-/

set_option autoImplicit false

namespace JsonShape

/-- The value of the first entry of a name. -/
def Value.get? (name : String) : Value → Option Value
  | dict entries => (entries.find? (·.1 = .text name)).map Prod.snd
  | _ => none

namespace Value

theorem get?_shape {v : Value} (hv : v.isJson = true) (name : String) :
    v.shape.get? name = (v.get? name).map shape := by
  cases v, hv using jsonInduction with
  | dict entries hv =>
    obtain ⟨⟨htext, -⟩, -⟩ := isJson_dict_iff.mp hv
    have hfind : entries.find? (·.1.name == name) = entries.find? (·.1 = .text name) := by
      refine List.find?_congr fun e he => ?_
      simp only [Key.eq_text_iff (htext e he), Bool.beq_eq_decide_eq]
    rw [shape_dict, entryFields_eq_map]
    simp only [Shape.get?, get?, List.find?_map, Option.map_map, Function.comp_def, hfind]
  | _ => simp_all [shape, get?, Shape.get?]

theorem isJson_of_get? {v u : Value} (hv : v.isJson = true) {name : String}
    (h : v.get? name = some u) : u.isJson = true := by
  cases v with
  | dict entries =>
    simp only [get?, Option.map_eq_some_iff] at h
    obtain ⟨e, he, rfl⟩ := h
    exact (isJson_dict_iff.mp hv).2 e (List.mem_of_find?_eq_some he)
  | _ => simp [get?] at h

/-- Null leaves a mark and nothing else. -/
def isNull : Value → Bool
  | null => true
  | _ => false

/-- The values that are not null. -/
def nonNull (vs : List Value) : List Value := vs.filter (!·.isNull)

theorem mem_nonNull {vs : List Value} {v : Value} : v ∈ nonNull vs ↔ v ∈ vs ∧ v ≠ null := by
  rw [nonNull, List.mem_filter]
  cases v <;> simp [isNull]

/-- Nulls put at most a mark on the merge of the shapes of other values. -/
theorem upToMark_around (vs : List Value) :
    (Shape.around (vs.map shape)).UpToMark (Shape.around ((nonNull vs).map shape)) := by
  unfold nonNull
  induction vs using List.reverseRecOn with
  | nil => exact .inl rfl
  | append_singleton vs v ih =>
    rw [List.map_append, List.map_singleton, Shape.around_concat, List.filter_append]
    by_cases hnull : v = null
    · subst hnull
      simpa [isNull, shape] using (Shape.merge_null _).trans ih
    · have hkept : [v].filter (!·.isNull) = [v] := by
        cases v <;> simp_all [isNull]
      rw [hkept, List.map_append, List.map_singleton, Shape.around_concat]
      exact ih.merge v.shape_ne_any

theorem isOptional_around_nonNull {vs : List Value} (hvs : ∀ v ∈ vs, v.isJson = true) :
    (Shape.around ((nonNull vs).map shape)).isOptional = false := by
  refine Shape.isOptional_around ?_
  rw [List.forall_mem_map]
  intro v hv
  obtain ⟨hv, hnull⟩ := mem_nonNull.mp hv
  exact isOptional_shape (hvs v hv) hnull

/-- Values whose shapes merge into one of a kind are all of this kind, if none is null. -/
theorem kind?_shape_of_around {vs : List Value} (hvs : ∀ v ∈ vs, v.isJson = true) {k : Shape.Kind}
    (h : (Shape.around (vs.map shape)).kind? = some k) : ∀ v ∈ vs, v.shape.kind? = some k := by
  intro v hv
  have hseen := Shape.SeenOnly.of_around (.inr h) _ (List.mem_map_of_mem hv)
  exact hseen.resolve_left (shape_ne_unknown (hvs v hv))

theorem eq_map_dict {vs : List Value} (hvs : ∀ v ∈ vs, v.isJson = true)
    (h : (Shape.around (vs.map shape)).kind? = some .record) :
    ∃ dicts : List (List (Key × Value)), vs = dicts.map dict := by
  have hkind := kind?_shape_of_around hvs h
  have hdict : ∀ v ∈ vs, ∃ entries, dict entries = v := by
    intro v hv
    have hv' := hkind v hv
    cases v, hvs v hv using jsonInduction <;> simp_all [shape, Shape.kind?]
  have hrange : vs ∈ Set.range (List.map dict) := by
    rw [Set.range_list_map]
    exact hdict
  obtain ⟨dicts, hdicts⟩ := hrange
  exact ⟨dicts, hdicts.symm⟩

theorem map_shape_dict (dicts : List (List (Key × Value))) :
    (dicts.map dict).map shape = (dicts.map entryFields).map Shape.record := by
  rw [List.map_map, List.map_map]
  exact List.map_congr_left fun entries _ => shape_dict entries

/-- Dictionaries merge into the table of their entries. -/
theorem around_dicts {dicts : List (List (Key × Value))} (hne : dicts ≠ [])
    (hjson : ∀ entries ∈ dicts, (dict entries).isJson = true) :
    ∃ fields, Shape.around ((dicts.map dict).map shape) = .record fields ∧
      Shape.IsTable (dicts.map entryFields) fields := by
  have hrows : dicts.map entryFields ≠ [] := by simpa using hne
  have hnames : ∀ r ∈ dicts.map entryFields, (r.map Prod.fst).Nodup := by
    rw [List.forall_mem_map]
    intro entries hentries
    obtain ⟨⟨htext, hkeys⟩, -⟩ := isJson_dict_iff.mp (hjson entries hentries)
    exact nodup_entryFields htext hkeys
  have hany : ∀ r ∈ dicts.map entryFields, ∀ f ∈ r, f.2 ≠ .any := by
    rw [List.forall_mem_map]
    intro entries _
    exact forall_mem_entryFields.mpr fun e _ => e.2.shape_ne_any
  rw [map_shape_dict]
  exact Shape.around_records hrows hnames hany

/-- The fields of a record around some values form the table of the values' entries. -/
theorem isTable_of_around {vs : List Value} (hvs : ∀ v ∈ vs, v.isJson = true)
    {fields : List Field} (h : Shape.around (vs.map shape) = .record fields) :
    ∃ dicts : List (List (Key × Value)),
      vs = dicts.map dict ∧ Shape.IsTable (dicts.map entryFields) fields := by
  obtain ⟨dicts, rfl⟩ := eq_map_dict hvs (by rw [h]; rfl)
  refine ⟨dicts, rfl, ?_⟩
  rw [List.forall_mem_map] at hvs
  have hne : dicts ≠ [] := by
    rintro rfl
    simp [Shape.around] at h
  obtain ⟨found, haround, htable⟩ := around_dicts hne hvs
  rw [haround] at h
  cases h
  exact htable

theorem column_entryFields {dicts : List (List (Key × Value))}
    (hjson : ∀ entries ∈ dicts, (dict entries).isJson = true) (name : String) :
    Shape.column name (dicts.map entryFields) =
      ((dicts.map dict).filterMap (·.get? name)).map shape := by
  simp only [Shape.column, List.filterMap_map, List.map_filterMap, Function.comp_def]
  apply List.filterMap_congr
  intro entries hentries
  rw [← get?_shape (hjson entries hentries), shape_dict]

end Value

end JsonShape
