import JsonShape.Proofs.Inference.Records
import JsonShape.Proofs.Inference.Room

/-!
Dictionaries inferred column by column. The shape around some dictionaries is a record with the keys
of all of them, and the field of a key has the shape around the values under that key, marked if
some dictionary lacks it, wherever that one stands.
-/

set_option autoImplicit false

namespace JsonShape

namespace Value

/-- The values that dictionaries have under a name, in order. -/
def cells (name : String) (dicts : List (List (Key × Value))) : List Value :=
  (dicts.map dict).filterMap (·.get? name)

theorem InLimits.get? {room : Nat} {v u : Value} (hv : v.InLimits room) {name : String}
    (h : v.get? name = some u) : u.InLimits room := by
  cases v with
  | dict entries =>
    obtain ⟨inner, rfl, hentries⟩ := hv.entries
    simp only [Value.get?, Option.map_eq_some_iff] at h
    obtain ⟨e, he, rfl⟩ := h
    exact (hentries e (List.mem_of_find?_eq_some he)).mono (Nat.le_succ inner)
  | _ => simp [Value.get?] at h

theorem inLimits_cells {dicts : List (List (Key × Value))}
    (h : ∀ entries ∈ dicts, (dict entries).InLimits nestingRoom) (name : String) :
    ∀ v ∈ cells name dicts, v.InLimits nestingRoom := by
  intro v hv
  obtain ⟨d, hd, hget⟩ := List.mem_filterMap.mp hv
  obtain ⟨entries, hentries, rfl⟩ := List.mem_map.mp hd
  exact (h entries hentries).get? hget

/-- A dictionary of JSON values of which inference finds shapes has integers that can be written. -/
theorem isWritable_dict {entries : List (Key × Value)} (hjson : (dict entries).isJson = true)
    {room : Nat} (h : ∀ e ∈ entries, e.2.Succeeds room) : (dict entries).isWritable = true := by
  simp only [isWritable, everywhere, isWritableNode, Bool.true_and, everywhereEntries_iff]
  exact fun e he => ((h e he).inLimits ((isJson_dict_iff.mp hjson).2 e he)).writable

/-- A name stands in every row of a table just when every dictionary has it as a key. -/
theorem forall_mem_names_iff {dicts : List (List (Key × Value))}
    (hjson : ∀ entries ∈ dicts, (dict entries).isJson = true) (name : String) :
    (∀ row ∈ dicts.map entryFields, name ∈ row.map Prod.fst) ↔
      ∀ entries ∈ dicts, .text name ∈ entries.map Prod.fst := by
  rw [List.forall_mem_map]
  refine forall₂_congr fun entries hentries => ?_
  exact mem_names_entryFields (isJson_dict_iff.mp (hjson entries hentries)).1.1

theorem exists_mem_names_iff {dicts : List (List (Key × Value))}
    (hjson : ∀ entries ∈ dicts, (dict entries).isJson = true) (name : String) :
    (∃ row ∈ dicts.map entryFields, name ∈ row.map Prod.fst) ↔
      ∃ entries ∈ dicts, .text name ∈ entries.map Prod.fst := by
  have hkeys (entries : List (Key × Value)) (hentries : entries ∈ dicts)  :
      name ∈ (entryFields entries).map Prod.fst ↔ .text name ∈ entries.map Prod.fst :=
    mem_names_entryFields (isJson_dict_iff.mp (hjson entries hentries)).1.1
  constructor
  · rintro ⟨row, hrow, hname⟩
    obtain ⟨entries, hentries, rfl⟩ := List.mem_map.mp hrow
    exact ⟨entries, hentries, (hkeys entries hentries).mp hname⟩
  · rintro ⟨entries, hentries, hname⟩
    exact ⟨_, List.mem_map_of_mem hentries, (hkeys entries hentries).mpr hname⟩

theorem columnShape_entryFields {dicts : List (List (Key × Value))}
    (hjson : ∀ entries ∈ dicts, (dict entries).isJson = true) (name : String) :
    Shape.columnShape name (dicts.map entryFields) =
      if ∀ entries ∈ dicts, .text name ∈ entries.map Prod.fst then
        Shape.around ((cells name dicts).map shape)
      else (Shape.around ((cells name dicts).map shape)).makeOptional := by
  simp only [Shape.columnShape, forall_mem_names_iff hjson, column_entryFields hjson, cells]

end Value

/-- Dictionaries are inferred column by column: a field has the shape around the values under its
name, marked if some dictionary lacks the name. This fails only for a dictionary that is too deep
although its values are not. -/
theorem inferMany_dicts {dicts : List (List (Key × Value))} (hne : dicts ≠ [])
    (hjson : ∀ entries ∈ dicts, (Value.dict entries).isJson = true)
    (hvalues : ∀ entries ∈ dicts, ∀ e ∈ entries, ∃ s reached, (infer e.2).on 0 = (.ok s, reached))
    (merges : Nat) :
    (∃ fields reached, (inferMany (dicts.map .dict)).on merges = (.ok (.record fields), reached) ∧
      (fields.map Prod.fst).Nodup ∧
      (∀ name, name ∈ fields.map Prod.fst ↔
        ∃ entries ∈ dicts, .text name ∈ entries.map Prod.fst) ∧
      ∀ f ∈ fields, ∃ t counted,
        (inferMany (Value.cells f.1 dicts)).on 0 = (.ok t, counted) ∧
          f.2 = if ∀ entries ∈ dicts, .text f.1 ∈ entries.map Prod.fst then t
            else t.makeOptional) ∨
      (∃ entries ∈ dicts, Value.nestingRoom < (Value.dict entries).depth) ∧
        ∃ reached, (inferMany (dicts.map .dict)).on merges = (.error .tooDeep, reached) := by
  have hwritable : ∀ entries ∈ dicts, (Value.dict entries).isWritable = true := by
    intro entries hentries
    have hsucceeds : ∀ e ∈ entries, e.2.Succeeds Value.nestingRoom :=
      fun e he => ⟨0, hvalues entries hentries e he⟩
    exact Value.isWritable_dict (hjson entries hentries) hsucceeds
  rcases on_inferMany_of_isWritable (List.forall_mem_map.mpr hjson)
    (List.forall_mem_map.mpr hwritable) merges with hlimits | hdeep
  · obtain ⟨fields, haround, htable⟩ := Value.around_dicts hne hjson
    obtain ⟨reached, hrun⟩ := on_inferMany_of_inLimits hlimits merges
    rw [haround] at hrun
    refine .inl ⟨fields, reached, hrun, htable.nodup, fun name => ?_, fun f hf => ?_⟩
    · rw [htable.names, Value.exists_mem_names_iff hjson]
    · obtain ⟨counted, hcells⟩ := on_inferMany_of_inLimits
        (Value.inLimits_cells (List.forall_mem_map.mp hlimits) f.1) 0
      refine ⟨_, counted, hcells, ?_⟩
      rw [htable.shapes f hf, Value.columnShape_entryFields hjson]
  · obtain ⟨⟨v, hv, hdepth⟩, hfails⟩ := hdeep
    obtain ⟨entries, hentries, rfl⟩ := List.mem_map.mp hv
    exact .inr ⟨⟨entries, hentries, hdepth⟩, hfails⟩

/-- Dictionaries that lack keys in front, between and behind; under one key stand two kinds and a
null. -/
def patchyDicts : List (List (Key × Value)) :=
  [[(.text "id", .int 1), (.text "b", .text "s")],
    [(.text "b", .bool true), (.text "c", .null), (.text "id", .int 2)],
    [(.text "c", .list [.int 2]), (.text "b", .null), (.text "id", .int (-3))],
    [(.text "d", .dict [(.text "x", .int 1)]), (.text "id", .null)]]

/-- The fields of the record around these dictionaries. -/
def patchyFields : List Field :=
  [("id", .optional (.int ⟨-3, 2⟩)), ("b", .optional .any),
    ("c", .optional (.list (.point 1) (.int (.point 2)))),
    ("d", .optional (.record [("x", .int (.point 1))]))]

theorem on_inferMany_patchyDicts :
    (inferMany (patchyDicts.map .dict)).on 0 = (.ok (.record patchyFields), 13) := rfl

theorem inferMany_patchyDicts :
    patchyDicts ≠ [] ∧ (∀ entries ∈ patchyDicts, (Value.dict entries).isJson = true) ∧
      (∀ entries ∈ patchyDicts, ∀ e ∈ entries, ∃ s reached,
        (infer e.2).on 0 = (.ok s, reached)) ∧
      (patchyFields.map Prod.fst).Nodup ∧
      (∀ name, name ∈ patchyFields.map Prod.fst ↔
        ∃ entries ∈ patchyDicts, .text name ∈ entries.map Prod.fst) ∧
      ∀ f ∈ patchyFields, ∃ t counted,
        (inferMany (Value.cells f.1 patchyDicts)).on 0 = (.ok t, counted) ∧
          f.2 = if ∀ entries ∈ patchyDicts, .text f.1 ∈ entries.map Prod.fst then t
            else t.makeOptional := by
  have hne : patchyDicts ≠ [] := List.cons_ne_nil _ _
  have hjson : ∀ entries ∈ patchyDicts, (Value.dict entries).isJson = true := by decide
  have hlimits : ∀ entries ∈ patchyDicts, ∀ e ∈ entries, e.2.isJson = true ∧
      e.2.depth ≤ Value.nestingRoom ∧ e.2.isWritable = true := by decide
  have hvalues : ∀ entries ∈ patchyDicts, ∀ e ∈ entries, ∃ s reached,
      (infer e.2).on 0 = (.ok s, reached) := by
    intro entries hentries e he
    obtain ⟨hvalue, hdepth, hwritable⟩ := hlimits entries hentries e he
    have hfinds := Value.InLimits.finds le_rfl ⟨hvalue, hdepth, hwritable⟩
    exact ⟨_, hfinds 0⟩
  refine ⟨hne, hjson, hvalues, ?_⟩
  rcases inferMany_dicts hne hjson hvalues 0 with
    ⟨fields, reached, hrun, htable⟩ | ⟨-, reached, hrun⟩
  · rw [on_inferMany_patchyDicts] at hrun
    cases hrun
    exact htable
  · rw [on_inferMany_patchyDicts] at hrun
    cases hrun

end JsonShape
