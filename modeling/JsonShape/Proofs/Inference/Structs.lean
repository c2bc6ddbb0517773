import JsonShape.Proofs.Inference.Columns
import JsonShape.Proofs.Schema
import JsonShape.Proofs.Zig.Structs
import Mathlib.Data.List.Dedup

/-!
The structs written for dictionaries. The outermost one has a field for every key that some
dictionary has, and no struct has two fields of one identifier.
-/

set_option autoImplicit false

namespace JsonShape

namespace Shape

/-- The text of a tidy shape nests no deeper than its schema. -/
theorem height_lt_schemaRoom {s : Shape} (hs : s.isTidy = true) : s.height < s.schemaRoom := by
  induction s using nodeInduction with
  | list r item ih =>
    exact (Nat.succ_le_of_lt (ih (by simpa using hs))).trans_lt (schemaRoom_item_lt r item)
  | record fields ih =>
    have hfields : fieldsHeight fields ≤ (record fields).schemaRoom - 2 := by
      refine fieldsHeight_le_iff.mpr fun f hf => ?_
      have hheight := ih f hf ((isTidy_record_iff.mp hs).2 f hf)
      have hfield := schemaRoom_field_lt hf
      omega
    have hroom : 2 ≤ (record fields).schemaRoom := by
      rw [schemaRoom_of_not_isOptional rfl]
      simp only [levels]
      omega
    simp only [height]
    omega
  | optional child ih =>
    rw [isTidy_optional_iff] at hs
    exact (Nat.succ_le_of_lt (ih hs.2)).trans_lt (schemaRoom_child_lt hs.1)
  | foreign node => simp at hs
  | _ => exact schemaRoom_pos _

end Shape

namespace Value

/-- The names of the fields around some dictionaries are their keys, each once. -/
theorem length_of_isTable {dicts : List (List (Key × Value))}
    (hjson : ∀ entries ∈ dicts, (dict entries).isJson = true) {fields : List Field}
    (h : Shape.IsTable (dicts.map entryFields) fields) :
    fields.length = (dicts.flatMap (·.map Prod.fst)).dedup.length := by
  have hkeys : ((fields.map Prod.fst).map Key.text).Perm
      (dicts.flatMap (·.map Prod.fst)).dedup := by
    have hnodup : ((fields.map Prod.fst).map Key.text).Nodup :=
      h.nodup.map fun _ _ heq => Key.text.inj heq
    refine (List.perm_ext_iff_of_nodup hnodup (List.nodup_dedup _)).mpr fun key => ?_
    rw [List.mem_map, List.mem_dedup, List.mem_flatMap]
    constructor
    · rintro ⟨name, hname, rfl⟩
      exact (exists_mem_names_iff hjson name).mp ((h.names name).mp hname)
    · rintro ⟨entries, hentries, hkey⟩
      obtain ⟨e, he, rfl⟩ := List.mem_map.mp hkey
      have htext := Key.eq_text_name ((isJson_dict_iff.mp (hjson entries hentries)).1.1 e he)
      have hname := (exists_mem_names_iff hjson e.1.name).mpr ⟨entries, hentries, htext ▸ hkey⟩
      exact ⟨e.1.name, (h.names _).mpr hname, htext.symm⟩
  simpa using hkeys.length_eq

end Value

/-- Of dictionaries with distinct text keys, the outermost struct has a field for each key that one
of them has. No identifier repeats in it, or in a struct inside it. -/
theorem structs?_write_of_dicts {dicts : List (List (Key × Value))} (hne : dicts ≠ [])
    (hkeyed : ∀ entries ∈ dicts, (Value.dict entries).isKeyed = true) {merges reached : Nat}
    {s : Shape} (h : (inferMany (dicts.map .dict)).on merges = (.ok s, reached)) :
    ∃ text outer inner, Zig.write {} none s = .ok text ∧
      Zig.structs? text = some (outer :: inner) ∧ outer.Nodup ∧
        outer.length = (dicts.flatMap (·.map Prod.fst)).dedup.length ∧
          ∀ row ∈ inner, row.Nodup := by
  have hjson : ∀ entries ∈ dicts, (Value.dict entries).isJson = true := fun entries hentries =>
    (Value.succeeds_of_on_inferOnto h _ (List.mem_map_of_mem hentries)).isJson
      (hkeyed entries hentries)
  have hvalues : ∀ v ∈ dicts.map Value.dict, v.isJson = true := List.forall_mem_map.mpr hjson
  obtain ⟨fields, haround, htable⟩ := Value.around_dicts hne hjson
  obtain rfl := (eq_around_of_on_inferMany h).trans haround
  have htidy : (Shape.record fields).isTidy = true :=
    haround ▸ Shape.isTidy_around (Value.isTidy_shapes hvalues)
  have hlevels : (Shape.record fields).levels ≤ Value.nestingRoom := by
    rw [← haround]
    refine (Shape.FitsLevels.around (List.forall_mem_map.mpr fun v hv => ?_)).levels_le
    exact (Value.succeeds_of_on_inferOnto h v hv).fitsLevels
  have hroom : (Shape.record fields).height < Shape.nestingRoom := by
    have hneeded := (Shape.height_lt_schemaRoom htidy).trans_le (Shape.schemaRoom_le _)
    have hfits := nestingRoom_fits
    omega
  have hspelled : Zig.Spelling.isOneLine {} = true := by decide
  obtain ⟨text, htext, hread⟩ :=
    Zig.structs?_write hspelled (Shape.isGenuine_of_isTidy htidy) hroom
  have hnodup := List.forall_mem_cons.mp (Zig.nodup_of_mem_rowsOf htidy)
  refine ⟨text, _, _, htext, hread, hnodup.1, ?_, hnodup.2⟩
  rw [List.length_map, Value.length_of_isTable hjson htable]

/-- Two dictionaries whose keys look like escapes, identifiers, keywords and parts of structs. -/
def trickyDicts : List (List (Key × Value)) :=
  [[(.text "a", .int 1), (.text "@\"a\"", .null), (.text "\n", .bool true), (.text "\\n", .null)],
    [(.text "\\n", .list [.dict [(.text "\x7d", .null), (.text "struct \x7b", .text "")]]),
      (.text "while", .int 2), (.text "a: i64,", .dict []), (.text "a", .null)]]

theorem structs?_write_of_trickyDicts :
    trickyDicts ≠ [] ∧ (∀ entries ∈ trickyDicts, (Value.dict entries).isKeyed = true) ∧
      ∃ s reached, (inferMany (trickyDicts.map .dict)).on 0 = (.ok s, reached) ∧
        ∃ text outer inner, Zig.write {} none s = .ok text ∧
          Zig.structs? text = some (outer :: inner) ∧ outer.Nodup ∧ outer.length = 6 ∧
            ∀ row ∈ inner, row.Nodup := by
  have hne : trickyDicts ≠ [] := List.cons_ne_nil _ _
  have hkeyed : ∀ entries ∈ trickyDicts, (Value.dict entries).isKeyed = true := by decide
  have hlimits : ∀ v ∈ trickyDicts.map Value.dict, v.isJson = true ∧
      v.depth ≤ Value.nestingRoom ∧ v.isWritable = true := by decide
  obtain ⟨reached, hrun⟩ := on_inferMany_of_inLimits (fun v hv =>
    ⟨(hlimits v hv).1, (hlimits v hv).2.1, (hlimits v hv).2.2⟩) 0
  obtain ⟨text, outer, inner, htext, hread, hnodup, hlength, hinner⟩ :=
    structs?_write_of_dicts hne hkeyed hrun
  have hkeys : (trickyDicts.flatMap (·.map Prod.fst)).dedup.length = 6 := by decide
  exact ⟨hne, hkeyed, _, reached, hrun, text, outer, inner, htext, hread, hnodup,
    hlength.trans hkeys, hinner⟩

end JsonShape
