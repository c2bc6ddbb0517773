import JsonShape.Proofs.Inference.Limits

/-!
Which values a shape accepts, and the place of inference among the shapes that accept some values.
A tidy shape accepts a JSON value just when it lies above the shape of the value. So the inferred
shape accepts every value it was inferred from, and lies below every tidy shape that does.
-/

set_option autoImplicit false

namespace JsonShape

namespace Shape

mutual

/-- A shape accepts a value. A dictionary has no entries but those of its fields, and the fields
that it has no entry for accept null. -/
def accepts : Shape → Value → Bool
  | any, _ => true
  | bool, .bool _ => true
  | int r, .int n => Value.fitsInt64 n && r.contains n
  | float r, v => v.toBinary64?.any r.contains
  | text r, v => v.textLength?.any (r.contains ·)
  | list r item, .list items => r.contains items.length && items.all (item.accepts ·)
  | record fields, .dict entries =>
    entries.all (acceptsEntry fields ·) && acceptsWithout fields (entries.map Prod.fst)
  | optional _, .null => true
  | optional child, v => child.accepts v
  | _, _ => false

/-- Some field has the name of an entry and accepts its value. -/
def acceptsEntry : List (String × Shape) → Key × Value → Bool
  | [], _ => false
  | (name, s) :: rest, e => (e.1 = .text name && s.accepts e.2) || acceptsEntry rest e

/-- The fields whose names are not among some keys accept null. -/
def acceptsWithout : List (String × Shape) → List Key → Bool
  | [], _ => true
  | (name, s) :: rest, keys =>
    (.text name ∈ keys || s.accepts .null) && acceptsWithout rest keys

end

theorem acceptsEntry_iff {fields : List Field} {e : Key × Value} :
    acceptsEntry fields e = true ↔
      ∃ f ∈ fields, e.1 = .text f.1 ∧ f.2.accepts e.2 = true := by
  induction fields with
  | nil => simp [acceptsEntry]
  | cons f rest ih => simp [acceptsEntry, ih]

theorem acceptsWithout_iff {fields : List Field} {keys : List Key} :
    acceptsWithout fields keys = true ↔
      ∀ f ∈ fields, .text f.1 ∉ keys → f.2.accepts .null = true := by
  induction fields with
  | nil => simp [acceptsWithout]
  | cons f rest ih =>
    simp only [acceptsWithout, Bool.and_eq_true, Bool.or_eq_true, decide_eq_true_eq, ih,
      List.forall_mem_cons, or_iff_not_imp_left]

theorem accepts_list_iff {r : Range Int} {item : Shape} {items : List Value} :
    (list r item).accepts (.list items) = true ↔
      r.contains items.length = true ∧ ∀ v ∈ items, item.accepts v = true := by
  simp [accepts]

theorem accepts_dict_iff {fields : List Field} {entries : List (Key × Value)} :
    (record fields).accepts (.dict entries) = true ↔
      (∀ e ∈ entries, ∃ f ∈ fields, e.1 = .text f.1 ∧ f.2.accepts e.2 = true) ∧
        ∀ f ∈ fields, .text f.1 ∉ entries.map Prod.fst → f.2.accepts .null = true := by
  simp only [accepts, Bool.and_eq_true, List.all_eq_true, acceptsEntry_iff, acceptsWithout_iff]

theorem accepts_null (s : Shape) : s.accepts .null = s.isNullable := by
  cases s <;> simp [accepts, isNullable, Value.toBinary64?, Value.textLength?]

theorem accepts_optional {child : Shape} {v : Value} (hv : v ≠ .null) :
    (optional child).accepts v = child.accepts v := by
  cases v <;> simp_all [accepts]

private theorem shape_list_le_iff {items : List Value} {r : Range Int} {item : Shape}
    (hitem : item.isTidy = true) (hv : (Value.list items).isJson = true)
    (hn : (Value.list items).isNumeric = true)
    (ih : ∀ v ∈ items, v.shape ≤ item ↔ item.accepts v = true) :
    (Value.list items).shape ≤ list r item ↔ (list r item).accepts (.list items) = true := by
  have hshapes := Value.wellFormed_shapes (Value.isJson_list_iff.mp hv)
    (Value.isNumeric_list_iff.mp hn)
  rw [Value.shape_list, list_le_list, Range.point_within, around_le_iff hshapes hitem,
    List.forall_mem_map, accepts_list_iff]
  exact and_congr_right fun _ => forall₂_congr ih

private theorem shape_dict_le_iff {entries : List (Key × Value)} {fields : List Field}
    (htext : ∀ e ∈ entries, e.1.isText = true)
    (ih : ∀ f ∈ fields, ∀ e ∈ entries, e.2.shape ≤ f.2 ↔ f.2.accepts e.2 = true) :
    (Value.dict entries).shape ≤ record fields ↔
      (record fields).accepts (.dict entries) = true := by
  rw [Value.shape_dict, record_le_record, Value.forall_mem_entryFields, accepts_dict_iff]
  refine and_congr (forall₂_congr fun e he => exists_congr fun f => ?_)
    (forall₂_congr fun f hf => ?_)
  · apply and_congr_right
    intro hf
    rw [ih f hf e he, Key.eq_text_iff (htext e he), eq_comm]
  · rw [Value.mem_names_entryFields htext, accepts_null]

/-- A tidy shape accepts a JSON value just when it lies above the shape of the value. -/
theorem shape_le_iff_accepts {c : Shape} (hc : c.isTidy = true) {v : Value}
    (hv : v.isJson = true) (hn : v.isNumeric = true) : v.shape ≤ c ↔ c.accepts v = true := by
  -- The induction is on the shape: a mark comes off it, and the value below stays the same.
  induction c using nodeInduction generalizing v with
  | unknown =>
    rw [le_unknown_iff]
    simp [accepts, Value.shape_ne_unknown hv]
  | any => simp [accepts]
  | list r item ih =>
    cases v, hv using Value.jsonInduction with
    | list items hv =>
      rw [isTidy_list] at hc
      refine shape_list_le_iff hc hv hn fun v hmem => ?_
      exact ih hc (Value.isJson_list_iff.mp hv v hmem) (Value.isNumeric_list_iff.mp hn v hmem)
    | _ => simp_all [accepts, le_def, within, Value.shape]
  | record fields ih =>
    obtain ⟨-, hc⟩ := isTidy_record_iff.mp hc
    cases v, hv using Value.jsonInduction with
    | dict entries hv =>
      obtain ⟨⟨htext, -⟩, hvalues⟩ := Value.isJson_dict_iff.mp hv
      refine shape_dict_le_iff htext fun f hf e he => ?_
      exact ih f hf (hc f hf) (hvalues e he) (Value.isNumeric_dict_iff.mp hn e he)
    | _ => simp_all [accepts, le_def, within, Value.shape]
  | optional c ih =>
    rw [isTidy_optional_iff] at hc
    by_cases hnull : v = .null
    · subst hnull
      simp [Value.shape, accepts]
    · rw [le_optional (Value.isOptional_shape hv hnull), accepts_optional hnull]
      exact ih hc.2 hv hn
  | foreign x => simp at hc
  | bool =>
    cases v, hv using Value.jsonInduction <;> simp_all [accepts, le_def, within, Value.shape]
  | int r =>
    cases v, hv using Value.jsonInduction <;>
      simp_all [accepts, le_def, within, Value.shape, Range.point_within]
  | float r =>
    cases v, hv using Value.jsonInduction <;>
      simp_all [accepts, le_def, within, Value.shape, Range.point_within, Value.toBinary64?]
  | text r =>
    cases v, hv using Value.jsonInduction <;>
      simp_all [accepts, le_def, within, Value.shape, Range.point_within, Value.textLength?]

end Shape

/-- The inferred shape accepts every value that it was inferred from. -/
theorem accepts_of_on_inferMany {vs : List Value} (hjson : ∀ v ∈ vs, v.isJson = true)
    (hnumeric : ∀ v ∈ vs, v.isNumeric = true) {merges reached : Nat} {s : Shape}
    (h : (inferMany vs).on merges = (.ok s, reached)) : ∀ v ∈ vs, s.accepts v = true := by
  intro v hv
  have hshapes := Value.wellFormed_shapes hjson hnumeric
  obtain rfl := eq_around_of_on_inferMany h
  rw [← Shape.shape_le_iff_accepts (Shape.WellFormed.around hshapes).tidy (hjson v hv)
    (hnumeric v hv)]
  exact Shape.le_around hshapes (List.mem_map_of_mem hv)

/-- Two records that lack each other's fields, with lists of mixed numbers and of nested records. -/
def looseRecords : List Value :=
  [.dict [(.text "a", .list [.int 1, .decimal (.finite false 25 (-1)), .null]),
      (.text "b", .list [.dict [(.text "x", .int (-7))], .dict []])],
    .dict [(.text "b", .list [.dict [(.text "x", .text "s"), (.text "y", .list [])]]),
      (.text "c", .null)]]

/-- The shape around these records. -/
def looseShape : Shape :=
  .record [("a", .optional (.list (.point 3)
      (.optional (.float ⟨.ofInt 1, .ofCode false (Binary64.codeOfDecimal 25 (-1))⟩)))),
    ("b", .list ⟨1, 2⟩ (.record [("x", .optional .any),
      ("y", .optional (.list (.point 0) .unknown))])),
    ("c", .optional .unknown)]

theorem on_inferMany_looseRecords : (inferMany looseRecords).on 0 = (.ok looseShape, 13) := rfl

theorem accepts_of_on_inferMany_looseRecords :
    (∀ v ∈ looseRecords, v.isJson = true) ∧ (∀ v ∈ looseRecords, v.isNumeric = true) ∧
      (inferMany looseRecords).on 0 = (.ok looseShape, 13) ∧
        ∀ v ∈ looseRecords, looseShape.accepts v = true :=
  ⟨by decide, by decide, on_inferMany_looseRecords,
    accepts_of_on_inferMany (by decide) (by decide) on_inferMany_looseRecords⟩

/-- The inferred shape lies below every tidy shape that accepts the same values, and there is one
unless some value exceeds the limits of inference. -/
theorem inferMany_le_of_accepts {vs : List Value} (hjson : ∀ v ∈ vs, v.isJson = true)
    (hnumeric : ∀ v ∈ vs, v.isNumeric = true) {c : Shape} (hc : c.isTidy = true)
    (haccepts : ∀ v ∈ vs, c.accepts v = true) (merges : Nat) :
    (∃ s reached, (inferMany vs).on merges = (.ok s, reached) ∧ s ≤ c) ∨
      (∃ v ∈ vs, ¬ v.InLimits Value.nestingRoom) ∧
        ∃ fault reached, (inferMany vs).on merges = (.error fault, reached) := by
  have hleast : Shape.around (vs.map Value.shape) ≤ c := by
    rw [Shape.around_le_iff (Value.wellFormed_shapes hjson hnumeric) hc, List.forall_mem_map]
    intro v hv
    exact (Shape.shape_le_iff_accepts hc (hjson v hv) (hnumeric v hv)).mpr (haccepts v hv)
  rcases hrun : (inferMany vs).on merges with ⟨fault | s, reached⟩
  · refine .inr ⟨?_, fault, reached, rfl⟩
    by_contra hlimits
    push Not at hlimits
    obtain ⟨reached', hok⟩ := on_inferMany_of_inLimits hlimits merges
    rw [hok] at hrun
    cases hrun
  · exact .inl ⟨s, reached, rfl, (eq_around_of_on_inferMany hrun).symm ▸ hleast⟩

/-- A shape wider than need be: an optional mark, a bound and a field more than were observed. -/
def wideShape : Shape :=
  .record [("b", .list ⟨0, 5⟩ (.optional (.record [("y", .optional .any), ("x", .any)]))),
    ("a", .any), ("d", .optional .bool), ("c", .optional .unknown)]

theorem inferMany_looseRecords_le :
    (∀ v ∈ looseRecords, v.isJson = true) ∧ (∀ v ∈ looseRecords, v.isNumeric = true) ∧
      wideShape.isTidy = true ∧ (∀ v ∈ looseRecords, wideShape.accepts v = true) ∧
        (inferMany looseRecords).on 0 = (.ok looseShape, 13) ∧ looseShape ≤ wideShape := by
  have haccepts : ∀ v ∈ looseRecords, wideShape.accepts v = true := by decide
  refine ⟨by decide, by decide, by decide, haccepts, on_inferMany_looseRecords, ?_⟩
  rcases inferMany_le_of_accepts (by decide) (by decide) (by decide) haccepts 0 with
    ⟨s, reached, hrun, hle⟩ | ⟨-, fault, reached, hrun⟩
  · rw [on_inferMany_looseRecords] at hrun
    cases hrun
    exact hle
  · rw [on_inferMany_looseRecords] at hrun
    cases hrun

end JsonShape
