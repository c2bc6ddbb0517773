import JsonShape.Proofs.Shape.Lookup
import JsonShape.Proofs.Shape.Marks

/-!
Records merged column by column. The merge of some rows of fields is a record with the names of all
rows, and each of its fields is the merge of the cells under its name, marked if a row lacks it.
-/

set_option autoImplicit false

namespace JsonShape.Shape

/-- The cells that rows of fields have under a name. -/
def column (name : String) (rows : List (List Field)) : List Shape :=
  rows.filterMap fun row => (record row).get? name

/-- The merge of a column, marked if some row has no cell in it. -/
def columnShape (name : String) (rows : List (List Field)) : Shape :=
  if ∀ row ∈ rows, name ∈ row.map Prod.fst then around (column name rows)
  else (around (column name rows)).makeOptional

theorem upToMark_columnShape (name : String) (rows : List (List Field)) :
    (columnShape name rows).UpToMark (around (column name rows)) := by
  unfold columnShape
  split_ifs
  · exact .inl rfl
  · exact .inr rfl

theorem isOptional_columnShape {name : String} {rows : List (List Field)} {row : List Field}
    (hrow : row ∈ rows) (h : name ∉ row.map Prod.fst) :
    (columnShape name rows).isOptional = true := by
  have hlacks : ¬ ∀ r ∈ rows, name ∈ r.map Prod.fst := fun hall => h (hall row hrow)
  rw [columnShape, if_neg hlacks]
  exact isOptional_makeOptional _

theorem columnShape_concat_of_notMem {name : String} (rows : List (List Field)) {row : List Field}
    (h : name ∉ row.map Prod.fst) :
    columnShape name (rows ++ [row]) = (columnShape name rows).makeOptional := by
  have hcolumn : column name (rows ++ [row]) = column name rows := by
    simp [column, get?_eq_none h]
  have hlacks : ¬ ∀ r ∈ rows ++ [row], name ∈ r.map Prod.fst := fun hall =>
    h (hall row (by simp))
  rw [columnShape, if_neg hlacks, hcolumn, columnShape]
  split_ifs
  · rfl
  · rw [makeOptional_makeOptional]

theorem columnShape_concat_of_mem (rows : List (List Field)) {row : List Field}
    (hnames : (row.map Prod.fst).Nodup) {f : Field} (hf : f ∈ row) (hany : f.2 ≠ any) :
    columnShape f.1 (rows ++ [row]) = (columnShape f.1 rows).merge f.2 := by
  have hcolumn : column f.1 (rows ++ [row]) = column f.1 rows ++ [f.2] := by
    simp [column, get?_of_mem hnames hf]
  have hcell : f.1 ∈ row.map Prod.fst := List.mem_map_of_mem hf
  have hall : (∀ r ∈ rows ++ [row], f.1 ∈ r.map Prod.fst) ↔ ∀ r ∈ rows, f.1 ∈ r.map Prod.fst := by
    simp only [List.forall_mem_append, List.forall_mem_singleton, hcell, and_true]
  simp only [columnShape, hall, hcolumn, around_concat]
  split_ifs
  · rfl
  · rw [merge_makeOptional_left hany]

/-- A record has the names of some rows, and under each name the shape of its column. -/
structure IsTable (rows : List (List Field)) (fields : List Field) : Prop where
  nodup : (fields.map Prod.fst).Nodup
  names : ∀ name, name ∈ fields.map Prod.fst ↔ ∃ row ∈ rows, name ∈ row.map Prod.fst
  shapes : ∀ f ∈ fields, f.2 = columnShape f.1 rows

private theorem columnShape_of_fresh {name : String} {rows : List (List Field)} (hne : rows ≠ [])
    (hfresh : ∀ row ∈ rows, name ∉ row.map Prod.fst) :
    columnShape name rows = unknown.makeOptional := by
  obtain ⟨row, hrow⟩ := List.exists_mem_of_ne_nil rows hne
  have hlacks : ¬ ∀ r ∈ rows, name ∈ r.map Prod.fst := fun hall => hfresh row hrow (hall row hrow)
  have hcolumn : column name rows = [] := by
    simp only [column, List.filterMap_eq_nil_iff]
    exact fun r hr => get?_eq_none (hfresh r hr)
  rw [columnShape, if_neg hlacks, hcolumn]
  rfl

private theorem isTable_singleton {row : List Field} (hnames : (row.map Prod.fst).Nodup) :
    IsTable [row] row := by
  refine ⟨hnames, by simp, fun f hf => ?_⟩
  have hcell : ∀ r ∈ [row], f.1 ∈ r.map Prod.fst := by
    rw [List.forall_mem_singleton]
    exact List.mem_map_of_mem hf
  rw [columnShape, if_pos hcell]
  simp [column, get?_of_mem hnames hf, around]

private theorem IsTable.concat {rows : List (List Field)} {fields row : List Field}
    (h : IsTable rows fields) (hne : rows ≠ []) (hnames : (row.map Prod.fst).Nodup)
    (hany : ∀ f ∈ row, f.2 ≠ any) : IsTable (rows ++ [row]) (mergedFields fields row) := by
  refine ⟨nodup_mergedFields h.nodup hnames, fun name => ?_, fun f hf => ?_⟩
  · rw [mem_names_mergedFields h.nodup hnames, h.names]
    simp
  · rcases (mem_mergedFields h.nodup hnames).mp hf with
      ⟨a, ha, b, hb, hname, rfl⟩ | ⟨a, ha, hname, rfl⟩ | ⟨b, hb, hname, rfl⟩
    · have hcolumn := columnShape_concat_of_mem rows hnames hb (hany b hb)
      rw [hname, ← h.shapes a ha] at hcolumn
      exact hcolumn.symm
    · have hcolumn := columnShape_concat_of_notMem rows hname
      rw [← h.shapes a ha] at hcolumn
      exact hcolumn.symm
    -- The column of a new name is empty so far, and marked, since there are rows already.
    · have hfresh : ∀ r ∈ rows, b.1 ∉ r.map Prod.fst := fun r hr hmem =>
        hname ((h.names b.1).mpr ⟨r, hr, hmem⟩)
      have hcolumn := columnShape_concat_of_mem rows hnames hb (hany b hb)
      rw [columnShape_of_fresh hne hfresh, merge_makeOptional_left (hany b hb),
        merge_unknown_left] at hcolumn
      exact hcolumn.symm

/-- Rows without any shapes merge into their table. -/
theorem around_records {rows : List (List Field)} (hne : rows ≠ [])
    (hnames : ∀ row ∈ rows, (row.map Prod.fst).Nodup) (hany : ∀ row ∈ rows, ∀ f ∈ row, f.2 ≠ any) :
    ∃ fields, around (rows.map record) = record fields ∧ IsTable rows fields := by
  induction rows using List.reverseRecOn with
  | nil => exact absurd rfl hne
  | append_singleton rows row ih =>
    simp only [List.forall_mem_append, List.forall_mem_singleton] at hnames hany
    rw [List.map_append, List.map_singleton, around_concat]
    cases rows with
    | nil => exact ⟨row, by simp [around], isTable_singleton hnames.2⟩
    | cons first rest =>
      obtain ⟨fields, haround, htable⟩ := ih (by simp) hnames.1 hany.1
      refine ⟨mergedFields fields row, ?_, htable.concat (by simp) hnames.2 hany.2⟩
      rw [haround, merge_record_record]

end JsonShape.Shape
