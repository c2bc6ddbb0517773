import JsonShape.Inference
import JsonShape.Proofs.Shape.Join
import JsonShape.Proofs.Tally
import JsonShape.Proofs.Value

/-!
What inference finds when nothing goes wrong: the shape of a value by its kind, and the merge of
such shapes from left to right. Counting, room for nesting and faults have no part in it.
-/

set_option autoImplicit false

namespace JsonShape

/-- The name that a key gives to a field, however long it is. -/
def Key.name : Key → String
  | text s => s
  | int n => toString n
  | bool b => if b then "True" else "False"
  | null => "None"
  | float x => x.text floatStyle

namespace Value

mutual

/-- The shape of a value, for a value that has one. -/
def shape : Value → Shape
  | null => .optional .unknown
  | bool _ => .bool
  | int n => if fitsInt64 n then .int (.point n) else .text (.point (toString n).length)
  | float x => .float (.point x)
  | decimal d => d.toBinary64?.elim .unknown fun x => .float (.point x)
  | text s => .text (.point s.utf8ByteSize)
  | list items => .list (.point items.length) (shapeOnto .unknown items)
  | dict entries => .record (entryFields entries)
  | illFormedText _ | foreign _ => .unknown

/-- A shape merged with those of further values. -/
def shapeOnto : Shape → List Value → Shape
  | s, [] => s
  | s, v :: rest => shapeOnto (s.merge v.shape) rest

/-- The fields of a dictionary. -/
def entryFields : List (Key × Value) → List (String × Shape)
  | [] => []
  | (key, v) :: rest => (key.name, v.shape) :: entryFields rest

end

theorem shapeOnto_eq_foldl (s : Shape) (vs : List Value) :
    shapeOnto s vs = (vs.map shape).foldl Shape.merge s := by
  induction vs generalizing s with
  | nil => rfl
  | cons v rest ih => exact ih _

theorem entryFields_eq_map (entries : List (Key × Value)) :
    entryFields entries = entries.map fun e => (e.1.name, e.2.shape) := by
  induction entries with
  | nil => rfl
  | cons e rest ih => simp only [entryFields, ih, List.map_cons]

theorem shape_list (items : List Value) :
    (list items).shape = .list (.point items.length) (Shape.around (items.map shape)) := by
  simp only [shape, shapeOnto_eq_foldl, Shape.around]

theorem shape_dict (entries : List (Key × Value)) :
    (dict entries).shape = .record (entryFields entries) := by
  simp only [shape]

theorem forall_mem_entryFields {entries : List (Key × Value)} {p : Field → Prop} :
    (∀ f ∈ entryFields entries, p f) ↔ ∀ e ∈ entries, p (e.1.name, e.2.shape) := by
  rw [entryFields_eq_map, List.forall_mem_map]

end Value

theorem Key.eq_text_name {key : Key} (h : key.isText = true) : key = .text key.name := by
  cases key <;> simp_all [isText, name]

theorem Key.eq_text_iff {key : Key} (h : key.isText = true) {name : String} :
    key = .text name ↔ key.name = name := by
  cases key <;> simp_all [isText, Key.name]

namespace Value

theorem mem_names_entryFields {entries : List (Key × Value)}
    (htext : ∀ e ∈ entries, e.1.isText = true) {name : String} :
    name ∈ (entryFields entries).map Prod.fst ↔ .text name ∈ entries.map Prod.fst := by
  simp only [entryFields_eq_map, List.mem_map, exists_exists_and_eq_and]
  exact exists_congr fun e => and_congr_right fun he => (Key.eq_text_iff (htext e he)).symm

theorem nodup_entryFields {entries : List (Key × Value)}
    (htext : ∀ e ∈ entries, e.1.isText = true) (hnodup : (entries.map Prod.fst).Nodup) :
    ((entryFields entries).map Prod.fst).Nodup := by
  have hnames : (entryFields entries).map Prod.fst = (entries.map Prod.fst).map Key.name := by
    simp only [entryFields_eq_map, List.map_map, Function.comp_def]
  rw [hnames]
  apply hnodup.map_on
  intro key hkey other hother heq
  obtain ⟨e, he, rfl⟩ := List.mem_map.mp hkey
  obtain ⟨d, hd, rfl⟩ := List.mem_map.mp hother
  rw [Key.eq_text_name (htext e he), Key.eq_text_name (htext d hd), heq]

theorem isTidy_shape {v : Value} (hv : v.isJson = true) : v.shape.isTidy = true := by
  induction v, hv using jsonInduction with
  | narrow n hn | wide n hn => simp [shape, hn]
  | decimal d _ x hx => simp [shape, hx]
  | list items _ ih =>
    rw [shape_list, Shape.isTidy_list]
    exact Shape.isTidy_around (List.forall_mem_map.mpr ih)
  | dict entries hentries ih =>
    obtain ⟨⟨htext, hnodup⟩, -⟩ := isJson_dict_iff.mp hentries
    rw [shape_dict]
    exact Shape.isTidy_record_iff.mpr
      ⟨nodup_entryFields htext hnodup, forall_mem_entryFields.mpr ih⟩
  | _ => rfl

theorem isTidy_shapes {vs : List Value} (hvs : ∀ v ∈ vs, v.isJson = true) :
    ∀ s ∈ vs.map shape, s.isTidy = true :=
  List.forall_mem_map.mpr fun v hv => isTidy_shape (hvs v hv)

theorem wellFormed_shape {v : Value} (hv : v.isJson = true) (hn : v.isNumeric = true) :
    v.shape.WellFormed := by
  refine ⟨isTidy_shape hv, ?_⟩
  induction v, hv using jsonInduction with
  | narrow n hfits | wide n hfits => simp [shape, hfits]
  | float x =>
    have hx : x.isNumber = true := by
      simpa [isNumeric, everywhere, isNumericNode] using hn
    simp [shape, Range.isNumeric, Range.point, hx]
  | decimal d _ x hd =>
    have hx : x.isNumber = true := by
      simpa [isNumeric, everywhere, isNumericNode, hd] using hn
    simp [shape, hd, Range.isNumeric, Range.point, hx]
  | list items hitems ih =>
    rw [shape_list, Shape.isNumeric_list]
    refine (Shape.WellFormed.around (List.forall_mem_map.mpr fun v hmem => ?_)).numeric
    exact ⟨isTidy_shape (isJson_list_iff.mp hitems v hmem),
      ih v hmem (isNumeric_list_iff.mp hn v hmem)⟩
  | dict entries _ ih =>
    rw [shape_dict]
    refine Shape.isNumeric_record_iff.mpr (forall_mem_entryFields.mpr fun e he => ?_)
    exact ih e he (isNumeric_dict_iff.mp hn e he)
  | _ => rfl

theorem wellFormed_shapes {vs : List Value} (hjson : ∀ v ∈ vs, v.isJson = true)
    (hnumeric : ∀ v ∈ vs, v.isNumeric = true) : ∀ s ∈ vs.map shape, s.WellFormed :=
  List.forall_mem_map.mpr fun v hv => wellFormed_shape (hjson v hv) (hnumeric v hv)

theorem shape_ne_unknown {v : Value} (hv : v.isJson = true) : v.shape ≠ .unknown := by
  cases v, hv using jsonInduction <;> simp_all [shape]

theorem isOptional_shape {v : Value} (hv : v.isJson = true) (hnull : v ≠ .null) :
    v.shape.isOptional = false := by
  cases v, hv using jsonInduction <;> simp_all [shape, Shape.isOptional]

theorem shape_ne_any (v : Value) : v.shape ≠ .any := by
  cases v with
  | int n =>
    simp only [shape]
    split_ifs
    · simp
    · simp
  | decimal d =>
    simp only [shape]
    cases d.toBinary64?
    · simp
    · simp
  | _ => simp [shape]

end Value

open Tally

theorem digits?_of_lt {n : Int} (h : n.natAbs < 10 ^ digitLimit) :
    digits? n = some (toString n) := by
  rw [digits?, Nat.pow_eq, if_neg (Nat.not_le.mpr h)]

theorem digits?_of_le {n : Int} (h : 10 ^ digitLimit ≤ n.natAbs) : digits? n = none := by
  rw [digits?, Nat.pow_eq, if_pos h]

theorem intText_of_lt {n : Int} (h : n.natAbs < 10 ^ digitLimit) :
    intText n = pure (toString n) := by
  rw [intText, digits?_of_lt h]
  rfl

theorem intText_of_le {n : Int} (h : 10 ^ digitLimit ≤ n.natAbs) :
    intText n = throw .tooManyDigits := by
  rw [intText, digits?_of_le h]
  rfl

theorem eq_of_on_intText {n : Int} {s : String} {merges reached : Nat}
    (h : (intText n).on merges = (.ok s, reached)) : s = toString n ∧ merges = reached := by
  rcases Nat.lt_or_ge n.natAbs (10 ^ digitLimit) with hlt | hle
  · rw [intText_of_lt hlt] at h
    exact ⟨eq_of_on_pure h, (on_pure_eq_ok.mp h).2⟩
  · rw [intText_of_le hle, on_throw] at h
    cases h

theorem Key.eq_name_of_on_label {key : Key} {s : String} {merges reached : Nat}
    (h : key.label.on merges = (.ok s, reached)) : s = key.name := by
  cases key with
  | int n => exact (eq_of_on_intText h).1
  | _ =>
    exact eq_of_on_pure h

namespace Value

/-- A value of which inference finds a shape has no other one, in whatever room. -/
def Settled (v : Value) : Prop :=
  ∀ {room merges reached : Nat} {s : Shape},
    (v.infer room).on merges = (.ok s, reached) → s = v.shape

theorem eq_foldl_of_on_inferOnto {vs : List Value} (hvs : ∀ v ∈ vs, v.Settled)
    {room merges reached : Nat} {s t : Shape}
    (h : (inferOnto room s vs).on merges = (.ok t, reached)) :
    t = (vs.map shape).foldl Shape.merge s := by
  induction vs generalizing s merges with
  | nil =>
    simp only [inferOnto, on_pure, Prod.mk.injEq, Except.ok.injEq] at h
    exact h.1.symm
  | cons v rest ih =>
    simp only [inferOnto] at h
    obtain ⟨next, _, hnext, h⟩ := on_bind_eq_ok h
    obtain ⟨merged, _, hmerged, h⟩ := on_bind_eq_ok h
    obtain rfl := hvs v List.mem_cons_self hnext
    obtain rfl := Shape.eq_merge_of_on_unify hmerged
    exact ih (fun w hw => hvs w (List.mem_cons_of_mem _ hw)) h

theorem eq_entryFields_of_on_inferFields {entries : List (Key × Value)}
    (hentries : ∀ e ∈ entries, e.2.Settled) {room merges reached : Nat} {fields : List Field}
    (h : (inferFields room entries).on merges = (.ok fields, reached)) :
    fields = entryFields entries := by
  induction entries generalizing fields merges reached with
  | nil =>
    simp only [inferFields, on_pure, Prod.mk.injEq, Except.ok.injEq] at h
    exact h.1.symm
  | cons e rest ih =>
    simp only [inferFields] at h
    obtain ⟨name, _, hname, h⟩ := on_bind_eq_ok h
    obtain ⟨s, _, hs, h⟩ := on_bind_eq_ok h
    obtain ⟨others, _, hothers, h⟩ := on_bind_eq_ok h
    obtain rfl := Key.eq_name_of_on_label hname
    obtain rfl := hentries e List.mem_cons_self hs
    obtain rfl := ih (fun d hd => hentries d (List.mem_cons_of_mem _ hd)) hothers
    exact eq_of_on_pure h

theorem settled (v : Value) : v.Settled := by
  induction v using nodeInduction with
  | int n =>
    intro room merges reached s h
    simp only [infer] at h
    simp only [shape]
    split_ifs at h ⊢ with hfits
    · exact eq_of_on_pure h
    · obtain ⟨digits, _, hdigits, h⟩ := on_bind_eq_ok h
      obtain ⟨rfl, -⟩ := eq_of_on_intText hdigits
      exact eq_of_on_pure h
  | decimal d =>
    intro room merges reached s h
    simp only [infer] at h
    simp only [shape]
    cases hd : d.toBinary64? with
    | none => simp [hd] at h
    | some x =>
      simp only [hd] at h
      exact eq_of_on_pure h
  | list items ih =>
    intro room merges reached s h
    cases room with
    | zero => simp [infer] at h
    | succ room =>
      simp only [infer] at h
      obtain ⟨item, _, hitem, h⟩ := on_bind_eq_ok h
      obtain rfl := eq_foldl_of_on_inferOnto ih hitem
      rw [shape_list]
      exact eq_of_on_pure h
  | dict entries ih =>
    intro room merges reached s h
    cases room with
    | zero => simp [infer] at h
    | succ room =>
      simp only [infer] at h
      obtain ⟨fields, _, hfields, h⟩ := on_bind_eq_ok h
      obtain rfl := eq_entryFields_of_on_inferFields ih hfields
      rw [shape_dict]
      exact eq_of_on_pure h
  | illFormedText | foreign =>
    intro room merges reached s h
    simp [infer] at h
  | _ =>
    intro room merges reached s h
    simp only [infer] at h
    exact eq_of_on_pure h

end Value

/-- The shape that inference finds around some values is the merge of their shapes. -/
theorem eq_around_of_on_inferMany {vs : List Value} {s : Shape} {merges reached : Nat}
    (h : (inferMany vs).on merges = (.ok s, reached)) : s = Shape.around (vs.map Value.shape) :=
  Value.eq_foldl_of_on_inferOnto (fun v _ => v.settled) h

end JsonShape
