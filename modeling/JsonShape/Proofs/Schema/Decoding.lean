import JsonShape.Proofs.Entries
import JsonShape.Proofs.Shape.Genuine
import JsonShape.Schema

/-!
Schemas read back as shapes. A node is told by its kind and the names of its entries, and the fields
of a record stand in entries of their own, where no name is mistaken for that of an entry of a node.
So a schema leaves nothing out, as long as no record has two fields of one name.
-/

set_option autoImplicit false

namespace JsonShape

namespace Schema

mutual

/-- The shape that a tree is the schema of. -/
def shape? : Schema → Option Shape
  | entries (("type", text kind) :: rest) =>
    match kind, rest with
    | "unknown", [] => some .unknown
    | "any", [] => some .any
    | "bool", [] => some .bool
    | "integer", [("min", int lo), ("max", int hi)] => some (.int ⟨lo, hi⟩)
    | "float", [("min", float lo), ("max", float hi)] => some (.float ⟨lo, hi⟩)
    | "string", [("min_len", int lo), ("max_len", int hi)] => some (.text ⟨lo, hi⟩)
    | "array", [("min_len", int lo), ("max_len", int hi), ("items", item)] =>
      item.shape?.map (.list ⟨lo, hi⟩)
    | "object", [("fields", entries items)] => (fields? items).map .record
    | "optional", [("child", child)] => child.shape?.map .optional
    | _, _ => none
  | _ => none

/-- The fields that entries are the schemas of. -/
def fields? : List (String × Schema) → Option (List (String × Shape))
  | [] => some []
  | (name, s) :: rest => do return (name, ← s.shape?) :: (← fields? rest)

end

end Schema

namespace Shape

/-- The names of a record's fields are distinct. -/
def isKeyedNode : Shape → Bool
  | record fields => (fields.map Prod.fst).Nodup
  | _ => true

/-- The names of fields are distinct in every record, whatever marks are doubled. -/
def isKeyed (s : Shape) : Bool := s.everywhere isKeyedNode

theorem isKeyed_record_iff {fields : List Field} :
    (record fields).isKeyed = true ↔
      (fields.map Prod.fst).Nodup ∧ ∀ f ∈ fields, f.2.isKeyed = true := by
  change (decide (fields.map Prod.fst).Nodup && everywhereFields isKeyedNode fields) = true ↔ _
  rw [Bool.and_eq_true, decide_eq_true_eq, everywhereFields_iff]
  rfl

end Shape

namespace Schema

/-! ### What a schema is made of -/

section Parts

variable {room : ℕ} {schema : Schema}

theorem ofShape?_list_eq_ok {r : Range Int} {item : Shape}
    (h : ofShape? (room + 1) (.list r item) = .ok schema) :
    ∃ items, ofShape? room item = .ok items ∧
      schema = node "array" [("min_len", int r.lo), ("max_len", int r.hi), ("items", items)] := by
  cases hitem : ofShape? room item with
  | error fault => simp [ofShape?, hitem, bind, Except.bind] at h
  | ok items =>
    simp only [ofShape?, hitem, bind, Except.bind, pure, Except.pure, Except.ok.injEq] at h
    exact ⟨items, rfl, h.symm⟩

theorem ofShape?_record_eq_ok {fields : List Field}
    (h : ofShape? (room + 1) (.record fields) = .ok schema) :
    ∃ items, ofFields? room fields = .ok items ∧
      schema = node "object" [("fields", entries (Entries.ofList items))] := by
  cases hfields : ofFields? room fields with
  | error fault => simp [ofShape?, hfields, bind, Except.bind] at h
  | ok items =>
    simp only [ofShape?, hfields, bind, Except.bind, pure, Except.pure, Except.ok.injEq] at h
    exact ⟨items, rfl, h.symm⟩

theorem ofShape?_optional_eq_ok {child : Shape}
    (h : ofShape? (room + 1) (.optional child) = .ok schema) :
    ∃ below, ofShape? room child = .ok below ∧ schema = node "optional" [("child", below)] := by
  cases hchild : ofShape? room child with
  | error fault => simp [ofShape?, hchild, bind, Except.bind] at h
  | ok below =>
    simp only [ofShape?, hchild, bind, Except.bind, pure, Except.pure, Except.ok.injEq] at h
    exact ⟨below, rfl, h.symm⟩

theorem ofFields?_cons_eq_ok {f : Field} {rest : List Field} {items : List (String × Schema)}
    (h : ofFields? room (f :: rest) = .ok items) :
    ∃ s later, ofShape? room f.2 = .ok s ∧ ofFields? room rest = .ok later ∧
      items = (f.1, s) :: later := by
  cases hfirst : ofShape? room f.2 with
  | error fault => simp [ofFields?, hfirst, bind, Except.bind] at h
  | ok s =>
    cases hrest : ofFields? room rest with
    | error fault => simp [ofFields?, hfirst, hrest, bind, Except.bind] at h
    | ok later =>
      simp only [ofFields?, hfirst, hrest, bind, Except.bind, pure, Except.pure,
        Except.ok.injEq] at h
      exact ⟨s, later, rfl, rfl, h.symm⟩

end Parts

/-! ### Reading back -/

section Reading

variable {room : ℕ}

theorem shape?_array (r : Range Int) (item : Schema) :
    (node "array" [("min_len", int r.lo), ("max_len", int r.hi), ("items", item)]).shape? =
      item.shape?.map (.list r) := rfl

theorem shape?_object (items : List (String × Schema)) :
    (node "object" [("fields", entries items)]).shape? = (fields? items).map .record := rfl

theorem shape?_optional (child : Schema) :
    (node "optional" [("child", child)]).shape? = child.shape?.map .optional := rfl

theorem fields?_of_ofFields? {fields : List Field} {items : List (String × Schema)}
    (hfields : ∀ f ∈ fields, ∀ s, ofShape? room f.2 = .ok s → s.shape? = some f.2)
    (h : ofFields? room fields = .ok items) :
    fields? items = some fields ∧ items.map Prod.fst = fields.map Prod.fst := by
  induction fields generalizing items with
  | nil =>
    cases h
    exact ⟨rfl, rfl⟩
  | cons f rest ih =>
    obtain ⟨hfirst, hrest⟩ := List.forall_mem_cons.mp hfields
    obtain ⟨s, later, hs, hlater, rfl⟩ := ofFields?_cons_eq_ok h
    obtain ⟨hread, hnames⟩ := ih hrest hlater
    refine ⟨?_, by rw [List.map_cons, List.map_cons, hnames]⟩
    simp only [fields?, hfirst s hs, hread, bind, Option.bind, pure]

/-- A schema is read back as the shape that it is the schema of. -/
theorem shape?_of_ofShape? {s : Shape} (hs : s.isKeyed = true) {schema : Schema}
    (h : ofShape? room s = .ok schema) : schema.shape? = some s := by
  induction s using Shape.nodeInduction generalizing room schema with
  | list r item ih =>
    cases room with
    | zero => cases h
    | succ room =>
      obtain ⟨items, hitem, rfl⟩ := ofShape?_list_eq_ok h
      rw [shape?_array, ih hs hitem, Option.map_some]
  | record fields ih =>
    cases room with
    | zero => cases h
    | succ room =>
      obtain ⟨hnames, hkeyed⟩ := Shape.isKeyed_record_iff.mp hs
      obtain ⟨items, hitems, rfl⟩ := ofShape?_record_eq_ok h
      obtain ⟨hread, hsame⟩ :=
        fields?_of_ofFields? (fun f hf s hschema => ih f hf (hkeyed f hf) hschema) hitems
      -- No entry is lost among the fields, for their names are distinct.
      have hkept : Entries.ofList items = items := Entries.ofList_of_nodup (hsame ▸ hnames)
      rw [shape?_object, hkept, hread, Option.map_some]
  | optional child ih =>
    cases room with
    | zero => cases h
    | succ room =>
      obtain ⟨below, hchild, rfl⟩ := ofShape?_optional_eq_ok h
      rw [shape?_optional, ih hs hchild, Option.map_some]
  | foreign x =>
    cases room with
    | zero => cases h
    | succ room => cases h
  | _ =>
    cases room with
    | zero => cases h
    | succ room =>
      cases h
      rfl

end Reading

/-! ### Room -/

section Room

variable (room : ℕ)

theorem ofFields?_of_forall {fields : List Field}
    (h : ∀ f ∈ fields, (∃ s, ofShape? room f.2 = .ok s) ∨
      room ≤ f.2.height ∧ ofShape? room f.2 = .error .tooDeep) :
    (∃ items, ofFields? room fields = .ok items) ∨
      room ≤ Shape.fieldsHeight fields ∧ ofFields? room fields = .error .tooDeep := by
  induction fields with
  | nil => exact .inl ⟨[], rfl⟩
  | cons f rest ih =>
    obtain ⟨hfirst, hrest⟩ := List.forall_mem_cons.mp h
    rcases hfirst with ⟨s, hs⟩ | ⟨hroom, hfault⟩
    · rcases ih hrest with ⟨items, hitems⟩ | ⟨hroom, hfault⟩
      · exact .inl ⟨(f.1, s) :: items, by simp [ofFields?, hs, hitems, bind, Except.bind]; rfl⟩
      · exact .inr ⟨le_max_of_le_right hroom, by simp [ofFields?, hs, hfault, bind, Except.bind]⟩
    · exact .inr ⟨le_max_of_le_left hroom, by simp [ofFields?, hfault, bind, Except.bind]⟩

/-- A genuine shape has a schema, unless it is higher than the room. -/
theorem ofShape?_of_isGenuine {s : Shape} (hs : s.isGenuine = true) :
    (∃ schema, ofShape? room s = .ok schema) ∨
      room ≤ s.height ∧ ofShape? room s = .error .tooDeep := by
  induction s using Shape.nodeInduction generalizing room with
  | list r item ih =>
    cases room with
    | zero => exact .inr ⟨Nat.zero_le _, rfl⟩
    | succ room =>
      rcases ih room hs with ⟨items, hitems⟩ | ⟨hroom, hfault⟩
      · exact .inl ⟨_, by rw [ofShape?, hitems]; rfl⟩
      · exact .inr ⟨Nat.succ_le_succ hroom, by rw [ofShape?, hfault]; rfl⟩
  | record fields ih =>
    cases room with
    | zero => exact .inr ⟨Nat.zero_le _, rfl⟩
    | succ room =>
      rw [Shape.isGenuine_record_iff] at hs
      rcases ofFields?_of_forall room (fun f hf => ih f hf room (hs f hf)) with
        ⟨items, hitems⟩ | ⟨hroom, hfault⟩
      · exact .inl ⟨_, by rw [ofShape?, hitems]; rfl⟩
      · exact .inr ⟨Nat.succ_le_succ hroom, by rw [ofShape?, hfault]; rfl⟩
  | optional child ih =>
    cases room with
    | zero => exact .inr ⟨Nat.zero_le _, rfl⟩
    | succ room =>
      rcases ih room hs with ⟨below, hbelow⟩ | ⟨hroom, hfault⟩
      · exact .inl ⟨_, by rw [ofShape?, hbelow]; rfl⟩
      · exact .inr ⟨Nat.succ_le_succ hroom, by rw [ofShape?, hfault]; rfl⟩
  | foreign x => simp at hs
  | _ =>
    cases room with
    | zero => exact .inr ⟨Nat.zero_le _, rfl⟩
    | succ room => exact .inl ⟨_, rfl⟩

end Room

end Schema

namespace Shape

/-- The schema of a genuine shape, in which no record repeats the name of a field, is read back as
the shape and so is the schema of no other one. There is none only if the shape is as high as the
room for nesting. -/
theorem schema?_shape? {s : Shape} (hs : s.isGenuine = true) (hkeyed : s.isKeyed = true) :
    (∃ schema, s.schema? = .ok schema ∧ schema.shape? = some s ∧
        ∀ t : Shape, t.isKeyed = true → t.schema? = .ok schema → t = s) ∨
      nestingRoom ≤ s.height ∧ s.schema? = .error .tooDeep := by
  refine (Schema.ofShape?_of_isGenuine _ hs).imp_left fun ⟨schema, hschema⟩ => ?_
  have hread := Schema.shape?_of_ofShape? hkeyed hschema
  refine ⟨schema, hschema, hread, fun t ht hsame => ?_⟩
  have hother := Schema.shape?_of_ofShape? ht hsame
  exact Option.some.inj (hother.symm.trans hread)

/-- A record whose fields are named as the entries of a node are, with a mark doubled. -/
def misleading : Shape :=
  record [("type", list ⟨0, 2⟩ (record [("items", any), ("type", unknown)])),
    ("min", optional (optional (float ⟨.number true 0 (by decide), .nan⟩))),
    ("fields", record [("child", int ⟨-1, 2⟩), ("fields", text ⟨0, 7⟩)])]

theorem schema?_shape?_misleading :
    misleading.isGenuine = true ∧ misleading.isKeyed = true ∧
      ∃ schema, misleading.schema? = .ok schema ∧ schema.shape? = some misleading ∧
        ∀ t : Shape, t.isKeyed = true → t.schema? = .ok schema → t = misleading := by
  have hgenuine : misleading.isGenuine = true := rfl
  have hkeyed : misleading.isKeyed = true := by decide
  refine ⟨hgenuine, hkeyed, (schema?_shape? hgenuine hkeyed).resolve_right ?_⟩
  exact fun h => absurd h.1 (by decide)

end Shape

end JsonShape
