import JsonShape.Proofs.Entries
import JsonShape.Proofs.Shape.Progress
import JsonShape.Schema

/-!
The schema of a shape. A tidy shape with room for its levels has one, the entries of which are under
distinct names; all floats in it are finite if the bounds in the shape are, and all its integers can
be written out if those of the shape can.
-/

set_option autoImplicit false

namespace JsonShape

/-- A double that is neither infinite nor NaN. -/
def Binary64.isFinite : Binary64 → Bool
  | nan => false
  | number _ code _ => code < infinityCode

namespace Schema

/-- Induction over a schema that reaches every entry. -/
theorem nodeInduction {motive : Schema → Prop} (text : ∀ s, motive (.text s))
    (int : ∀ n, motive (.int n)) (float : ∀ x, motive (.float x))
    (entries : ∀ items, (∀ e ∈ items, motive e.2) → motive (.entries items)) (s : Schema) :
    motive s := by
  refine @Schema.rec motive (fun items => ∀ e ∈ items, motive e.2) (fun e => motive e.2) text int
    float entries ?_ ?_ ?_ s
  · simp
  · exact fun _ _ he hrest => List.forall_mem_cons.mpr ⟨he, hrest⟩
  · exact fun _ _ h => h

theorem everywhereEntries_iff {p : Schema → Bool} {items : List (String × Schema)} :
    everywhereEntries p items = true ↔ ∀ e ∈ items, e.2.everywhere p = true := by
  induction items with
  | nil => simp [everywhereEntries]
  | cons e rest ih => rw [everywhereEntries, Bool.and_eq_true, ih, List.forall_mem_cons]

/-- The names of a node's entries are distinct. -/
def isKeyedNode : Schema → Bool
  | entries items => (items.map Prod.fst).Nodup
  | _ => true

/-- The names of entries are distinct at every node. -/
def isKeyed (s : Schema) : Bool := s.everywhere isKeyedNode

/-- A node that is no infinite float and no NaN. -/
def isFiniteNode : Schema → Bool
  | float x => x.isFinite
  | _ => true

/-- Every float in a schema is finite. -/
def isFinite (s : Schema) : Bool := s.everywhere isFiniteNode

@[simp] theorem isKeyed_text (s : String) : (text s).isKeyed = true := rfl
@[simp] theorem isKeyed_int (n : Int) : (int n).isKeyed = true := rfl
@[simp] theorem isKeyed_float (x : Binary64) : (float x).isKeyed = true := rfl

theorem isKeyed_entries_iff {items : List (String × Schema)} :
    (entries items).isKeyed = true ↔
      (items.map Prod.fst).Nodup ∧ ∀ e ∈ items, e.2.isKeyed = true := by
  change (decide (items.map Prod.fst).Nodup && everywhereEntries isKeyedNode items) = true ↔ _
  rw [Bool.and_eq_true, decide_eq_true_eq, everywhereEntries_iff]
  exact Iff.rfl

theorem isFinite_entries_iff {items : List (String × Schema)} :
    (entries items).isFinite = true ↔ ∀ e ∈ items, e.2.isFinite = true :=
  everywhereEntries_iff

@[simp] theorem isLegible_int (n : Int) : (int n).isLegible = (digits? n).isSome := rfl

@[simp] theorem isLegible_entries_nil : (entries []).isLegible = true := rfl

@[simp] theorem isLegible_entries_cons (name : String) (s : Schema)
    (rest : List (String × Schema)) :
    (entries ((name, s) :: rest)).isLegible = (s.isLegible && (entries rest).isLegible) := rfl

theorem isLegible_entries_iff {items : List (String × Schema)} :
    (entries items).isLegible = true ↔ ∀ e ∈ items, e.2.isLegible = true :=
  everywhereEntries_iff

end Schema

namespace Shape

/-- A node whose float bounds are finite. -/
def isFiniteNode : Shape → Bool
  | float r => r.lo.isFinite && r.hi.isFinite
  | _ => true

/-- Every float bound in a shape is finite. -/
def isFinite (s : Shape) : Bool := s.everywhere isFiniteNode

theorem isFinite_record_iff {fields : List Field} :
    (record fields).isFinite = true ↔ ∀ f ∈ fields, f.2.isFinite = true :=
  everywhereFields_iff

/-- A node whose bounds and lengths can be written out. -/
def isLegibleNode : Shape → Bool
  | int r | text r | list r _ => (digits? r.lo).isSome && (digits? r.hi).isSome
  | _ => true

/-- Every bound and every length in a shape can be written out. -/
def isLegible (s : Shape) : Bool := s.everywhere isLegibleNode

@[simp] theorem isLegible_int (r : Range Int) :
    (int r).isLegible = ((digits? r.lo).isSome && (digits? r.hi).isSome) := rfl

@[simp] theorem isLegible_text (r : Range Int) :
    (text r).isLegible = ((digits? r.lo).isSome && (digits? r.hi).isSome) := rfl

@[simp] theorem isLegible_list (r : Range Int) (item : Shape) :
    (list r item).isLegible =
      ((digits? r.lo).isSome && (digits? r.hi).isSome && item.isLegible) := rfl

theorem isLegible_record_iff {fields : List Field} :
    (record fields).isLegible = true ↔ ∀ f ∈ fields, f.2.isLegible = true :=
  everywhereFields_iff

/-- The room that the schema of a shape takes. -/
def schemaRoom (s : Shape) : Nat := 2 * s.levels + if s.isOptional then 2 else 1

theorem schemaRoom_pos (s : Shape) : 0 < s.schemaRoom := by
  simp only [schemaRoom]
  split <;> omega

theorem exists_room {s : Shape} {room : Nat} (h : s.schemaRoom ≤ room) :
    ∃ within, room = within + 1 :=
  Nat.exists_eq_succ_of_ne_zero (Nat.ne_of_gt (Nat.lt_of_lt_of_le s.schemaRoom_pos h))

theorem schemaRoom_le (s : Shape) : s.schemaRoom ≤ 2 * s.levels + 2 := by
  simp only [schemaRoom]
  split <;> omega

theorem schemaRoom_of_not_isOptional {s : Shape} (h : s.isOptional = false) :
    s.schemaRoom = 2 * s.levels + 1 := by
  simp [schemaRoom, h]

theorem schemaRoom_item_lt (r : Range Int) (item : Shape) :
    item.schemaRoom < (list r item).schemaRoom := by
  have hneeded := schemaRoom_of_not_isOptional (s := list r item) rfl
  have hle := item.schemaRoom_le
  simp only [levels] at hneeded
  omega

theorem schemaRoom_field_lt {fields : List Field} {f : Field} (hf : f ∈ fields) :
    f.2.schemaRoom < (record fields).schemaRoom := by
  have hneeded := schemaRoom_of_not_isOptional (s := record fields) rfl
  have hle := f.2.schemaRoom_le
  have hlevels := levels_le_fieldsLevels hf
  simp only [levels] at hneeded
  omega

/-- An optional mark needs room of its own, so it must not stand on another one. -/
theorem schemaRoom_child_lt {child : Shape} (h : child.isOptional = false) :
    child.schemaRoom < (optional child).schemaRoom := by
  rw [schemaRoom_of_not_isOptional h]
  simp only [schemaRoom, levels, isOptional, if_true]
  omega

end Shape

namespace Schema

/-- A schema of a shape: its entries have distinct names, and it is finite and legible if the shape
is. -/
structure Depicts (schema : Schema) (s : Shape) : Prop where
  keyed : schema.isKeyed = true
  finite : schema.isFinite = s.isFinite
  legible : schema.isLegible = s.isLegible

theorem Depicts.of_node {kind : String} {rest : List (String × Schema)} {s : Shape}
    (names : List String) (hnames : rest.map Prod.fst = names) (hnodup : ("type" :: names).Nodup)
    (hkeyed : ∀ e ∈ rest, e.2.isKeyed = true) (hfinite : (entries rest).isFinite = s.isFinite)
    (hlegible : (entries rest).isLegible = s.isLegible) : (node kind rest).Depicts s where
  keyed := by
    subst hnames
    exact isKeyed_entries_iff.mpr ⟨hnodup, List.forall_mem_cons.mpr ⟨rfl, hkeyed⟩⟩
  finite := hfinite
  legible := hlegible

/-- The schemas of fields, each under the name of its field. -/
def DepictFields (items : List (String × Schema)) (fields : List Field) : Prop :=
  List.Forall₂ (fun e f => e.1 = f.1 ∧ e.2.Depicts f.2) items fields

theorem exists_ofFields? {fields : List Field} {room : Nat}
    (h : ∀ f ∈ fields, ∃ schema, ofShape? room f.2 = .ok schema ∧ schema.Depicts f.2) :
    ∃ items, ofFields? room fields = .ok items ∧ DepictFields items fields := by
  induction fields with
  | nil => exact ⟨[], rfl, .nil⟩
  | cons f rest ih =>
    obtain ⟨⟨schema, hschema, hdepicts⟩, hrest⟩ := List.forall_mem_cons.mp h
    obtain ⟨items, hitems, hall⟩ := ih hrest
    refine ⟨(f.1, schema) :: items, ?_, .cons ⟨rfl, hdepicts⟩ hall⟩
    simp only [ofFields?, hschema, hitems, bind, Except.bind, pure, Except.pure]

theorem DepictFields.names {items : List (String × Schema)} {fields : List Field}
    (h : DepictFields items fields) : items.map Prod.fst = fields.map Prod.fst := by
  induction h with
  | nil => rfl
  | cons hhead _ ih => rw [List.map_cons, List.map_cons, hhead.1, ih]

theorem forall_mem_iff_of_forall₂ {α β : Type} {p : α → Bool} {q : β → Bool} {l : List α}
    {m : List β} (h : List.Forall₂ (fun a b => p a = q b) l m) :
    (∀ a ∈ l, p a = true) ↔ ∀ b ∈ m, q b = true := by
  induction h with
  | nil => simp
  | cons hhead _ ih => rw [List.forall_mem_cons, List.forall_mem_cons, hhead, ih]

/-- The schemas of fields with distinct names depict their record. -/
theorem DepictFields.record {items : List (String × Schema)} {fields : List Field}
    (h : DepictFields items fields) (hnames : (fields.map Prod.fst).Nodup) :
    (entries items).isKeyed = true ∧
      (entries items).isFinite = (Shape.record fields).isFinite ∧
        (entries items).isLegible = (Shape.record fields).isLegible := by
  have hkeyed : ∀ e ∈ items, e.2.isKeyed = true := by
    clear hnames
    induction h with
    | nil => simp
    | cons hhead _ ih => exact List.forall_mem_cons.mpr ⟨hhead.2.keyed, ih⟩
  have hfinite := forall_mem_iff_of_forall₂ (p := fun e : String × Schema => e.2.isFinite)
    (q := fun f : Field => f.2.isFinite) (h.imp fun _ _ he => he.2.finite)
  have hlegible := forall_mem_iff_of_forall₂ (p := fun e : String × Schema => e.2.isLegible)
    (q := fun f : Field => f.2.isLegible) (h.imp fun _ _ he => he.2.legible)
  refine ⟨isKeyed_entries_iff.mpr ⟨h.names ▸ hnames, hkeyed⟩, Bool.eq_iff_iff.mpr ?_,
    Bool.eq_iff_iff.mpr ?_⟩
  · rw [isFinite_entries_iff, hfinite, Shape.isFinite_record_iff]
  · rw [isLegible_entries_iff, hlegible, Shape.isLegible_record_iff]

/-- A tidy shape with room for its levels has a schema. -/
theorem exists_ofShape? {s : Shape} (hs : s.isTidy = true) {room : Nat}
    (hroom : s.schemaRoom ≤ room) : ∃ schema, ofShape? room s = .ok schema ∧ schema.Depicts s := by
  induction s using Shape.nodeInduction generalizing room with
  | foreign node => simp at hs
  | list r item ih =>
    obtain ⟨room, rfl⟩ := Shape.exists_room hroom
    have hitem := Nat.le_of_lt_succ ((Shape.schemaRoom_item_lt r item).trans_le hroom)
    obtain ⟨schema, hschema, hdepicts⟩ := ih hs hitem
    refine ⟨_, by simp only [ofShape?, hschema, bind, Except.bind, pure, Except.pure]; rfl,
      .of_node ["min_len", "max_len", "items"] rfl (by decide) (by simpa using hdepicts.keyed) ?_
        ?_⟩
    · exact (Bool.and_true _).trans hdepicts.finite
    · simp [hdepicts.legible, Bool.and_assoc]
  | record fields ih =>
    obtain ⟨room, rfl⟩ := Shape.exists_room hroom
    obtain ⟨hnames, hfields⟩ := Shape.isTidy_record_iff.mp hs
    have hroom' := fun f hf =>
      Nat.le_of_lt_succ ((Shape.schemaRoom_field_lt (f := f) hf).trans_le hroom)
    obtain ⟨items, hitems, hdepict⟩ :=
      exists_ofFields? fun f hf => ih f hf (hfields f hf) (hroom' f hf)
    have hkept : Entries.ofList items = items :=
      Entries.ofList_of_nodup (hdepict.names ▸ hnames)
    obtain ⟨hkeyed, hfinite, hlegible⟩ := hdepict.record hnames
    refine ⟨_, by simp only [ofShape?, hitems, hkept, bind, Except.bind, pure, Except.pure]; rfl,
      .of_node ["fields"] rfl (by decide) (by simpa using hkeyed) ?_ ?_⟩
    · exact (Bool.and_true _).trans hfinite
    · exact (Bool.and_true _).trans hlegible
  | optional child ih =>
    obtain ⟨room, rfl⟩ := Shape.exists_room hroom
    rw [Shape.isTidy_optional_iff] at hs
    have hchild := Nat.le_of_lt_succ ((Shape.schemaRoom_child_lt hs.1).trans_le hroom)
    obtain ⟨schema, hschema, hdepicts⟩ := ih hs.2 hchild
    refine ⟨_, by simp only [ofShape?, hschema, bind, Except.bind, pure, Except.pure]; rfl,
      .of_node ["child"] rfl (by decide) (by simpa using hdepicts.keyed) ?_ ?_⟩
    · exact (Bool.and_true _).trans hdepicts.finite
    · exact (Bool.and_true _).trans hdepicts.legible
  | float r =>
    obtain ⟨room, rfl⟩ := Shape.exists_room hroom
    refine ⟨_, rfl, .of_node ["min", "max"] rfl (by decide) (by simp) ?_ rfl⟩
    exact congrArg (r.lo.isFinite && ·) (Bool.and_true _)
  | int r =>
    obtain ⟨room, rfl⟩ := Shape.exists_room hroom
    exact ⟨_, rfl, .of_node ["min", "max"] rfl (by decide) (by simp) rfl (by simp)⟩
  | text r =>
    obtain ⟨room, rfl⟩ := Shape.exists_room hroom
    exact ⟨_, rfl, .of_node ["min_len", "max_len"] rfl (by decide) (by simp) rfl (by simp)⟩
  | unknown | any | bool =>
    obtain ⟨room, rfl⟩ := Shape.exists_room hroom
    exact ⟨_, rfl, .of_node [] rfl (by decide) (by simp) rfl rfl⟩

end Schema

end JsonShape
