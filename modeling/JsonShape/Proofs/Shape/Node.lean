import JsonShape.Proofs.Range
import JsonShape.Shape

/-!
What holds at every node of a shape. In a flat shape optional marks are not doubled and no node is
foreign. A tidy shape keeps to all rules of the type: besides, the names of a record's fields are
distinct. A well-formed shape is tidy, and no bound in it is NaN.
-/

set_option autoImplicit false

namespace JsonShape.Shape

/-- Induction over a shape that reaches every field of a record. -/
theorem nodeInduction {motive : Shape → Prop} (unknown : motive .unknown) (any : motive .any)
    (bool : motive .bool) (int : ∀ r, motive (.int r)) (float : ∀ r, motive (.float r))
    (text : ∀ r, motive (.text r)) (list : ∀ r item, motive item → motive (.list r item))
    (record : ∀ fields, (∀ f ∈ fields, motive f.2) → motive (.record fields))
    (optional : ∀ child, motive child → motive (.optional child))
    (foreign : ∀ node, motive (.foreign node)) (s : Shape) : motive s := by
  refine @Shape.rec motive (fun fields => ∀ f ∈ fields, motive f.2) (fun f => motive f.2)
    unknown any bool int float text list record optional foreign ?_ ?_ ?_ s
  · simp
  · intro f rest hf hrest g hg
    rcases List.mem_cons.mp hg with rfl | hg
    · exact hf
    · exact hrest g hg
  · exact fun _ _ h => h

/-- The outermost node is an optional mark. -/
def isOptional : Shape → Bool
  | optional _ => true
  | _ => false

theorem isOptional_iff {s : Shape} : s.isOptional = true ↔ ∃ t, s = optional t := by
  cases s <;> simp [isOptional]

theorem isOptional_makeOptional (s : Shape) : s.makeOptional.isOptional = true := by
  cases s <;> rfl

theorem makeOptional_of_not_isOptional {s : Shape} (h : s.isOptional = false) :
    s.makeOptional = optional s := by
  cases s with
  | optional _ => simp [isOptional] at h
  | _ => rfl

mutual

/-- A property holds at every node of a shape. -/
def everywhere (p : Shape → Bool) : Shape → Bool
  | list r item => p (list r item) && item.everywhere p
  | record fields => p (record fields) && everywhereFields p fields
  | optional child => p (optional child) && child.everywhere p
  | s => p s

/-- A property holds at every node of each field. -/
def everywhereFields (p : Shape → Bool) : List (String × Shape) → Bool
  | [] => true
  | (_, s) :: rest => s.everywhere p && everywhereFields p rest

end

theorem everywhereFields_iff {p : Shape → Bool} {fields : List Field} :
    everywhereFields p fields = true ↔ ∀ f ∈ fields, f.2.everywhere p = true := by
  induction fields with
  | nil => simp [everywhereFields]
  | cons f rest ih => rw [everywhereFields, Bool.and_eq_true, ih, List.forall_mem_cons]

theorem everywhere_mono {p q : Shape → Bool} (h : ∀ s, p s = true → q s = true) {s : Shape}
    (hs : s.everywhere p = true) : s.everywhere q = true := by
  induction s using nodeInduction with
  | list r item ih =>
    obtain ⟨hnode, hitem⟩ := Bool.and_eq_true_iff.mp hs
    exact Bool.and_eq_true_iff.mpr ⟨h _ hnode, ih hitem⟩
  | record fields ih =>
    obtain ⟨hnode, hfields⟩ := Bool.and_eq_true_iff.mp hs
    rw [everywhereFields_iff] at hfields
    have hlater := everywhereFields_iff.mpr fun f hf => ih f hf (hfields f hf)
    exact Bool.and_eq_true_iff.mpr ⟨h _ hnode, hlater⟩
  | optional child ih =>
    obtain ⟨hnode, hchild⟩ := Bool.and_eq_true_iff.mp hs
    exact Bool.and_eq_true_iff.mpr ⟨h _ hnode, ih hchild⟩
  | _ => exact h _ hs

/-- A node that is neither a mark on a mark nor foreign. -/
def isFlatNode : Shape → Bool
  | optional child => !child.isOptional
  | foreign _ => false
  | _ => true

/-- Optional marks are not doubled and no node is foreign, whatever names repeat. -/
def isFlat (s : Shape) : Bool := s.everywhere isFlatNode

/-- The rules that a node of a shape keeps to. -/
def isTidyNode : Shape → Bool
  | record fields => (fields.map Prod.fst).Nodup
  | optional child => !child.isOptional
  | foreign _ => false
  | _ => true

/-- Every node keeps to the rules of shapes. -/
def isTidy (s : Shape) : Bool := s.everywhere isTidyNode

/-- A node whose bounds are not NaN. -/
def isNumericNode : Shape → Bool
  | float r => r.isNumeric
  | _ => true

/-- No bound in a shape is NaN. -/
def isNumeric (s : Shape) : Bool := s.everywhere isNumericNode

/-- A shape that keeps to the rules of shapes and has no NaN. -/
structure WellFormed (s : Shape) : Prop where
  tidy : s.isTidy = true
  numeric : s.isNumeric = true

section Flat

@[simp] theorem isFlat_foreign (x : Foreign) : (foreign x).isFlat = false := rfl

@[simp] theorem isFlat_list (r : Range Int) (item : Shape) :
    (list r item).isFlat = item.isFlat := rfl

@[simp] theorem isFlat_optional (child : Shape) :
    (optional child).isFlat = (!child.isOptional && child.isFlat) := rfl

theorem isFlat_optional_iff {child : Shape} :
    (optional child).isFlat = true ↔ child.isOptional = false ∧ child.isFlat = true := by
  rw [isFlat_optional, Bool.and_eq_true, Bool.not_eq_true']

theorem isFlat_record_iff {fields : List Field} :
    (record fields).isFlat = true ↔ ∀ f ∈ fields, f.2.isFlat = true :=
  everywhereFields_iff

theorem isFlat_makeOptional {s : Shape} (h : s.isFlat = true) : s.makeOptional.isFlat = true := by
  cases hs : s.isOptional with
  | true =>
    obtain ⟨t, rfl⟩ := isOptional_iff.mp hs
    exact h
  | false => rw [makeOptional_of_not_isOptional hs, isFlat_optional, hs, h]; rfl

theorem isFlat_of_isTidy {s : Shape} (h : s.isTidy = true) : s.isFlat = true := by
  refine everywhere_mono (fun t ht => ?_) h
  cases t with
  | record fields => rfl
  | _ => exact ht

end Flat

section Tidy

@[simp] theorem isTidy_unknown : unknown.isTidy = true := rfl
@[simp] theorem isTidy_any : any.isTidy = true := rfl
@[simp] theorem isTidy_bool : bool.isTidy = true := rfl
@[simp] theorem isTidy_int (r : Range Int) : (int r).isTidy = true := rfl
@[simp] theorem isTidy_float (r : Range Binary64) : (float r).isTidy = true := rfl
@[simp] theorem isTidy_text (r : Range Int) : (text r).isTidy = true := rfl
@[simp] theorem isTidy_foreign (x : Foreign) : (foreign x).isTidy = false := rfl

@[simp] theorem isTidy_list (r : Range Int) (item : Shape) :
    (list r item).isTidy = item.isTidy := rfl

@[simp] theorem isTidy_optional (child : Shape) :
    (optional child).isTidy = (!child.isOptional && child.isTidy) := rfl

theorem isTidy_optional_iff {child : Shape} :
    (optional child).isTidy = true ↔ child.isOptional = false ∧ child.isTidy = true := by
  rw [isTidy_optional, Bool.and_eq_true, Bool.not_eq_true']

theorem isTidy_record_iff {fields : List Field} :
    (record fields).isTidy = true ↔
      (fields.map Prod.fst).Nodup ∧ ∀ f ∈ fields, f.2.isTidy = true := by
  change (decide (fields.map Prod.fst).Nodup && everywhereFields isTidyNode fields) = true ↔ _
  rw [Bool.and_eq_true, decide_eq_true_eq, everywhereFields_iff]
  rfl

theorem isTidy_makeOptional {s : Shape} (h : s.isTidy = true) : s.makeOptional.isTidy = true := by
  cases s with
  | foreign _ => simp at h
  | _ => simp_all [makeOptional, isOptional]

end Tidy

section Numeric

@[simp] theorem isNumeric_unknown : unknown.isNumeric = true := rfl
@[simp] theorem isNumeric_any : any.isNumeric = true := rfl
@[simp] theorem isNumeric_bool : bool.isNumeric = true := rfl
@[simp] theorem isNumeric_int (r : Range Int) : (int r).isNumeric = true := rfl
@[simp] theorem isNumeric_float (r : Range Binary64) : (float r).isNumeric = r.isNumeric := rfl
@[simp] theorem isNumeric_text (r : Range Int) : (text r).isNumeric = true := rfl

@[simp] theorem isNumeric_list (r : Range Int) (item : Shape) :
    (list r item).isNumeric = item.isNumeric := rfl

@[simp] theorem isNumeric_optional (child : Shape) :
    (optional child).isNumeric = child.isNumeric := rfl

theorem isNumeric_record_iff {fields : List Field} :
    (record fields).isNumeric = true ↔ ∀ f ∈ fields, f.2.isNumeric = true :=
  everywhereFields_iff

theorem isNumeric_makeOptional (s : Shape) : s.makeOptional.isNumeric = s.isNumeric := by
  cases s <;> simp [makeOptional]

end Numeric

section WellFormed

theorem wellFormed_list_iff {r : Range Int} {item : Shape} :
    (list r item).WellFormed ↔ item.WellFormed := by
  constructor
  · rintro ⟨htidy, hnumeric⟩
    exact ⟨by simpa using htidy, by simpa using hnumeric⟩
  · rintro ⟨htidy, hnumeric⟩
    exact ⟨by simpa using htidy, by simpa using hnumeric⟩

theorem wellFormed_optional_iff {child : Shape} :
    (optional child).WellFormed ↔ child.isOptional = false ∧ child.WellFormed := by
  constructor
  · rintro ⟨htidy, hnumeric⟩
    rw [isTidy_optional_iff] at htidy
    exact ⟨htidy.1, htidy.2, by simpa using hnumeric⟩
  · rintro ⟨hmark, htidy, hnumeric⟩
    exact ⟨by simp [hmark, htidy], by simpa using hnumeric⟩

theorem wellFormed_record_iff {fields : List Field} :
    (record fields).WellFormed ↔
      (fields.map Prod.fst).Nodup ∧ ∀ f ∈ fields, f.2.WellFormed := by
  constructor
  · rintro ⟨htidy, hnumeric⟩
    obtain ⟨hnames, htidy⟩ := isTidy_record_iff.mp htidy
    exact ⟨hnames, fun f hf => ⟨htidy f hf, isNumeric_record_iff.mp hnumeric f hf⟩⟩
  · rintro ⟨hnames, hfields⟩
    exact ⟨isTidy_record_iff.mpr ⟨hnames, fun f hf => (hfields f hf).tidy⟩,
      isNumeric_record_iff.mpr fun f hf => (hfields f hf).numeric⟩

theorem not_wellFormed_foreign (x : Foreign) : ¬ (foreign x).WellFormed := by
  rintro ⟨htidy, -⟩
  simp at htidy

theorem WellFormed.makeOptional {s : Shape} (h : s.WellFormed) : s.makeOptional.WellFormed :=
  ⟨isTidy_makeOptional h.tidy, (isNumeric_makeOptional s).trans h.numeric⟩

end WellFormed

end JsonShape.Shape
