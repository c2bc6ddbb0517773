import JsonShape.Proofs.Shape.Node
import Mathlib.Data.List.Nodup

/-!
The order of shapes by what they admit. Unknown lies below and any above all others, ranges lie
inside each other, integers lie below the doubles they round to, and a record lies below another
one that has all its fields and lets every further field be absent. The order is reflexive on
well-formed shapes and transitive below tidy ones; it does not tell an any shape from one that may
be absent.
-/

set_option autoImplicit false

namespace JsonShape.Shape

/-- A shape that admits null, and with it the absence of a field. -/
def isNullable : Shape → Bool
  | any | optional _ => true
  | _ => false

mutual

/-- One shape lies within another one. -/
def within : Shape → Shape → Bool
  | unknown, _ => true
  | _, any => true
  | optional a, optional c => a.within c
  | a, optional c => a.within c
  | bool, bool => true
  | int r, int s => r.within s
  | int r, float s => r.toBinary64.within s
  | float r, float s => r.within s
  | text r, text s => r.within s
  | list r a, list s c => r.within s && a.within c
  | record fields, record others =>
    fields.all (fieldWithin · others) &&
      others.all fun g => g.1 ∈ fields.map Prod.fst || g.2.isNullable
  | _, _ => false

/-- A field lies within one of its name in a list. -/
def fieldWithin : String × Shape → List (String × Shape) → Bool
  | _, [] => false
  | f, (name, c) :: rest => (name == f.1 && f.2.within c) || fieldWithin f rest

end

instance : LE Shape := ⟨fun a c => a.within c = true⟩

instance : DecidableLE Shape := fun a c => inferInstanceAs (Decidable (a.within c = true))

theorem le_def {a c : Shape} : a ≤ c ↔ a.within c = true := Iff.rfl

theorem fieldWithin_iff {f : Field} {others : List Field} :
    fieldWithin f others = true ↔ ∃ g ∈ others, g.1 = f.1 ∧ f.2 ≤ g.2 := by
  induction others with
  | nil => exact iff_of_false Bool.false_ne_true (by simp)
  | cons g rest ih =>
    change ((g.1 == f.1 && f.2.within g.2) || fieldWithin f rest) = true ↔ _
    rw [Bool.or_eq_true, Bool.and_eq_true, beq_iff_eq, ih, List.exists_mem_cons_iff, le_def]

@[simp] theorem unknown_le (c : Shape) : unknown ≤ c := by
  cases c <;> rfl

@[simp] theorem le_any (a : Shape) : a ≤ any := by
  cases a <;> rfl

@[simp] theorem optional_le_optional {a c : Shape} : optional a ≤ optional c ↔ a ≤ c := Iff.rfl

theorem le_optional {a c : Shape} (ha : a.isOptional = false) : a ≤ optional c ↔ a ≤ c := by
  cases a with
  | optional a => simp [isOptional] at ha
  | unknown => exact iff_of_true (unknown_le _) (unknown_le _)
  | _ => exact Iff.rfl

theorem optional_le_iff {a c : Shape} :
    optional a ≤ c ↔ c = any ∨ ∃ d, c = optional d ∧ a ≤ d := by
  cases c with
  | any => simp
  | optional c => simp
  | _ => exact iff_of_false Bool.false_ne_true (by simp)

@[simp] theorem list_le_list {r s : Range Int} {a c : Shape} :
    list r a ≤ list s c ↔ r.within s = true ∧ a ≤ c := Bool.and_eq_true_iff

/-- Every field of the lower record lies within one of its name, and what it lacks may be absent. -/
theorem record_le_record {fields others : List Field} :
    record fields ≤ record others ↔
      (∀ f ∈ fields, ∃ g ∈ others, g.1 = f.1 ∧ f.2 ≤ g.2) ∧
        ∀ g ∈ others, g.1 ∉ fields.map Prod.fst → g.2.isNullable = true := by
  change (fields.all (fieldWithin · others) &&
    others.all fun g => g.1 ∈ fields.map Prod.fst || g.2.isNullable) = true ↔ _
  simp only [Bool.and_eq_true, List.all_eq_true, fieldWithin_iff, Bool.or_eq_true,
    decide_eq_true_eq, or_iff_not_imp_left]

theorem any_le_iff {c : Shape} : any ≤ c ↔ c = any ∨ ∃ d, c = optional d ∧ any ≤ d := by
  cases c with
  | any => simp
  | optional c => simpa using le_optional rfl
  | _ => exact iff_of_false Bool.false_ne_true (by simp)

/-- The shape below all optional marks. -/
def core : Shape → Shape
  | optional c => c.core
  | s => s

theorem isOptional_core (c : Shape) : c.core.isOptional = false := by
  induction c using nodeInduction with
  | optional c ih => exact ih
  | _ => rfl

/-- A shape without a mark sees only what is below the marks of another one. -/
theorem le_core_iff {a : Shape} (ha : a.isOptional = false) (c : Shape) : a ≤ c ↔ a ≤ c.core := by
  induction c using nodeInduction with
  | optional c ih => rw [le_optional ha, ih, core]
  | _ => rfl

theorem isTidy_core {c : Shape} (h : c.isTidy = true) : c.core.isTidy = true := by
  induction c using nodeInduction with
  | optional c ih =>
    rw [isTidy_optional_iff] at h
    exact ih h.2
  | _ => exact h

theorem isNullable_of_le {a c : Shape} (h : a ≤ c) (ha : a.isNullable = true) :
    c.isNullable = true := by
  cases a with
  | any =>
    rcases any_le_iff.mp h with rfl | ⟨d, rfl, -⟩
    · rfl
    · rfl
  | optional a =>
    rcases optional_le_iff.mp h with rfl | ⟨d, rfl, -⟩
    · rfl
    · rfl
  | _ => simp [isNullable] at ha

theorem le_of_any_le {a c : Shape} (h : any ≤ c) : a ≤ c := by
  induction c using nodeInduction generalizing a with
  | any => exact le_any a
  | optional c ih =>
    rw [le_optional rfl] at h
    cases a with
    | optional a => exact optional_le_optional.mpr (ih h)
    | _ => exact (le_optional rfl).mpr (ih h)
  | _ => exact absurd h Bool.false_ne_true

theorem le_refl_of_wellFormed {a : Shape} (h : a.WellFormed) : a ≤ a := by
  induction a using nodeInduction with
  | unknown | any | bool => rfl
  | int r | text r => exact Range.within_refl r
  | float r => exact Range.within_refl_of_isNumeric h.numeric
  | list r a ih => exact list_le_list.mpr ⟨Range.within_refl r, ih (wellFormed_list_iff.mp h)⟩
  | record fields ih =>
    obtain ⟨-, hfields⟩ := wellFormed_record_iff.mp h
    refine record_le_record.mpr ⟨fun f hf => ⟨f, hf, rfl, ih f hf (hfields f hf)⟩, ?_⟩
    intro g hg hfresh
    exact absurd (List.mem_map_of_mem hg) hfresh
  | optional a ih => exact optional_le_optional.mpr (ih (wellFormed_optional_iff.mp h).2)
  | foreign x => exact absurd h (not_wellFormed_foreign x)

theorem le_unknown_iff {a : Shape} : a ≤ unknown ↔ a = unknown := by
  cases a with
  | unknown => simp
  | _ => exact iff_of_false Bool.false_ne_true (by simp)

/-- A field of a record that lies below another record has its place there. -/
theorem le_of_record_le {fields others : List Field} (hnames : (others.map Prod.fst).Nodup)
    (h : record fields ≤ record others) {f g : Field} (hf : f ∈ fields) (hg : g ∈ others)
    (hname : g.1 = f.1) : f.2 ≤ g.2 := by
  obtain ⟨g', hg', hname', hle⟩ := (record_le_record.mp h).1 f hf
  have heq : g' = g := List.inj_on_of_nodup_map hnames hg' hg (hname'.trans hname.symm)
  exact heq ▸ hle

theorem le_of_get? {a t : Shape} {fields : List Field} (hnames : (fields.map Prod.fst).Nodup)
    (h : a ≤ record fields) {f : Field} (hf : f ∈ fields) (ht : a.get? f.1 = some t) :
    t ≤ f.2 := by
  cases a with
  | record own =>
    simp only [get?, Option.map_eq_some_iff] at ht
    obtain ⟨g, hfind, rfl⟩ := ht
    have hname : g.1 = f.1 := by simpa using List.find?_some hfind
    exact le_of_record_le hnames h (List.mem_of_find?_eq_some hfind) hf hname.symm
  | _ => simp [get?] at ht

private theorem record_le_trans {fields middle others : List Field}
    (hnames : (others.map Prod.fst).Nodup)
    (trans : ∀ g ∈ others, ∀ {a b : Shape}, a ≤ b → b ≤ g.2 → a ≤ g.2)
    (hab : record fields ≤ record middle) (hbc : record middle ≤ record others) :
    record fields ≤ record others := by
  refine record_le_record.mpr ⟨fun f hf => ?_, fun g hg hfresh => ?_⟩
  · obtain ⟨m, hm, hmname, hfm⟩ := (record_le_record.mp hab).1 f hf
    obtain ⟨g, hg, hgname, hmg⟩ := (record_le_record.mp hbc).1 m hm
    exact ⟨g, hg, hgname.trans hmname, trans g hg hfm hmg⟩
  · by_cases hmiddle : g.1 ∈ middle.map Prod.fst
    · obtain ⟨m, hm, hmname⟩ := List.mem_map.mp hmiddle
      have hnullable := (record_le_record.mp hab).2 m hm (hmname ▸ hfresh)
      exact isNullable_of_le (le_of_record_le hnames hbc hm hg hmname.symm) hnullable
    · exact (record_le_record.mp hbc).2 g hg hmiddle

theorem le_trans {a b c : Shape} (hc : c.isTidy = true) (hab : a ≤ b) (hbc : b ≤ c) : a ≤ c := by
  -- The induction is on the bound: a mark on it may be new to either shape below it.
  induction c using nodeInduction generalizing a b with
  | any => exact le_any a
  | optional c ih =>
    rw [isTidy_optional_iff] at hc
    by_cases ha : a.isOptional = true
    · obtain ⟨a, rfl⟩ := isOptional_iff.mp ha
      rcases optional_le_iff.mp hab with rfl | ⟨b, rfl, hab⟩
      · exact le_of_any_le hbc
      · exact optional_le_optional.mpr (ih hc.2 hab (optional_le_optional.mp hbc))
    · rw [Bool.not_eq_true] at ha
      rw [le_optional ha]
      by_cases hb : b.isOptional = true
      · obtain ⟨b, rfl⟩ := isOptional_iff.mp hb
        exact ih hc.2 ((le_optional ha).mp hab) (optional_le_optional.mp hbc)
      · rw [Bool.not_eq_true] at hb
        exact ih hc.2 hab ((le_optional hb).mp hbc)
  | unknown =>
    obtain rfl := le_unknown_iff.mp hbc
    exact hab
  | list s c ih =>
    cases b with
    | unknown => exact (le_unknown_iff.mp hab) ▸ unknown_le _
    | list t b =>
      cases a with
      | unknown => exact unknown_le _
      | list r a =>
        rw [list_le_list] at *
        exact ⟨Range.within_trans hab.1 hbc.1, ih (by simpa using hc) hab.2 hbc.2⟩
      | _ => exact absurd hab Bool.false_ne_true
    | _ => exact absurd hbc Bool.false_ne_true
  | record others ih =>
    obtain ⟨hnames, hothers⟩ := isTidy_record_iff.mp hc
    cases b with
    | unknown => exact (le_unknown_iff.mp hab) ▸ unknown_le _
    | record middle =>
      cases a with
      | unknown => exact unknown_le _
      | record fields =>
        exact record_le_trans hnames (fun g hg _ _ => ih g hg (hothers g hg)) hab hbc
      | _ => exact absurd hab Bool.false_ne_true
    | _ => exact absurd hbc Bool.false_ne_true
  | bool => cases b <;> cases a <;> simp_all [le_def, within]
  | int s =>
    cases b <;> cases a <;> simp_all [le_def, within]
    exact Range.within_trans hab hbc
  | float s =>
    cases b <;> cases a <;> simp_all [le_def, within]
    · exact Range.binary64_within_trans (Range.toBinary64_within hab) hbc
    · exact Range.binary64_within_trans hab hbc
    · exact Range.binary64_within_trans hab hbc
  | text s =>
    cases b <;> cases a <;> simp_all [le_def, within]
    exact Range.within_trans hab hbc
  | foreign x => simp at hc

end JsonShape.Shape
