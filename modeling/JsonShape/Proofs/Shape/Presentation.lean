import JsonShape.Proofs.Shape.Lookup
import Mathlib.Data.List.Forall2

/-!
Shapes that differ in their presentation only: in the order of the fields of records, in marks on
any shapes, which admit null without them, and, where these are left out of account, in the signs
of zeros. Records with distinct names are alike just when they have alike shapes, or none, under
every name.
-/

set_option autoImplicit false

namespace JsonShape

namespace Binary64

/-- Two doubles are one number: they are equal, or zeros of either sign. -/
def SameNumber (x y : Binary64) : Prop := x = y ∨ ∃ p q, x = zero p ∧ y = zero q

theorem sameNumber_of_le_of_le {x y : Binary64} (hxy : x ≤ y) (hyx : y ≤ x) : x.SameNumber y := by
  obtain ⟨a, b, ha, hb, hab⟩ := le_iff.mp hxy
  obtain ⟨b', a', hb', ha', hba⟩ := le_iff.mp hyx
  obtain rfl : a = a' := Option.some.inj (ha.symm.trans ha')
  obtain rfl : b = b' := Option.some.inj (hb.symm.trans hb')
  obtain rfl : a = b := le_antisymm hab hba
  cases x with
  | nan => simp [rank?] at ha
  | number p m hm =>
    cases y with
    | nan => simp [rank?] at hb
    | number q n hn =>
      by_cases hsign : p = q
      · have hcode : m = n := by
          simp only [rank?, Option.some.injEq] at ha hb
          subst hsign
          cases p <;> simp at ha hb <;> omega
        subst hsign hcode
        exact .inl rfl
      -- Numbers of either sign stand at one place only if both are zero.
      · have hzero : m = 0 ∧ n = 0 := by
          simp only [rank?, Option.some.injEq] at ha hb
          cases p <;> cases q <;> simp at ha hb hsign <;> omega
        obtain ⟨rfl, rfl⟩ := hzero
        exact .inr ⟨p, q, by simp [zero, ofCode], by simp [zero, ofCode]⟩

end Binary64

namespace Shape

/-- Marks a shape, unless it is an any shape, which admits null anyway. -/
def markUnlessAny : Shape → Shape
  | any => any
  | s => optional s

mutual

/-- A shape in which every any shape has absorbed the mark on it. -/
def absorbed : Shape → Shape
  | list r item => list r item.absorbed
  | record fields => record (absorbedFields fields)
  | optional child => child.absorbed.markUnlessAny
  | s => s

/-- The fields, in each of which every any shape has absorbed the mark on it. -/
def absorbedFields : List (String × Shape) → List (String × Shape)
  | [] => []
  | (name, s) :: rest => (name, s.absorbed) :: absorbedFields rest

end

variable (same : Binary64 → Binary64 → Prop)

mutual

/-- One shape is another one with the fields of every record in some order. Bounds that are doubles
need only be the same in some sense. -/
def Reordered : Shape → Shape → Prop
  | float r, float s => same r.lo s.lo ∧ same r.hi s.hi
  | list r a, list s b => r = s ∧ a.Reordered b
  | record fields, record others => ∃ order, order.Perm others ∧ ReorderedFields fields order
  | optional a, optional b => a.Reordered b
  | a, b => a = b

/-- The fields of one list are, one by one, those of another with their shapes reordered. -/
def ReorderedFields : List (String × Shape) → List (String × Shape) → Prop
  | [], [] => True
  | (name, a) :: rest, (other, b) :: others =>
    name = other ∧ a.Reordered b ∧ ReorderedFields rest others
  | _, _ => False

end

/-- Two shapes differ in the order of fields and in marks on any shapes at most. Bounds that are
doubles are the same in some sense. -/
def Alike (a b : Shape) : Prop := a.absorbed.Reordered same b.absorbed

section Reordered

variable {same}

theorem reordered_float_iff {r : Range Binary64} {b : Shape} :
    (float r).Reordered same b ↔ ∃ s, b = float s ∧ same r.lo s.lo ∧ same r.hi s.hi := by
  cases b with
  | float s =>
    constructor
    · exact fun h => ⟨s, rfl, h⟩
    · rintro ⟨_, heq, h⟩
      cases heq
      exact h
  | _ => exact iff_of_false Shape.noConfusion (by simp)

theorem reordered_list_iff {r : Range Int} {a b : Shape} :
    (list r a).Reordered same b ↔ ∃ c, b = list r c ∧ a.Reordered same c := by
  cases b with
  | list s c =>
    constructor
    · rintro ⟨rfl, h⟩
      exact ⟨c, rfl, h⟩
    · rintro ⟨_, heq, h⟩
      cases heq
      exact ⟨rfl, h⟩
  | _ => exact iff_of_false Shape.noConfusion (by simp)

theorem reordered_optional_iff {a b : Shape} :
    (optional a).Reordered same b ↔ ∃ c, b = optional c ∧ a.Reordered same c := by
  cases b with
  | optional c =>
    constructor
    · exact fun h => ⟨c, rfl, h⟩
    · rintro ⟨_, heq, h⟩
      cases heq
      exact h
  | _ => exact iff_of_false Shape.noConfusion (by simp)

theorem reordered_any_right {a : Shape} : a.Reordered same any ↔ a = any := by
  cases a <;> exact Iff.rfl

/-- The fields of one list correspond to those of another one by one. -/
abbrev FieldsMatch (same : Binary64 → Binary64 → Prop) : List Field → List Field → Prop :=
  List.Forall₂ fun f g => f.1 = g.1 ∧ f.2.Reordered same g.2

theorem reorderedFields_iff {fields others : List Field} :
    ReorderedFields same fields others ↔ FieldsMatch same fields others := by
  induction fields generalizing others with
  | nil =>
    cases others with
    | nil => exact iff_of_true trivial .nil
    | cons g others => exact iff_of_false id (by simp)
  | cons f rest ih =>
    cases others with
    | nil => exact iff_of_false id (by simp)
    | cons g others =>
      rw [FieldsMatch, List.forall₂_cons, ← FieldsMatch, ← ih, and_assoc]
      exact Iff.rfl

theorem reordered_record_iff {fields : List Field} {b : Shape} :
    (record fields).Reordered same b ↔
      ∃ others order, b = record others ∧ order.Perm others ∧ FieldsMatch same fields order := by
  cases b with
  | record others =>
    change (∃ order, order.Perm others ∧ ReorderedFields same fields order) ↔ _
    simp only [reorderedFields_iff]
    constructor
    · rintro ⟨order, hperm, hmatch⟩
      exact ⟨others, order, rfl, hperm, hmatch⟩
    · rintro ⟨_, order, heq, hperm, hmatch⟩
      cases heq
      exact ⟨order, hperm, hmatch⟩
  | _ => exact iff_of_false Shape.noConfusion (by simp)

theorem Reordered.refl [Std.Refl same] (s : Shape) : s.Reordered same s := by
  induction s using nodeInduction with
  | float r => exact ⟨Std.Refl.refl _, Std.Refl.refl _⟩
  | list r item ih => exact ⟨rfl, ih⟩
  | record fields ih =>
    refine reordered_record_iff.mpr ⟨fields, fields, rfl, .refl _, ?_⟩
    exact List.forall₂_same.mpr fun f hf => ⟨rfl, ih f hf⟩
  | optional child ih => exact ih
  | _ => rfl

private theorem fieldsMatch_trans {fields middle others : List Field}
    (trans : ∀ f ∈ fields, ∀ {b c : Shape}, f.2.Reordered same b → b.Reordered same c →
      f.2.Reordered same c)
    (hleft : FieldsMatch same fields middle) (hright : FieldsMatch same middle others) :
    FieldsMatch same fields others := by
  induction hleft generalizing others with
  | nil => exact hright
  | cons hfirst _ ih =>
    obtain ⟨htrans, hrest⟩ := List.forall_mem_cons.mp trans
    cases hright with
    | cons hsecond hright =>
      exact .cons ⟨hfirst.1.trans hsecond.1, htrans hfirst.2 hsecond.2⟩ (ih hrest hright)

theorem Reordered.trans [IsTrans Binary64 same] {a b c : Shape} (hab : a.Reordered same b)
    (hbc : b.Reordered same c) : a.Reordered same c := by
  induction a using nodeInduction generalizing b c with
  | float r =>
    obtain ⟨s, rfl, hlo, hhi⟩ := reordered_float_iff.mp hab
    obtain ⟨t, rfl, hlo', hhi'⟩ := reordered_float_iff.mp hbc
    exact ⟨IsTrans.trans _ _ _ hlo hlo', IsTrans.trans _ _ _ hhi hhi'⟩
  | list r a ih =>
    obtain ⟨b, rfl, hleft⟩ := reordered_list_iff.mp hab
    obtain ⟨c, rfl, hright⟩ := reordered_list_iff.mp hbc
    exact ⟨rfl, ih hleft hright⟩
  | record fields ih =>
    obtain ⟨middle, order, rfl, hperm, hleft⟩ := reordered_record_iff.mp hab
    obtain ⟨others, later, rfl, hperm', hright⟩ := reordered_record_iff.mp hbc
    -- The first order carries over to the partners of the fields in the middle.
    obtain ⟨order', hmatch, hperm''⟩ := List.perm_comp_forall₂ hperm hright
    refine reordered_record_iff.mpr ⟨others, order', rfl, hperm''.trans hperm', ?_⟩
    exact fieldsMatch_trans (fun f hf _ _ => ih f hf) hleft hmatch
  | optional a ih =>
    obtain ⟨b, rfl, hleft⟩ := reordered_optional_iff.mp hab
    obtain ⟨c, rfl, hright⟩ := reordered_optional_iff.mp hbc
    exact ih hleft hright
  | _ =>
    obtain rfl := hab
    exact hbc

private theorem names_eq_of_fieldsMatch {fields others : List Field}
    (h : FieldsMatch same fields others) : fields.map Prod.fst = others.map Prod.fst := by
  induction h with
  | nil => rfl
  | cons hfirst _ ih => rw [List.map_cons, List.map_cons, hfirst.1, ih]

private theorem rel_get?_of_fieldsMatch {fields others : List Field}
    (h : FieldsMatch same fields others) (name : String) :
    Option.Rel (Reordered same) ((record fields).get? name) ((record others).get? name) := by
  induction h with
  | nil => exact .none
  | cons hfirst _ ih =>
    rw [get?_cons, get?_cons, hfirst.1]
    split_ifs
    · exact .some hfirst.2
    · exact ih

private theorem exists_fieldsMatch {fields others : List Field}
    (h : ∀ f ∈ fields, ∃ g ∈ others, f.1 = g.1 ∧ f.2.Reordered same g.2) :
    ∃ order, FieldsMatch same fields order ∧ ∀ g ∈ order, g ∈ others := by
  induction fields with
  | nil => exact ⟨[], .nil, by simp⟩
  | cons f rest ih =>
    obtain ⟨⟨g, hg, hmatch⟩, hrest⟩ := List.forall_mem_cons.mp h
    obtain ⟨order, horder, hmem⟩ := ih hrest
    exact ⟨g :: order, .cons hmatch horder, List.forall_mem_cons.mpr ⟨hg, hmem⟩⟩

/-- Records with distinct names are the same but for order just when they have, under every name,
shapes that are, or none. -/
theorem reordered_record_iff_get? {fields others : List Field}
    (hfields : (fields.map Prod.fst).Nodup) (hothers : (others.map Prod.fst).Nodup) :
    (record fields).Reordered same (record others) ↔
      ∀ name, Option.Rel (Reordered same) ((record fields).get? name)
        ((record others).get? name) := by
  constructor
  · intro h name
    obtain ⟨_, order, heq, hperm, hmatch⟩ := reordered_record_iff.mp h
    cases heq
    rw [← get?_perm ((names_eq_of_fieldsMatch hmatch) ▸ hfields) hperm]
    exact rel_get?_of_fieldsMatch hmatch name
  · intro h
    have hpartner : ∀ f ∈ fields, ∃ g ∈ others, f.1 = g.1 ∧ f.2.Reordered same g.2 := by
      intro f hf
      have hrel := h f.1
      rw [get?_of_mem hfields hf] at hrel
      cases hget : (record others).get? f.1 with
      | none =>
        rw [hget] at hrel
        cases hrel
      | some b =>
        rw [hget] at hrel
        exact ⟨(f.1, b), mem_of_get? hget, rfl, Option.rel_some_some.mp hrel⟩
    obtain ⟨order, hmatch, hmem⟩ := exists_fieldsMatch hpartner
    have hnames := names_eq_of_fieldsMatch hmatch
    have horder : (order.map Prod.fst).Nodup := hnames ▸ hfields
    have hperm : order.Perm others := by
      refine (List.perm_ext_iff_of_nodup horder.of_map hothers.of_map).mpr fun g => ?_
      refine ⟨hmem g, fun hg => ?_⟩
      have hname : g.1 ∈ order.map Prod.fst := by
        rw [← hnames]
        by_contra hfresh
        have hrel := h g.1
        rw [get?_eq_none hfresh, get?_of_mem hothers hg] at hrel
        cases hrel
      obtain ⟨g', hg', hsame⟩ := List.mem_map.mp hname
      exact List.inj_on_of_nodup_map hothers (hmem g' hg') hg hsame ▸ hg'
    exact reordered_record_iff.mpr ⟨others, order, rfl, hperm, hmatch⟩

end Reordered

section Alike

variable {same}

theorem absorbed_record (fields : List Field) :
    (record fields).absorbed = record (fields.map (Prod.map id absorbed)) := by
  have habsorbed : absorbedFields fields = fields.map (Prod.map id absorbed) := by
    induction fields with
    | nil => rfl
    | cons f rest ih => simp only [absorbedFields, ih, List.map_cons, Prod.map, id_eq]
  simp only [absorbed, habsorbed]

theorem markUnlessAny_of_ne_any {s : Shape} (h : s ≠ any) : s.markUnlessAny = optional s := by
  cases s with
  | any => exact absurd rfl h
  | _ => rfl

theorem Reordered.markUnlessAny {a b : Shape} (h : a.Reordered same b) :
    a.markUnlessAny.Reordered same b.markUnlessAny := by
  by_cases ha : a = any
  · subst ha
    obtain rfl : any = b := h
    rfl
  · have hb : b ≠ any := by
      rintro rfl
      exact ha (reordered_any_right.mp h)
    rw [markUnlessAny_of_ne_any ha, markUnlessAny_of_ne_any hb]
    exact h

theorem Alike.refl [Std.Refl same] (s : Shape) : s.Alike same s := Reordered.refl _

theorem Alike.trans [IsTrans Binary64 same] {a b c : Shape} (hab : a.Alike same b)
    (hbc : b.Alike same c) : a.Alike same c :=
  Reordered.trans hab hbc

theorem Alike.optional {a b : Shape} (h : a.Alike same b) :
    (optional a).Alike same (optional b) :=
  h.markUnlessAny

theorem Alike.list {a b : Shape} (r : Range Int) (h : a.Alike same b) :
    (list r a).Alike same (list r b) :=
  ⟨rfl, h⟩

private theorem rel_map_iff {x y : Option Shape} :
    Option.Rel (Reordered same) (x.map absorbed) (y.map absorbed) ↔
      Option.Rel (Alike same) x y := by
  cases x <;> cases y <;> simp [Alike]

/-- Records with distinct names are alike just when they have alike shapes, or none, under every
name. -/
theorem alike_record_iff {fields others : List Field} (hfields : (fields.map Prod.fst).Nodup)
    (hothers : (others.map Prod.fst).Nodup) :
    (record fields).Alike same (record others) ↔
      ∀ name, Option.Rel (Alike same) ((record fields).get? name) ((record others).get? name) := by
  have hnames (row : List Field) :
      (row.map (Prod.map id absorbed)).map Prod.fst = row.map Prod.fst := by
    simp [List.map_map, Function.comp_def]
  rw [Alike, absorbed_record, absorbed_record,
    reordered_record_iff_get? (by rwa [hnames]) (by rwa [hnames])]
  refine forall_congr' fun name => ?_
  rw [get?_map, get?_map, rel_map_iff]

end Alike

end Shape

end JsonShape
