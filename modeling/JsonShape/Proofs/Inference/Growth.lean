import JsonShape.Proofs.Inference.Room
import JsonShape.Proofs.Shape.Core

/-!
What more values do to an inferred shape. Wherever a shape had a record before a merge, the names of
its fields stay and keep their order; any shapes stay any shapes; and every place stays, unless it
lies below a place where values of several kinds have now been seen. Places are looked at through
optional marks.
-/

set_option autoImplicit false

namespace JsonShape

/-- A way down to a part of a shape, whatever marks are on the way. -/
inductive Part
  | item
  | field (name : String)
  deriving DecidableEq

namespace Shape

/-- A part of a shape that bears no mark. -/
def part? : Shape → Part → Option Shape
  | list _ item, .item => some item
  | record fields, .field name => (record fields).get? name
  | _, _ => none

/-- What is below the marks at a place of a shape. -/
def find? : Shape → List Part → Option Shape
  | s, [] => some s.core
  | s, step :: p => (s.core.part? step).bind (·.find? p)

/-- A place lies below an any shape. -/
def HidesBelowAny (s : Shape) (p : List Part) : Prop :=
  ∃ q step r, p = q ++ step :: r ∧ s.find? q = some any

/-- What a shape keeps when more is merged into it. -/
structure GrowsInto (s t : Shape) : Prop where
  /-- Where both have a record, the names of the first stay, in their order. -/
  names : ∀ p fields others, s.find? p = some (record fields) → t.find? p = some (record others) →
    (fields.map Prod.fst).Sublist (others.map Prod.fst)
  /-- What is an any shape stays one. -/
  anys : ∀ p u, s.find? p = some any → t.find? p = some u → u = any
  /-- A place is lost only below an any shape. -/
  places : ∀ p u, s.find? p = some u → (∃ v, t.find? p = some v) ∨ t.HidesBelowAny p

section Places

theorem core_core (s : Shape) : s.core.core = s.core :=
  core_of_not_isOptional (isOptional_core s)

theorem find?_core (s : Shape) (p : List Part) : s.core.find? p = s.find? p := by
  cases p with
  | nil => rw [find?, find?, core_core]
  | cons step p => rw [find?, find?, core_core]

theorem find?_append (s : Shape) (p q : List Part) :
    s.find? (p ++ q) = (s.find? p).bind (·.find? q) := by
  induction p generalizing s with
  | nil => exact (find?_core s q).symm
  | cons step p ih =>
    rw [List.cons_append, find?, find?]
    cases s.core.part? step with
    | none => rfl
    | some u => exact ih u

/-- Nothing is found below an any shape. -/
theorem find?_eq_none_of_hidesBelowAny {s : Shape} {p : List Part} (h : s.HidesBelowAny p) :
    s.find? p = none := by
  obtain ⟨q, step, r, rfl, hany⟩ := h
  rw [find?_append, hany]
  cases step <;> rfl

theorem HidesBelowAny.cons {s u : Shape} {step : Part} {p : List Part}
    (hstep : s.core.part? step = some u) (h : u.HidesBelowAny p) :
    s.HidesBelowAny (step :: p) := by
  obtain ⟨q, step', r, rfl, hany⟩ := h
  exact ⟨step :: q, step', r, rfl, by rw [find?, hstep]; exact hany⟩

end Places

section Merges

/-- Where two shapes are of one kind, a part of the first is merged with one of the second, or with
nothing; otherwise their merge has no parts. -/
theorem part?_merge {a b : Shape} (ha : a.isTidy = true) (hb : b.isTidy = true)
    (hmark : b.isOptional = false) {step : Part} {u : Shape} (hu : a.part? step = some u) :
    a.merge b = any ∨ ∃ v t, v.isTidy = true ∧ (a.merge b).part? step = some t ∧
      t.core = (u.merge v).core := by
  have halone (h : b = unknown) : ∃ v t, v.isTidy = true ∧ (a.merge b).part? step = some t ∧
      t.core = (u.merge v).core := by
    refine ⟨unknown, u, rfl, ?_, by rw [merge_unknown_right]⟩
    rw [h, merge_unknown_right, hu]
  cases a with
  | list r item =>
    cases step with
    | field name => cases hu
    | item =>
      obtain rfl : item = u := Option.some.inj hu
      cases b with
      | unknown => exact .inr (halone rfl)
      | list s other => exact .inr ⟨other, item.merge other, hb, rfl, rfl⟩
      | optional child => simp [isOptional] at hmark
      | _ => exact .inl rfl
  | record fields =>
    cases step with
    | item => cases hu
    | field name =>
      cases b with
      | unknown => exact .inr (halone rfl)
      | record others =>
        obtain ⟨hfields, -⟩ := isTidy_record_iff.mp ha
        obtain ⟨hothers, hshapes⟩ := isTidy_record_iff.mp hb
        have hcell : ((record fields).merge (record others)).part? (.field name) =
            mergeCells (some u) ((record others).get? name) := by
          rw [merge_record_record, part?, get?_mergedFields hfields hothers]
          exact congrArg (mergeCells · _) hu
        cases hget : (record others).get? name with
        | none =>
          rw [hget] at hcell
          refine .inr ⟨unknown, u.makeOptional, rfl, hcell, ?_⟩
          rw [core_makeOptional, merge_unknown_right]
        | some v =>
          rw [hget] at hcell
          exact .inr ⟨v, u.merge v, hshapes _ (mem_of_get? hget), hcell, rfl⟩
      | optional child => simp [isOptional] at hmark
      | _ => exact .inl rfl
  | _ => cases hu

theorem isTidy_of_part? {s u : Shape} (hs : s.isTidy = true) {step : Part}
    (hu : s.part? step = some u) : u.isTidy = true := by
  cases s with
  | list r item =>
    cases step with
    | item => exact Option.some.inj hu ▸ hs
    | field name => cases hu
  | record fields =>
    cases step with
    | item => cases hu
    | field name => exact (isTidy_record_iff.mp hs).2 _ (mem_of_get? hu)
  | _ => cases hu

/-- What is at a place of a shape is merged there with something, or it is hidden below an any
shape. -/
theorem find?_merge {a b : Shape} (ha : a.isTidy = true) (hb : b.isTidy = true) {p : List Part}
    {u : Shape} (hu : a.find? p = some u) :
    (∃ v, (a.merge b).find? p = some (u.merge v)) ∨ (a.merge b).HidesBelowAny p := by
  induction p generalizing a b with
  | nil =>
    obtain rfl : a.core = u := Option.some.inj hu
    exact .inl ⟨b.core, congrArg some (core_merge a b)⟩
  | cons step p ih =>
    obtain ⟨a', hstep, hu⟩ := Option.bind_eq_some_iff.mp hu
    rcases part?_merge (isTidy_core ha) (isTidy_core hb) (isOptional_core b) hstep with
      hany | ⟨b', t, hb', ht, hcore⟩
    · refine .inr ⟨[], step, p, rfl, congrArg some ?_⟩
      rw [core_merge, hany]
    · rw [← core_merge] at ht
      have hfound (q : List Part) : t.find? q = (a'.merge b').find? q := by
        rw [← find?_core, hcore, find?_core]
      rcases ih (isTidy_of_part? (isTidy_core ha) hstep) hb' hu with ⟨v, hv⟩ | hhidden
      · refine .inl ⟨v, ?_⟩
        rw [find?, ht]
        exact (hfound p).trans hv
      · refine .inr (HidesBelowAny.cons ht ?_)
        obtain ⟨q, step', r, hp, hany⟩ := hhidden
        exact ⟨q, step', r, hp, (hfound q).trans hany⟩

/-- A merge that is a record has the names of the left record, in their order. -/
theorem names_sublist_of_merge {fields others : List Field} {v : Shape}
    (h : (record fields).merge v = record others) :
    (fields.map Prod.fst).Sublist (others.map Prod.fst) := by
  cases v with
  | unknown =>
    cases h
    exact List.Sublist.refl _
  | record row =>
    cases h
    exact names_sublist_mergedFields fields row
  | _ => cases h

/-- A shape grows into its merge with another one. -/
theorem growsInto_merge {a b : Shape} (ha : a.isTidy = true) (hb : b.isTidy = true) :
    a.GrowsInto (a.merge b) := by
  have hkept {p : List Part} {u t : Shape} (hu : a.find? p = some u)
      (ht : (a.merge b).find? p = some t) : ∃ v, u.merge v = t := by
    rcases find?_merge ha hb hu with ⟨v, hv⟩ | hhidden
    · exact ⟨v, Option.some.inj (hv.symm.trans ht)⟩
    · rw [find?_eq_none_of_hidesBelowAny hhidden] at ht
      cases ht
  refine ⟨fun p fields others hu ht => ?_, fun p t hu ht => ?_, fun p u hu => ?_⟩
  · obtain ⟨v, hv⟩ := hkept hu ht
    exact names_sublist_of_merge hv
  · obtain ⟨v, hv⟩ := hkept hu ht
    exact hv.symm
  · exact (find?_merge ha hb hu).imp_left fun ⟨v, hv⟩ => ⟨_, hv⟩

end Merges

end Shape

/-- Inference finds the shape around JSON values of which it finds shapes, with and without a
further one, and the shape without it grows into the shape with it. -/
theorem on_inferMany_concat {vs : List Value} {v : Value} (hjson : ∀ w ∈ vs ++ [v], w.isJson = true)
    (hvs : ∀ w ∈ vs ++ [v], ∃ merges s reached, (infer w).on merges = (.ok s, reached))
    (merges before : Nat) :
    ∃ s t reached after, (inferMany vs).on merges = (.ok s, reached) ∧
      (inferMany (vs ++ [v])).on before = (.ok t, after) ∧ s.GrowsInto t := by
  obtain ⟨after, hall⟩ := on_inferMany_of_succeeds hvs before
  simp only [List.forall_mem_append, List.forall_mem_singleton] at hjson hvs
  obtain ⟨reached, hfirst⟩ := on_inferMany_of_succeeds hvs.1 merges
  rw [List.map_append, List.map_singleton, Shape.around_concat] at hall
  exact ⟨_, _, reached, after, hfirst, hall, Shape.growsInto_merge
    (Shape.isTidy_around (Value.isTidy_shapes hjson.1)) (Value.isTidy_shape hjson.2)⟩

/-- A table with a row inside, and a null. -/
def firstTables : List Value :=
  [.dict [(.text "rows", .list [.dict [(.text "b", .int 1), (.text "a", .list [])]])], .null]

/-- A table whose rows have the names in another order and one more, and a text for a list. -/
def laterTable : Value :=
  .dict [(.text "id", .int 7), (.text "rows", .list [.null,
    .dict [(.text "a", .text "x"), (.text "c", .bool true), (.text "b", .null)]])]

theorem on_inferMany_concat_laterTable :
    (∀ w ∈ firstTables ++ [laterTable], w.isJson = true) ∧
      (∀ w ∈ firstTables ++ [laterTable],
        ∃ merges s reached, (infer w).on merges = (.ok s, reached)) ∧
        ∃ s t reached after, (inferMany firstTables).on 0 = (.ok s, reached) ∧
          (inferMany (firstTables ++ [laterTable])).on 0 = (.ok t, after) ∧ s.GrowsInto t ∧
            (s.find? [.field "rows", .item]).map Shape.fieldNames = some ["b", "a"] ∧
              (t.find? [.field "rows", .item]).map Shape.fieldNames = some ["b", "a", "c"] := by
  have hjson : ∀ w ∈ firstTables ++ [laterTable], w.isJson = true := by decide
  have hvs : ∀ w ∈ firstTables ++ [laterTable],
      ∃ merges s reached, (infer w).on merges = (.ok s, reached) := by
    simp only [List.forall_mem_append, firstTables, List.forall_mem_cons]
    exact ⟨⟨⟨0, _, _, rfl⟩, ⟨0, _, _, rfl⟩, List.forall_mem_nil _⟩, ⟨0, _, _, rfl⟩,
      List.forall_mem_nil _⟩
  obtain ⟨s, t, reached, after, hs, ht, hgrows⟩ := on_inferMany_concat hjson hvs 0 0
  refine ⟨hjson, hvs, s, t, reached, after, hs, ht, hgrows, ?_, ?_⟩
  · rw [eq_around_of_on_inferMany hs]
    decide
  · rw [eq_around_of_on_inferMany ht]
    decide

end JsonShape
