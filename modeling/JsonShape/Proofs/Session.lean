import JsonShape.Proofs.Inference.Room
import JsonShape.Proofs.Shape.Bounds
import JsonShape.Session

/-!
Sessions whose steps take numeric values with distinct text keys, merge earlier results and mark
them. All shapes that they find are consistent: those of values are, and each step keeps it so.
-/

set_option autoImplicit false

namespace JsonShape

namespace Value

/-- A value that may be taken in: its dictionaries have distinct text keys, and no number is NaN. -/
structure Admissible (v : Value) : Prop where
  keyed : v.isKeyed = true
  numeric : v.isNumeric = true

theorem consistent_shape {v : Value} (hv : v.isJson = true) (hn : v.isNumeric = true) :
    v.shape.Consistent := by
  refine ⟨isTidy_shape hv, ?_⟩
  induction v, hv using jsonInduction with
  | narrow n hfits =>
    simp only [shape, hfits, if_true]
    exact Shape.isBounded_int_iff.mpr ⟨Range.isOrdered_point n, hfits, hfits⟩
  | wide n hfits =>
    simp only [shape, hfits]
    exact Shape.isBounded_text_iff.mpr ⟨Range.isOrdered_point _, Int.natCast_nonneg _⟩
  | float x =>
    have hx : x.isNumber = true := by
      simpa [isNumeric, everywhere, isNumericNode] using hn
    simp only [shape, Shape.isBounded_float]
    exact Range.isOrdered_point_of_isNumber hx
  | decimal d _ x hd =>
    have hx : x.isNumber = true := by
      simpa [isNumeric, everywhere, isNumericNode, hd] using hn
    simp only [shape, hd, Option.elim, Shape.isBounded_float]
    exact Range.isOrdered_point_of_isNumber hx
  | text s =>
    exact Shape.isBounded_text_iff.mpr ⟨Range.isOrdered_point _, Int.natCast_nonneg _⟩
  | list items hitems ih =>
    rw [shape_list]
    refine Shape.isBounded_list_iff.mpr ⟨⟨Range.isOrdered_point _, Int.natCast_nonneg _⟩, ?_⟩
    refine (Shape.Consistent.around (List.forall_mem_map.mpr fun v hmem => ?_)).bounded
    exact ⟨isTidy_shape (isJson_list_iff.mp hitems v hmem),
      ih v hmem (isNumeric_list_iff.mp hn v hmem)⟩
  | dict entries _ ih =>
    rw [shape_dict]
    refine Shape.isBounded_record_iff.mpr (forall_mem_entryFields.mpr fun e he => ?_)
    exact ih e he (isNumeric_dict_iff.mp hn e he)
  | _ => rfl

theorem Admissible.consistent {v : Value} (hv : v.Admissible) {room : Nat}
    (h : v.Succeeds room) : v.shape.Consistent :=
  consistent_shape (h.isJson hv.keyed) hv.numeric

end Value

theorem consistent_of_on_infer {v : Value} (hv : v.Admissible) {s : Shape} {merges reached : Nat}
    (h : (infer v).on merges = (.ok s, reached)) : s.Consistent := by
  rw [v.settled h]
  exact hv.consistent ⟨merges, s, reached, h⟩

theorem consistent_of_on_inferMany {vs : List Value} (hvs : ∀ v ∈ vs, v.Admissible) {s : Shape}
    {merges reached : Nat} (h : (inferMany vs).on merges = (.ok s, reached)) : s.Consistent := by
  rw [eq_around_of_on_inferMany h]
  refine Shape.Consistent.around (List.forall_mem_map.mpr fun v hv => ?_)
  exact (hvs v hv).consistent (Value.succeeds_of_on_inferOnto h v hv)

theorem Tally.on_of_on_ofDocument {α : Type} {t : Tally α} {a : α} {merges reached : Nat}
    (h : (ofDocument t).on merges = (.ok a, reached)) : t.on merges = (.ok a, reached) := by
  rw [on_ofDocument] at h
  rcases ht : t.on merges with ⟨fault | b, between⟩
  · cases fault <;> simp [ht] at h
  · rwa [ht] at h

/-- An operand that is an earlier result, or a consistent shape. -/
def Operand.Admissible : Operand → Prop
  | .given s => s.Consistent
  | .result _ => True

/-- A step that takes values that may be taken in, or works on results and consistent shapes. -/
def Step.Admissible : Step → Prop
  | .infer v | .parse v => v.Admissible
  | .inferMany vs | .parseMany vs => ∀ v ∈ vs, v.Admissible
  | .unify a b => a.Admissible ∧ b.Admissible
  | .makeOptional a => a.Admissible

namespace Session

/-- Every shape that a step of the session has found is consistent. -/
def Consistent (s : Session) : Prop :=
  ∀ report ∈ s.reports, ∀ shape, report.outcome = .ok shape → shape.Consistent

theorem Consistent.shapeOf {s : Session} (h : s.Consistent) {a : Operand} (ha : a.Admissible) :
    (s.shapeOf a).Consistent := by
  cases a with
  | given shape => exact ha
  | result i =>
    simp only [Session.shapeOf]
    split
    · next shape merges hreport => exact h _ (List.mem_of_getElem? hreport) shape rfl
    · exact Shape.consistent_unknown

theorem Consistent.tally {s : Session} (h : s.Consistent) {step : Step} (hstep : step.Admissible)
    {shape : Shape} {merges reached : Nat}
    (hrun : (s.tally step).on merges = (.ok shape, reached)) : shape.Consistent := by
  cases step with
  | infer v => exact consistent_of_on_infer hstep hrun
  | parse v => exact consistent_of_on_infer hstep (Tally.on_of_on_ofDocument hrun)
  | inferMany vs => exact consistent_of_on_inferMany hstep hrun
  | parseMany vs => exact consistent_of_on_inferMany hstep (Tally.on_of_on_ofDocument hrun)
  | unify a b =>
    rw [Shape.eq_merge_of_on_unify hrun]
    exact (h.shapeOf hstep.1).merge (h.shapeOf hstep.2)
  | makeOptional a =>
    rw [Tally.eq_of_on_pure hrun]
    exact (h.shapeOf hstep).makeOptional

/-- One more step keeps the shapes of a session consistent. -/
theorem Consistent.take {s : Session} (h : s.Consistent) {step : Step}
    (hstep : step.Admissible) : (s.take step).Consistent := by
  simp only [Consistent, Session.take, List.forall_mem_append, List.forall_mem_singleton]
  refine ⟨h, fun shape hshape => ?_⟩
  exact h.tally hstep (Prod.ext hshape rfl)

theorem Consistent.foldl_take {steps : List Step} (hsteps : ∀ step ∈ steps, step.Admissible)
    {s : Session} (h : s.Consistent) : (steps.foldl Session.take s).Consistent := by
  induction steps generalizing s with
  | nil => exact h
  | cons step rest ih =>
    obtain ⟨hstep, hrest⟩ := List.forall_mem_cons.mp hsteps
    exact ih hrest (h.take hstep)

/-- Every shape that a session finds has distinct names, single marks, and bounds in order and
within their limits. -/
theorem consistent_run {steps : List Step} (h : ∀ step ∈ steps, step.Admissible) :
    (run steps).Consistent :=
  Consistent.foldl_take h (s := fresh) (by simp [Consistent, fresh])

/-- Steps that infer, merge earlier results and mark one of them; the third step fails. -/
def sampleSteps : List Step := [
  .infer (.dict [(.text "a", .int (-7)), (.text "b", .list [.null, .text "é"])]),
  .parseMany [.dict [(.text "b", .list [])], .dict [(.text "a", .float (.ofInt 3))]],
  .inferMany [.list [.bool true, .foreign "set"]],
  .unify (.result 0) (.result 1),
  .makeOptional (.result 3),
  .unify (.result 4) (.result 0)]

/-- What the last of these steps finds. -/
def sampleShape : Shape :=
  .optional (.record [("a", .optional (.float ⟨.ofInt (-7), .ofInt 3⟩)),
    ("b", .optional (.list ⟨0, 2⟩ (.optional (.text (.point 2)))))])

theorem consistent_run_sampleSteps :
    (∀ step ∈ sampleSteps, step.Admissible) ∧
      ⟨.ok sampleShape, 20⟩ ∈ (run sampleSteps).reports ∧ sampleShape.Consistent := by
  have hsteps : ∀ step ∈ sampleSteps, step.Admissible := by
    simp only [sampleSteps, List.forall_mem_cons]
    refine ⟨⟨by decide, by decide⟩, ?_, ?_, ⟨trivial, trivial⟩, trivial, ⟨trivial, trivial⟩, ?_⟩
    · exact List.forall_mem_cons.mpr
        ⟨⟨by decide, by decide⟩, List.forall_mem_singleton.mpr ⟨by decide, by decide⟩⟩
    · exact List.forall_mem_singleton.mpr ⟨by decide, by decide⟩
    · simp
  have hreports : (run sampleSteps).reports.getLast? = some ⟨.ok sampleShape, 20⟩ := rfl
  have hmem := List.mem_of_getLast? hreports
  exact ⟨hsteps, hmem, consistent_run hsteps _ hmem _ rfl⟩

end Session

end JsonShape
