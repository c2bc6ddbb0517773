import JsonShape.Proofs.Inference.Room
import JsonShape.Proofs.Shape.Antisymmetry

/-!
The order in which values are taken. Every order of some values gives a least shape around the same
shapes, and least shapes differ in presentation only.
-/

set_option autoImplicit false

namespace JsonShape

open Binary64 (SameNumber)

namespace Shape

theorem around_le_around {shapes others : List Shape} (hshapes : ∀ s ∈ shapes, s.WellFormed)
    (hothers : ∀ s ∈ others, s.WellFormed) (h : shapes ⊆ others) :
    around shapes ≤ around others := by
  rw [around_le_iff hshapes (WellFormed.around hothers).tidy]
  exact fun s hs => le_around hothers (h hs)

theorem alike_around_of_perm {shapes others : List Shape} (h : shapes.Perm others)
    (hshapes : ∀ s ∈ shapes, s.WellFormed) :
    (around shapes).Alike SameNumber (around others) := by
  have hothers : ∀ s ∈ others, s.WellFormed := fun s hs => hshapes s (h.mem_iff.mpr hs)
  exact alike_of_le_of_le (WellFormed.around hshapes).tidy (WellFormed.around hothers).tidy
    (around_le_around hshapes hothers h.subset) (around_le_around hothers hshapes h.symm.subset)

end Shape

/-- Inference that succeeds on some values does so on them in every order, and the shapes differ in
the order of fields, in marks on any shapes and in the signs of zeros at most. -/
theorem alike_of_on_inferMany_of_perm {vs ws : List Value} (hperm : vs.Perm ws)
    (hjson : ∀ v ∈ vs, v.isJson = true) (hnumeric : ∀ v ∈ vs, v.isNumeric = true)
    {merges reached : Nat} {s : Shape} (h : (inferMany vs).on merges = (.ok s, reached))
    (before : Nat) :
    ∃ t after, (inferMany ws).on before = (.ok t, after) ∧ s.Alike SameNumber t := by
  have hlimits : ∀ w ∈ ws, w.InLimits Value.nestingRoom :=
    fun w hw => inLimits_of_on_inferMany hjson h w (hperm.mem_iff.mpr hw)
  obtain ⟨after, hrun⟩ := on_inferMany_of_inLimits hlimits before
  refine ⟨_, after, hrun, ?_⟩
  rw [eq_around_of_on_inferMany h]
  exact Shape.alike_around_of_perm (hperm.map Value.shape) (Value.wellFormed_shapes hjson hnumeric)

/-- Three records with keys in two orders, zeros of both signs, and a key of several kinds that is
null once. -/
def mixedRecords : List Value :=
  [.dict [(.text "a", .decimal (.finite false 0 (-1))), (.text "b", .null)],
    .dict [(.text "b", .text "s"), (.text "a", .decimal (.finite true 0 (-1)))],
    .dict [(.text "b", .bool true)]]

/-- The shape around these records. -/
def mixedShape : Shape :=
  .record [("a", .optional (.float (.point (.zero false)))), ("b", .optional .any)]

/-- The shape around these records, taken from the last to the first. -/
def reversedShape : Shape :=
  .record [("b", .any), ("a", .optional (.float (.point (.zero true))))]

theorem on_inferMany_mixedRecords : (inferMany mixedRecords).on 0 = (.ok mixedShape, 8) := rfl

theorem on_inferMany_reverse_mixedRecords :
    (inferMany mixedRecords.reverse).on 0 = (.ok reversedShape, 7) := rfl

theorem alike_of_on_inferMany_reverse_mixedRecords :
    mixedRecords.Perm mixedRecords.reverse ∧ (∀ v ∈ mixedRecords, v.isJson = true) ∧
      (∀ v ∈ mixedRecords, v.isNumeric = true) ∧
        (inferMany mixedRecords).on 0 = (.ok mixedShape, 8) ∧
          (inferMany mixedRecords.reverse).on 0 = (.ok reversedShape, 7) ∧
            mixedShape ≠ reversedShape ∧ mixedShape.Alike SameNumber reversedShape := by
  have hperm : mixedRecords.Perm mixedRecords.reverse := (List.reverse_perm _).symm
  refine ⟨hperm, by decide, by decide, on_inferMany_mixedRecords,
    on_inferMany_reverse_mixedRecords, by simp [mixedShape, reversedShape], ?_⟩
  obtain ⟨t, after, hrun, halike⟩ := alike_of_on_inferMany_of_perm hperm (by decide) (by decide)
    on_inferMany_mixedRecords 0
  rw [on_inferMany_reverse_mixedRecords] at hrun
  cases hrun
  exact halike

end JsonShape
