import JsonShape.Proofs.Shape.Order
import JsonShape.Proofs.Shape.Presentation

/-!
Shapes that lie below each other. The order of shapes does not see the order of fields, a mark on
an any shape or the sign of a zero, and it sees everything else.
-/

set_option autoImplicit false

namespace JsonShape.Shape

open Binary64 (SameNumber)

/-- No tidy shape lies above an any shape but any shapes, marked or not. -/
private theorem alike_any_of_any_le {b : Shape} (hb : b.isTidy = true) (h : any ≤ b) :
    any.Alike SameNumber b ∧ b.Alike SameNumber any := by
  rcases any_le_iff.mp h with rfl | ⟨c, rfl, hc⟩
  · exact ⟨rfl, rfl⟩
  · rw [isTidy_optional_iff] at hb
    rcases any_le_iff.mp hc with rfl | ⟨d, rfl, -⟩
    · exact ⟨rfl, rfl⟩
    · exact absurd hb.1 (by simp [isOptional])

private theorem alike_record_of_le_of_le {fields others : List Field}
    (hfields : (fields.map Prod.fst).Nodup) (hothers : (others.map Prod.fst).Nodup)
    (alike : ∀ f ∈ fields, ∀ g ∈ others, f.2 ≤ g.2 → g.2 ≤ f.2 → f.2.Alike SameNumber g.2)
    (hab : record fields ≤ record others) (hba : record others ≤ record fields) :
    (record fields).Alike SameNumber (record others) := by
  refine (alike_record_iff hfields hothers).mpr fun name => ?_
  cases hleft : (record fields).get? name with
  | none =>
    have hfresh : name ∉ others.map Prod.fst := by
      intro hname
      obtain ⟨g, hg, rfl⟩ := List.mem_map.mp hname
      obtain ⟨f, hf, hfname, -⟩ := (record_le_record.mp hba).1 g hg
      exact get?_eq_none_iff.mp hleft (hfname ▸ List.mem_map_of_mem hf)
    rw [get?_eq_none hfresh]
    exact .none
  | some a =>
    have hf := mem_of_get? hleft
    obtain ⟨g, hg, hname, hle⟩ := (record_le_record.mp hab).1 _ hf
    have hge := le_of_record_le hfields hba hg hf hname.symm
    have hright := get?_of_mem hothers hg
    rw [hname] at hright
    rw [hright]
    exact .some (alike _ hf g hg hle hge)

/-- Tidy shapes that lie below each other differ in presentation only. -/
theorem alike_of_le_of_le {a b : Shape} (ha : a.isTidy = true) (hb : b.isTidy = true)
    (hab : a ≤ b) (hba : b ≤ a) : a.Alike SameNumber b := by
  induction a using nodeInduction generalizing b with
  | unknown =>
    obtain rfl := le_unknown_iff.mp hba
    rfl
  | any => exact (alike_any_of_any_le hb hab).1
  | optional a ih =>
    rcases optional_le_iff.mp hab with rfl | ⟨b, rfl, hab⟩
    · exact (alike_any_of_any_le ha hba).2
    · rw [isTidy_optional_iff] at ha hb
      exact (ih ha.2 hb.2 hab hba).optional
  | list r a ih =>
    cases b with
    | list s b =>
      rw [list_le_list] at hab hba
      rw [isTidy_list] at ha hb
      exact Range.within_antisymm hab.1 hba.1 ▸ (ih ha hb hab.2 hba.2).list r
    | _ => simp_all [le_def, within]
  | record fields ih =>
    cases b with
    | record others =>
      obtain ⟨hfields, ha⟩ := isTidy_record_iff.mp ha
      obtain ⟨hothers, hb⟩ := isTidy_record_iff.mp hb
      refine alike_record_of_le_of_le hfields hothers (fun f hf g hg => ?_) hab hba
      exact ih f hf (ha f hf) (hb g hg)
    | _ => simp_all [le_def, within]
  | bool =>
    cases b with
    | bool => rfl
    | _ => simp_all [le_def, within]
  | int r =>
    cases b with
    | int s => exact Range.within_antisymm hab hba ▸ rfl
    | _ => simp_all [le_def, within]
  | float r =>
    cases b with
    | float s =>
      obtain ⟨hlo, hhi⟩ := Range.within_iff.mp hab
      obtain ⟨hlo', hhi'⟩ := Range.within_iff.mp hba
      exact ⟨Binary64.sameNumber_of_le_of_le hlo' hlo, Binary64.sameNumber_of_le_of_le hhi hhi'⟩
    | _ => simp_all [le_def, within]
  | text r =>
    cases b with
    | text s => exact Range.within_antisymm hab hba ▸ rfl
    | _ => simp_all [le_def, within]
  | foreign x => simp at ha

end JsonShape.Shape
