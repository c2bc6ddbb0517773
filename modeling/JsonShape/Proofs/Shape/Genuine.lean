import JsonShape.Proofs.Tally

/-!
Shapes without foreign nodes, whatever names repeat in them and whatever marks are doubled. Their
merges are given up only for want of room, and then the two shapes are, together, higher than the
room, or because an integer of more than 64 bits is beyond the doubles.
-/

set_option autoImplicit false

namespace JsonShape

namespace Shape

/-- A node that is a shape and no foreign one. -/
def isGenuineNode : Shape → Bool
  | foreign _ => false
  | _ => true

/-- No node of a shape is foreign. -/
def isGenuine (s : Shape) : Bool := s.everywhere isGenuineNode

@[simp] theorem isGenuine_list (r : Range Int) (item : Shape) :
    (list r item).isGenuine = item.isGenuine := rfl

@[simp] theorem isGenuine_optional (child : Shape) :
    (optional child).isGenuine = child.isGenuine := rfl

@[simp] theorem isGenuine_foreign (x : Foreign) : (foreign x).isGenuine = false := rfl

theorem isGenuine_record_iff {fields : List Field} :
    (record fields).isGenuine = true ↔ ∀ f ∈ fields, f.2.isGenuine = true :=
  everywhereFields_iff

theorem isGenuine_of_isTidy {s : Shape} (hs : s.isTidy = true) : s.isGenuine = true := by
  refine everywhere_mono (fun t ht => ?_) hs
  cases t with
  | foreign x => exact ht
  | _ => rfl

mutual

/-- The number of lists, records and marks on the longest way down a shape. -/
def height : Shape → Nat
  | list _ item => item.height + 1
  | record fields => fieldsHeight fields + 1
  | optional child => child.height + 1
  | _ => 0

/-- The greatest height of a field. -/
def fieldsHeight : List (String × Shape) → Nat
  | [] => 0
  | (_, s) :: rest => max s.height (fieldsHeight rest)

end

theorem fieldsHeight_le_iff {fields : List Field} {n : Nat} :
    fieldsHeight fields ≤ n ↔ ∀ f ∈ fields, f.2.height ≤ n := by
  induction fields with
  | nil => simp [fieldsHeight]
  | cons f rest ih => simp [fieldsHeight, ih]

theorem height_le_fieldsHeight {fields : List Field} {f : Field} (h : f ∈ fields) :
    f.2.height ≤ fieldsHeight fields :=
  fieldsHeight_le_iff.mp le_rfl f h

end Shape

namespace Progress

open Shape

/-- The merge of two genuine shapes is given up for want of room only if they are together higher
than the room. -/
theorem fits_ofMerge_of_isGenuine (room : Nat) {a b : Shape} (ha : a.isGenuine = true)
    (hb : b.isGenuine = true) : (ofMerge room a b).Fits room (a.height + b.height + 1) := by
  induction room, a, b using roomInduction with
  | noRoom a b => exact .tooDeep (by rw [ofMerge_zero]; rfl) (Nat.zero_lt_succ _)
  | unknownLeft room b => exact .ended (by rw [ofMerge_unknown_left]; rfl)
  | unknownRight room a => exact .ended (by rw [ofMerge_unknown_right]; rfl)
  | anyLeft room b => exact .ended (by rw [ofMerge_any_left]; rfl)
  | anyRight room a => exact .ended (by rw [ofMerge_any_right]; rfl)
  | marked room a b ih =>
    rw [ofMerge_optional_optional]
    refine (ih ha hb).step.mono ?_
    simp only [height]
    omega
  | markedLeft room a b hkind ih =>
    rw [ofMerge_optional_left room hkind]
    refine (ih ha hb).step.mono ?_
    simp only [height]
    omega
  | markedRight room a b hkind ih =>
    rw [ofMerge_optional_right room hkind]
    refine (ih ha hb).step.mono ?_
    simp only [height]
    omega
  | lists room r s a b ih =>
    rw [ofMerge_list_list]
    refine (ih ha hb).step.mono ?_
    simp only [height]
    omega
  | records room fields others ih =>
    rw [isGenuine_record_iff] at ha hb
    rw [ofMerge_record_record]
    have hfields : (ofFields room fields
        (CutFields.ofFields (fields.map Prod.fst) others).shared).Fits room
          (fieldsHeight fields + fieldsHeight others + 1) := by
      apply fits_ofFields
      intro f hf s hs
      have hmem := CutFields.toField_mem_of_mem_shared hs
      have hmerge := ih f hf _ hmem (ha f hf) (hb _ hmem)
      have hleft := height_le_fieldsHeight hf
      have hright := height_le_fieldsHeight hmem
      exact hmerge.mono (by omega)
    refine hfields.step.mono ?_
    simp only [height]
    omega
  | intFloat room r s =>
    rw [ofMerge_int_float]
    exact (fits_ofWidening r room _).step
  | floatInt room r s =>
    rw [ofMerge_float_int]
    exact (fits_ofWidening s room _).step
  | foreigns room x y => simp at ha
  | conflict room a b k l hk hl hne => exact .ended (by rw [ofMerge_conflict room hk hl hne]; rfl)
  | _ => exact .ended rfl

end Progress

namespace Shape

/-- Genuine shapes have a counted merge, unless they are together higher than the room for nesting,
or an integer of more than 64 bits is too large to widen. -/
theorem on_unify_of_isGenuine {a b : Shape} (ha : a.isGenuine = true) (hb : b.isGenuine = true)
    (merges : Nat) :
    (∃ reached, (a.unify b).on merges = (.ok (a.merge b), reached)) ∨
      nestingRoom ≤ a.height + b.height ∧
        (∃ reached, (a.unify b).on merges = (.error .tooDeep, reached)) ∨
      ¬ (a.isNarrow = true ∧ b.isNarrow = true) ∧
        ∃ reached, (a.unify b).on merges = (.error .overflow, reached) := by
  have hfits := Progress.fits_ofMerge_of_isGenuine nestingRoom ha hb
  exact (on_unify_of_fits hfits merges).imp_right
    (Or.imp_left (And.imp_left Nat.le_of_lt_succ))

end Shape

end JsonShape
