import JsonShape.Proofs.Shape.Join

/-!
Shapes with their ranges taken away. A merge looks at kinds, marks and names alone, so the skeleton
of a merge is the merge of the skeletons. A skeleton has no NaN, whatever its shape has.
-/

set_option autoImplicit false

namespace JsonShape.Shape

mutual

/-- A shape with one and the same range in place of all its ranges. -/
def skeleton : Shape → Shape
  | int _ => int (.point 0)
  | float _ => float (.point (.ofInt 0))
  | text _ => text (.point 0)
  | list _ item => list (.point 0) item.skeleton
  | record fields => record (skeletonFields fields)
  | optional child => optional child.skeleton
  | s => s

/-- The fields with their skeletons. -/
def skeletonFields : List (String × Shape) → List (String × Shape)
  | [] => []
  | (name, s) :: rest => (name, s.skeleton) :: skeletonFields rest

end

theorem skeletonFields_eq_map (fields : List Field) :
    skeletonFields fields = fields.map (Prod.map id skeleton) := by
  induction fields with
  | nil => rfl
  | cons f rest ih => simp only [skeletonFields, ih, List.map_cons, Prod.map, id_eq]

theorem skeleton_record (fields : List Field) :
    (record fields).skeleton = record (fields.map (Prod.map id skeleton)) := by
  simp only [skeleton, skeletonFields_eq_map]

theorem isOptional_skeleton (s : Shape) : s.skeleton.isOptional = s.isOptional := by
  cases s <;> rfl

theorem isNullable_skeleton (s : Shape) : s.skeleton.isNullable = s.isNullable := by
  cases s <;> rfl

theorem kind?_skeleton (s : Shape) : s.skeleton.kind? = s.kind? := by
  cases s <;> rfl

theorem skeleton_makeOptional (s : Shape) : s.makeOptional.skeleton = s.skeleton.makeOptional := by
  cases s <;> rfl

theorem isTidy_skeleton {s : Shape} (h : s.isTidy = true) : s.skeleton.isTidy = true := by
  induction s using nodeInduction with
  | list r item ih => simpa [skeleton] using ih (by simpa using h)
  | record fields ih =>
    obtain ⟨hnames, hfields⟩ := isTidy_record_iff.mp h
    rw [skeleton_record]
    refine isTidy_record_iff.mpr ⟨by simpa [List.map_map, Function.comp_def] using hnames, ?_⟩
    rw [List.forall_mem_map]
    exact fun f hf => ih f hf (hfields f hf)
  | optional child ih =>
    rw [isTidy_optional_iff] at h
    simp [skeleton, isOptional_skeleton, h.1, ih h.2]
  | foreign x => simp at h
  | _ => rfl

theorem isNumeric_skeleton (s : Shape) : s.skeleton.isNumeric = true := by
  induction s using nodeInduction with
  | list r item ih => simpa [skeleton] using ih
  | record fields ih =>
    rw [skeleton_record]
    refine isNumeric_record_iff.mpr ?_
    rw [List.forall_mem_map]
    exact ih
  | optional child ih => simpa [skeleton] using ih
  | _ => rfl

theorem wellFormed_skeleton {s : Shape} (h : s.isTidy = true) : s.skeleton.WellFormed :=
  ⟨isTidy_skeleton h, isNumeric_skeleton s⟩

/-- The skeleton of a merge is the merge of the skeletons. -/
theorem skeleton_merge (a b : Shape) :
    (a.merge b).skeleton = a.skeleton.merge b.skeleton := by
  induction a, b using mergeInduction with
  | unknownLeft b => simp [skeleton]
  | unknownRight a => simp [skeleton]
  | anyLeft b => simp [skeleton]
  | anyRight a => simp [skeleton]
  | marked a b ih => simp [skeleton, ih]
  | markedLeft a b hkind ih =>
    have hskeleton : b.skeleton.kind?.isSome = true := by rwa [kind?_skeleton]
    simp only [merge_optional_left hkind, skeleton, merge_optional_left hskeleton, ih]
  | markedRight a b hkind ih =>
    have hskeleton : a.skeleton.kind?.isSome = true := by rwa [kind?_skeleton]
    simp only [merge_optional_right hkind, skeleton, merge_optional_right hskeleton, ih]
  | lists r s a b ih => simp [skeleton, ih, Range.hull_self]
  | records fields others ih =>
    rw [merge_record_record, skeleton_record, skeleton_record, skeleton_record,
      merge_record_record, mergedFields_map skeleton_makeOptional ih]
  | foreigns x y =>
    simp only [skeleton, merge_foreign_foreign]
    split_ifs
    · rfl
    · rfl
  | conflict a b k l hk hl hne =>
    rw [merge_conflict hk hl hne, merge_conflict (by rwa [kind?_skeleton])
      (by rwa [kind?_skeleton]) hne]
    rfl
  | _ => simp [skeleton, Range.hull_self]

theorem skeleton_around (shapes : List Shape) :
    (around shapes).skeleton = around (shapes.map skeleton) := by
  have skeleton_foldl (s : Shape) :
      (shapes.foldl merge s).skeleton = (shapes.map skeleton).foldl merge s.skeleton := by
    induction shapes generalizing s with
    | nil => rfl
    | cons t rest ih => rw [List.foldl_cons, ih, skeleton_merge, List.map_cons, List.foldl_cons]
  exact skeleton_foldl unknown

end JsonShape.Shape
