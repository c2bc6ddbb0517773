import JsonShape.Proofs.Shape.Skeleton
import JsonShape.Zig.Writing

/-!
Ranges are not written. A shape and its skeleton have the same pieces, so they have the same text,
or the same fault.
-/

set_option autoImplicit false

namespace JsonShape.Zig

open Shape

private theorem fieldPieces_skeleton (sp : Spelling) {room depth : Nat} {fields : List Field}
    (h : ∀ f ∈ fields, pieces sp room depth f.2.skeleton = pieces sp room depth f.2) :
    fieldPieces sp room depth (fields.map (Prod.map id skeleton)) =
      fieldPieces sp room depth fields := by
  induction fields with
  | nil => rfl
  | cons f rest ih =>
    obtain ⟨hfirst, hrest⟩ := List.forall_mem_cons.mp h
    simp only [List.map_cons, fieldPieces, Prod.map_fst, Prod.map_snd, id_eq, hfirst, ih hrest]

theorem pieces_skeleton (sp : Spelling) (room depth : Nat) (s : Shape) :
    pieces sp room depth s.skeleton = pieces sp room depth s := by
  induction s using nodeInduction generalizing room depth with
  | list r item ih =>
    cases room with
    | zero => rfl
    | succ room => simp only [skeleton, pieces, ih]
  | record fields ih =>
    cases room with
    | zero => rw [skeleton_record]; rfl
    | succ room =>
      simp only [skeleton_record, pieces, fieldPieces_skeleton sp fun f hf => ih f hf _ _]
  | optional child ih =>
    cases room with
    | zero => rfl
    | succ room => simp only [skeleton, pieces, ih]
  | _ => cases room <;> rfl

/-- Shapes with one skeleton are written alike. -/
theorem write_eq_of_skeleton_eq {s t : Shape} (h : s.skeleton = t.skeleton) (sp : Spelling)
    (name : Option String) : write sp name s = write sp name t := by
  have hpieces : typePieces sp s = typePieces sp t := by
    rw [typePieces, ← pieces_skeleton, h, pieces_skeleton, typePieces]
  simp only [write, declarationPieces, hpieces]

end JsonShape.Zig
