import JsonShape.Proofs.Inference.Positions
import JsonShape.Proofs.Inference.Room

/-!
Where an inferred shape is unknown. Every fold starts from an unknown shape and every null brings
one, but none is left as the root or as the shape of a field, and none in a list unless all lists
there were empty. So unknown shapes stand below the marks of nulls and in empty lists only.
-/

set_option autoImplicit false

namespace JsonShape

namespace Shape

/-- A node that stands directly below another one. -/
inductive IsChild : Shape → Shape → Prop
  | item (r : Range Int) (item : Shape) : IsChild item (list r item)
  | field {fields : List Field} {f : Field} (hf : f ∈ fields) : IsChild f.2 (record fields)
  | marked (child : Shape) : IsChild child (optional child)

/-- The nodes of a shape: the shape itself, and what stands below a node. -/
inductive IsNode (s : Shape) : Shape → Prop
  | root : IsNode s s
  | child {t u : Shape} (ht : IsNode s t) (hu : IsChild u t) : IsNode s u

/-- Unknown shapes are left only where a mark or an empty list leaves them. -/
structure Informed (s : Shape) : Prop where
  /-- Something is known of the whole. -/
  root : s ≠ unknown
  /-- Something is known of every field, at any depth. -/
  fields : ∀ fields, s.IsNode (record fields) → ∀ f ∈ fields, f.2 ≠ unknown
  /-- Nothing is known of the elements of a list just when there were none. -/
  lists : ∀ r item, s.IsNode (list r item) → (item = unknown ↔ r.hi = 0)
  /-- What an unknown shape stands below is a mark or a list without elements. -/
  parents : ∀ t, s.IsNode t → IsChild unknown t →
    t = optional unknown ∨ ∃ r, t = list r unknown ∧ r.hi = 0

/-- Nothing is known yet. -/
def isUnknown : Shape → Bool
  | unknown => true
  | _ => false

theorem isUnknown_iff {s : Shape} : s.isUnknown = true ↔ s = unknown := by
  cases s <;> simp [isUnknown]

/-- The fields below a node are known, and the elements of a list unless it is empty. -/
def isInformedNode : Shape → Bool
  | list r item => 0 ≤ r.hi && (item.isUnknown == decide (r.hi = 0))
  | record fields => fields.all (!·.2.isUnknown)
  | _ => true

/-- At every node the fields are known, and the elements of a list unless it is empty. -/
def isInformed (s : Shape) : Bool := s.everywhere isInformedNode

section Nodes

variable {p : Shape → Bool} {s t : Shape}

theorem everywhere_of_isChild (hs : s.everywhere p = true) (ht : t.IsChild s) :
    t.everywhere p = true := by
  cases ht with
  | item r item => exact (Bool.and_eq_true_iff.mp hs).2
  | field hf => exact everywhereFields_iff.mp (Bool.and_eq_true_iff.mp hs).2 _ hf
  | marked child => exact (Bool.and_eq_true_iff.mp hs).2

/-- What holds everywhere in a shape holds everywhere in each node of it. -/
theorem everywhere_of_isNode (hs : s.everywhere p = true) (ht : s.IsNode t) :
    t.everywhere p = true := by
  induction ht with
  | root => exact hs
  | child _ hu ih => exact everywhere_of_isChild ih hu

end Nodes

section Informed

theorem isInformed_list_iff {r : Range Int} {item : Shape} :
    (list r item).isInformed = true ↔
      (0 ≤ r.hi ∧ (item = unknown ↔ r.hi = 0)) ∧ item.isInformed = true := by
  change (0 ≤ r.hi && (item.isUnknown == decide (r.hi = 0)) && item.isInformed) = true ↔ _
  rw [Bool.and_eq_true, Bool.and_eq_true, decide_eq_true_eq, beq_iff_eq, Bool.eq_iff_iff,
    isUnknown_iff, decide_eq_true_eq]

theorem isInformed_record_iff {fields : List Field} :
    (record fields).isInformed = true ↔
      ∀ f ∈ fields, f.2 ≠ unknown ∧ f.2.isInformed = true := by
  change (fields.all (!·.2.isUnknown) && everywhereFields isInformedNode fields) = true ↔ _
  simp only [Bool.and_eq_true, List.all_eq_true, Bool.not_eq_true', Bool.eq_false_iff, ne_eq,
    isUnknown_iff, everywhereFields_iff]
  exact forall₂_and.symm

@[simp] theorem isInformed_optional (child : Shape) :
    (optional child).isInformed = child.isInformed := rfl

theorem informed_of_isInformed {s : Shape} (hne : s ≠ unknown) (hs : s.isInformed = true) :
    s.Informed := by
  have hfields (fields : List Field) (hnode : s.IsNode (record fields)) :
      ∀ f ∈ fields, f.2 ≠ unknown := fun f hf =>
    (isInformed_record_iff.mp (everywhere_of_isNode hs hnode) f hf).1
  have hlists (r : Range Int) (item : Shape) (hnode : s.IsNode (list r item)) :
      item = unknown ↔ r.hi = 0 :=
    (isInformed_list_iff.mp (everywhere_of_isNode hs hnode)).1.2
  refine ⟨hne, hfields, hlists, fun t hnode hchild => ?_⟩
  generalize hu : unknown = u at hchild
  cases hchild with
  | item r item =>
    subst hu
    exact .inr ⟨r, rfl, (hlists r unknown hnode).mp rfl⟩
  | field hf => exact absurd hu.symm (hfields _ hnode _ hf)
  | marked child =>
    subst hu
    exact .inl rfl

end Informed

section Merges

theorem merge_eq_unknown_iff {a b : Shape} : a.merge b = unknown ↔ a = unknown ∧ b = unknown := by
  induction a, b using mergeInduction with
  | unknownRight a => simp
  | markedLeft a b hkind _ => simp [merge_optional_left hkind]
  | markedRight a b hkind _ => simp [merge_optional_right hkind]
  | foreigns x y =>
    rw [merge_foreign_foreign]
    split_ifs <;> simp
  | conflict a b k l hk hl hne =>
    have hleft : a ≠ unknown := by
      rintro rfl
      cases hk
    simp [merge_conflict hk hl hne, hleft]
  | _ => simp

theorem makeOptional_ne_unknown (s : Shape) : s.makeOptional ≠ unknown := by
  cases s <;> simp [makeOptional]

theorem isInformed_makeOptional (s : Shape) : s.makeOptional.isInformed = s.isInformed := by
  cases s <;> rfl

/-- The elements of two lists are unknown after a merge just when both lists are empty. -/
theorem isInformed_merge {a b : Shape} (ha : a.isInformed = true) (hb : b.isInformed = true) :
    (a.merge b).isInformed = true := by
  induction a, b using mergeInduction with
  | unknownLeft b => exact hb
  | unknownRight a => simpa using ha
  | anyRight a => rw [merge_any_right]; rfl
  | marked a b ih => exact ih ha hb
  | markedLeft a b hkind ih =>
    rw [merge_optional_left hkind]
    exact ih ha hb
  | markedRight a b hkind ih =>
    rw [merge_optional_right hkind]
    exact ih ha hb
  | lists r s a b ih =>
    obtain ⟨⟨hr, hitem⟩, ha⟩ := isInformed_list_iff.mp ha
    obtain ⟨⟨hs, hother⟩, hb⟩ := isInformed_list_iff.mp hb
    have hhi : (r.hull s).hi = max r.hi s.hi := by
      simp only [Range.hull, max_def]
      split_ifs <;> omega
    rw [merge_list_list, isInformed_list_iff, merge_eq_unknown_iff, hitem, hother, hhi]
    exact ⟨⟨by omega, by omega⟩, ih ha hb⟩
  | records fields others ih =>
    rw [isInformed_record_iff] at ha hb
    rw [merge_record_record, isInformed_record_iff]
    refine forall_mem_mergedFields (p := fun s => s ≠ unknown ∧ s.isInformed = true) ?_ ?_ ?_
    · intro f hf g hg
      have hne : f.2.merge g.2 ≠ unknown := fun h => (ha f hf).1 (merge_eq_unknown_iff.mp h).1
      exact ⟨hne, ih f hf g hg (ha f hf).2 (hb g hg).2⟩
    · exact fun f hf =>
        ⟨makeOptional_ne_unknown f.2, (isInformed_makeOptional f.2).trans (ha f hf).2⟩
    · exact fun g hg =>
        ⟨makeOptional_ne_unknown g.2, (isInformed_makeOptional g.2).trans (hb g hg).2⟩
  | foreigns x y =>
    rw [merge_foreign_foreign]
    split_ifs <;> rfl
  | conflict a b k l hk hl hne => rw [merge_conflict hk hl hne]; rfl
  | _ => rfl

theorem isInformed_around {shapes : List Shape} (h : ∀ s ∈ shapes, s.isInformed = true) :
    (around shapes).isInformed = true :=
  around_of_merge (p := (isInformed · = true)) rfl isInformed_merge h

theorem around_eq_unknown_iff {shapes : List Shape} (h : ∀ s ∈ shapes, s ≠ unknown) :
    around shapes = unknown ↔ shapes = [] := by
  cases shapes using List.reverseRecOn with
  | nil => exact iff_of_true rfl rfl
  | append_singleton shapes s =>
    simp only [List.forall_mem_append, List.forall_mem_singleton] at h
    rw [around_concat, merge_eq_unknown_iff]
    exact iff_of_false (fun hunknown => h.2 hunknown.2) (by simp)

end Merges

/-- Below an unknown shape lies nothing else, ranges or not. -/
theorem eq_unknown_of_skeleton_le {s : Shape} (h : s.skeleton ≤ unknown) : s = unknown := by
  have hskeleton := le_unknown_iff.mp h
  cases s with
  | unknown => rfl
  | _ => cases hskeleton

end Shape

namespace Value

/-- Of a value of which inference finds a shape something is known, and of its parts likewise. -/
theorem Succeeds.isInformed {room : Nat} {v : Value} (h : v.Succeeds room) :
    v.shape ≠ .unknown ∧ v.shape.isInformed = true := by
  induction v using nodeInduction generalizing room with
  | int n =>
    simp only [shape]
    split_ifs
    · exact ⟨by simp, rfl⟩
    · exact ⟨by simp, rfl⟩
  | decimal d =>
    obtain ⟨merges, s, reached, h⟩ := h
    simp only [infer] at h
    simp only [shape]
    cases hd : d.toBinary64? with
    | none => simp [hd] at h
    | some x => exact ⟨by simp, rfl⟩
  | list items ih =>
    obtain ⟨room, rfl, hitems⟩ := h.items
    have hshapes : ∀ s ∈ items.map shape, s ≠ .unknown ∧ s.isInformed = true :=
      List.forall_mem_map.mpr fun v hv => ih v hv (hitems v hv)
    rw [shape_list, Shape.isInformed_list_iff,
      Shape.around_eq_unknown_iff fun s hs => (hshapes s hs).1]
    refine ⟨by simp, ⟨⟨Int.natCast_nonneg _, ?_⟩, ?_⟩⟩
    · simp [Range.point]
    · exact Shape.isInformed_around fun s hs => (hshapes s hs).2
  | dict entries ih =>
    obtain ⟨room, rfl, hentries⟩ := h.entries
    rw [shape_dict, Shape.isInformed_record_iff]
    exact ⟨by simp, forall_mem_entryFields.mpr fun e he => ih e he (hentries e he)⟩
  | illFormedText _ | foreign _ =>
    obtain ⟨merges, s, reached, h⟩ := h
    simp [infer] at h
  | _ => exact ⟨by simp [shape], rfl⟩

section Places

variable {vs : List Value} {p : List Descent} {w : Value}

private theorem isJson_of_mem_flatMap (hvs : ∀ v ∈ vs, v.isJson = true)
    (hw : w ∈ vs.flatMap (·.valuesAt p)) : w.isJson = true := by
  obtain ⟨v, hv, hw⟩ := List.mem_flatMap.mp hw
  exact isJson_of_mem_valuesAt (hvs v hv) hw

/-- Where nothing is known below a mark, nothing but null was seen. -/
theorem eq_null_of_at? (hvs : ∀ v ∈ vs, v.isJson = true)
    (hat : (Shape.around (vs.map shape)).at? p = some (.optional .unknown))
    (hw : w ∈ vs.flatMap (·.valuesAt p)) : w = null := by
  have hjson := isJson_of_mem_flatMap hvs hw
  have hle := skeleton_le_of_at? hvs hat hw
  by_contra hnull
  have hmark : w.shape.skeleton.isOptional = false := by
    rw [Shape.isOptional_skeleton, isOptional_shape hjson hnull]
  exact shape_ne_unknown hjson (Shape.eq_unknown_of_skeleton_le ((Shape.le_optional hmark).mp hle))

/-- Where nothing is known of the elements of a list, nothing but empty lists was seen. -/
theorem eq_nil_of_at? (hvs : ∀ v ∈ vs, v.isJson = true) {r : Range Int}
    (hat : (Shape.around (vs.map shape)).at? p = some (.list r .unknown))
    (hw : w ∈ vs.flatMap (·.valuesAt p)) : w = list [] := by
  have hjson := isJson_of_mem_flatMap hvs hw
  have hle := skeleton_le_of_at? hvs hat hw
  cases w, hjson using jsonInduction with
  | list items hitems _ =>
    rw [shape_list, Shape.skeleton, Shape.skeleton, Shape.list_le_list] at hle
    have hnone := Shape.eq_unknown_of_skeleton_le hle.2
    rw [Shape.around_eq_unknown_iff (List.forall_mem_map.mpr fun v hv =>
      shape_ne_unknown (isJson_list_iff.mp hitems v hv)), List.map_eq_nil_iff] at hnone
    rw [hnone]
  | narrow n hn | wide n hn =>
    simp only [shape, hn] at hle
    exact absurd hle Bool.false_ne_true
  | decimal d _ x hd =>
    simp only [shape, hd] at hle
    exact absurd hle Bool.false_ne_true
  | _ => exact absurd hle Bool.false_ne_true

end Places

end Value

/-- Inference succeeds on some values if it does on each. What it finds of one value or more is
unknown only below marks and in lists without elements. If the keys of all dictionaries are distinct
texts, nothing but null was seen at such a mark, and nothing but empty lists at such a list. -/
theorem on_inferMany_informed {vs : List Value} (hne : vs ≠ [])
    (hvs : ∀ v ∈ vs, ∃ before s after, (infer v).on before = (.ok s, after)) (merges : Nat) :
    ∃ s reached, (inferMany vs).on merges = (.ok s, reached) ∧ s.Informed ∧
      ((∀ v ∈ vs, v.isKeyed = true) → ∀ p, ∀ w ∈ vs.flatMap (·.valuesAt p),
        (s.at? p = some (.optional .unknown) → w = .null) ∧
          ∀ r, s.at? p = some (.list r .unknown) → w = .list []) := by
  obtain ⟨reached, hon⟩ := on_inferMany_of_succeeds hvs merges
  have hshapes : ∀ s ∈ vs.map Value.shape, s ≠ .unknown ∧ s.isInformed = true :=
    List.forall_mem_map.mpr fun v hv => Value.Succeeds.isInformed (hvs v hv)
  have hroot : Shape.around (vs.map Value.shape) ≠ .unknown := by
    rw [ne_eq, Shape.around_eq_unknown_iff fun s hs => (hshapes s hs).1, List.map_eq_nil_iff]
    exact hne
  have hinformed := Shape.isInformed_around fun s hs => (hshapes s hs).2
  refine ⟨_, reached, hon, Shape.informed_of_isInformed hroot hinformed, fun hkeyed p w hw => ?_⟩
  have hjson : ∀ v ∈ vs, v.isJson = true := fun v hv =>
    Value.Succeeds.isJson (hvs v hv) (hkeyed v hv)
  exact ⟨fun hat => Value.eq_null_of_at? hjson hat hw,
    fun r hat => Value.eq_nil_of_at? hjson hat hw⟩

/-- Empty lists and nulls, alone and beside others, at several depths. -/
def hollowRows : List Value :=
  [.dict [(.text "a", .list []), (.text "b", .null), (.text "d", .list [.list [], .list []])],
    .dict [(.text "a", .list [.null, .list [.int 0]]), (.text "c", .null), (.text "d", .list [])]]

theorem on_inferMany_informed_hollowRows :
    hollowRows ≠ [] ∧
      (∀ v ∈ hollowRows, ∃ before s after, (infer v).on before = (.ok s, after)) ∧
        (∀ v ∈ hollowRows, v.isKeyed = true) ∧
          ∃ s reached, (inferMany hollowRows).on 0 = (.ok s, reached) ∧ s.Informed ∧
            s.at? [.field "b"] = some (.optional .unknown) ∧
              s.at? [.field "d", .item] = some (.list (.point 0) .unknown) ∧
                ∀ w ∈ hollowRows.flatMap (·.valuesAt [.field "d", .item]), w = .list [] := by
  have hne : hollowRows ≠ [] := List.cons_ne_nil _ _
  have hvs : ∀ v ∈ hollowRows, ∃ before s after, (infer v).on before = (.ok s, after) := by
    simp only [hollowRows, List.forall_mem_cons]
    exact ⟨⟨0, _, _, rfl⟩, ⟨0, _, _, rfl⟩, List.forall_mem_nil _⟩
  have hkeyed : ∀ v ∈ hollowRows, v.isKeyed = true := by decide
  obtain ⟨s, reached, hon, hinformed, hseen⟩ := on_inferMany_informed hne hvs 0
  obtain rfl := eq_around_of_on_inferMany hon
  exact ⟨hne, hvs, hkeyed, _, reached, hon, hinformed, rfl, rfl, fun w hw =>
    (hseen hkeyed [.field "d", .item] w hw).2 (.point 0) rfl⟩

end JsonShape
