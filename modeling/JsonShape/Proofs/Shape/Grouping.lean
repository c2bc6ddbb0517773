import JsonShape.Proofs.Shape.Associativity

/-!
The merge of many shapes, group by group. To merge groups of shapes one by one and then what comes
of them is, but for presentation, to merge all shapes from left to right. For shapes of lists this
merges the lengths apart from the items.
-/

set_option autoImplicit false

namespace JsonShape

namespace Range

theorem foldl_hull_point (ns : List Int) (r : Range Int) :
    ns.foldl (fun t n => t.hull (point n)) r = ⟨ns.foldl min r.lo, ns.foldl max r.hi⟩ := by
  induction ns generalizing r with
  | nil => rfl
  | cons n rest ih =>
    have hlo : (r.hull (point n)).lo = min r.lo n := by
      simp only [hull, point]
      split_ifs <;> omega
    have hhi : (r.hull (point n)).hi = max r.hi n := by
      simp only [hull, point]
      split_ifs <;> omega
    rw [List.foldl_cons, ih, hlo, hhi, List.foldl_cons, List.foldl_cons]

end Range

namespace Shape

theorem alike_foldl_merge {shapes : List Shape} (hshapes : ∀ s ∈ shapes, s.isTidy = true)
    {s t : Shape} (hs : s.isTidy = true) (ht : t.isTidy = true) (h : s.Alike Eq t) :
    (shapes.foldl merge s).Alike Eq (shapes.foldl merge t) := by
  induction shapes generalizing s t with
  | nil => exact h
  | cons u rest ih =>
    obtain ⟨hu, hrest⟩ := List.forall_mem_cons.mp hshapes
    exact ih hrest (isTidy_merge hs hu) (isTidy_merge ht hu) (alike_merge_left hs ht hu h)

/-- What further shapes are merged into may as well be merged in at the end. -/
theorem alike_foldl_merge_right {shapes : List Shape} (hshapes : ∀ s ∈ shapes, s.WellFormed)
    {s t : Shape} (hs : s.WellFormed) (ht : t.WellFormed) :
    (shapes.foldl merge (s.merge t)).Alike Eq (s.merge (shapes.foldl merge t)) := by
  induction shapes generalizing t with
  | nil => exact Alike.refl _
  | cons u rest ih =>
    obtain ⟨hu, hrest⟩ := List.forall_mem_cons.mp hshapes
    have hfirst := alike_foldl_merge (fun v hv => (hrest v hv).tidy) ((hs.merge ht).merge hu).tidy
      (hs.merge (ht.merge hu)).tidy (alike_merge_assoc hs ht hu)
    exact hfirst.trans (ih hrest (ht.merge hu))

theorem alike_around_append {shapes others : List Shape} (hshapes : ∀ s ∈ shapes, s.WellFormed)
    (hothers : ∀ s ∈ others, s.WellFormed) :
    (around (shapes ++ others)).Alike Eq ((around shapes).merge (around others)) := by
  have h := alike_foldl_merge_right hothers (WellFormed.around hshapes) (t := unknown) ⟨rfl, rfl⟩
  rw [merge_unknown_right] at h
  rwa [around, List.foldl_append]

/-- Groups of shapes merge into what all of them merge into. -/
theorem alike_around_flatten {groups : List (List Shape)}
    (h : ∀ group ∈ groups, ∀ s ∈ group, s.WellFormed) :
    (around groups.flatten).Alike Eq (around (groups.map around)) := by
  induction groups using List.reverseRecOn with
  | nil => exact Alike.refl _
  | append_singleton groups group ih =>
    simp only [List.forall_mem_append, List.forall_mem_singleton] at h
    have hflat : ∀ s ∈ groups.flatten, s.WellFormed := List.forall_mem_flatten.mpr h.1
    have hgrouped : ∀ s ∈ groups.map around, s.WellFormed :=
      List.forall_mem_map.mpr fun g hg => WellFormed.around (h.1 g hg)
    rw [List.flatten_append, List.flatten_singleton, List.map_append, List.map_singleton,
      around_concat]
    refine (alike_around_append hflat h.2).trans ?_
    exact alike_merge_left (WellFormed.around hflat).tidy (WellFormed.around hgrouped).tidy
      (WellFormed.around h.2).tidy (ih h.1)

private theorem foldl_merge_lists (groups : List (List Shape)) (r : Range Int) (s : Shape) :
    (groups.map fun g => list (.point g.length) (around g)).foldl merge (list r s) =
      list ((groups.map fun g => (g.length : Int)).foldl (fun t n => t.hull (.point n)) r)
        ((groups.map around).foldl merge s) := by
  induction groups generalizing r s with
  | nil => rfl
  | cons g rest ih => exact ih _ _

/-- The shape around lists: from the least length to the greatest one, of what is around the
items. -/
theorem around_lists {groups : List (List Shape)} (hne : groups ≠ []) :
    ∃ lengths : Range Int,
      (groups.map fun g => (g.length : Int)).min? = some lengths.lo ∧
        (groups.map fun g => (g.length : Int)).max? = some lengths.hi ∧
          around (groups.map fun g => list (.point g.length) (around g)) =
            list lengths (around (groups.map around)) := by
  cases groups with
  | nil => exact absurd rfl hne
  | cons g rest =>
    have haround := foldl_merge_lists rest (.point g.length) (around g)
    rw [Range.foldl_hull_point] at haround
    exact ⟨⟨_, _⟩, List.min?_cons', List.max?_cons', haround⟩

end Shape

end JsonShape
