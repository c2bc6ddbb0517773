import JsonShape.Proofs.Shape.Placement
import JsonShape.Proofs.Tally
import Mathlib.Data.List.Flatten

/-!
The work of a merge, in nodes. Two flat shapes take at most two merges for each node of the smaller
one, optional marks not counted as nodes, and their merge has no more nodes than both together. Each
field of a record meets at most one field of the other, so no node takes part in the merges of two
fields, and a node that bears a mark takes part in two merges at most.
-/

set_option autoImplicit false

namespace JsonShape

namespace Shape

mutual

/-- The number of nodes of a shape that are not optional marks. -/
def nodeCount : Shape → Nat
  | list _ item => item.nodeCount + 1
  | record fields => fieldsNodeCount fields + 1
  | optional child => child.nodeCount
  | _ => 1

/-- The number of nodes of some fields that are not optional marks. -/
def fieldsNodeCount : List (String × Shape) → Nat
  | [] => 0
  | (_, s) :: rest => s.nodeCount + fieldsNodeCount rest

end

section NodeCount

theorem nodeCount_pos (s : Shape) : 0 < s.nodeCount := by
  induction s using nodeInduction with
  | optional child ih => exact ih
  | list r item => exact Nat.succ_pos _
  | record fields => exact Nat.succ_pos _
  | _ => exact Nat.one_pos

@[simp] theorem nodeCount_makeOptional (s : Shape) : s.makeOptional.nodeCount = s.nodeCount := by
  cases s <;> rfl

theorem fieldsNodeCount_append (fields others : List Field) :
    fieldsNodeCount (fields ++ others) = fieldsNodeCount fields + fieldsNodeCount others := by
  induction fields with
  | nil => exact (Nat.zero_add _).symm
  | cons f rest ih =>
    rw [List.cons_append, fieldsNodeCount, ih, fieldsNodeCount, Nat.add_assoc]

theorem fieldsNodeCount_map_makeOptional (fields : List Field) :
    fieldsNodeCount (fields.map Field.makeOptional) = fieldsNodeCount fields := by
  induction fields with
  | nil => rfl
  | cons f rest ih =>
    simp only [List.map_cons, Field.makeOptional, fieldsNodeCount, nodeCount_makeOptional, ih]

theorem fieldsNodeCount_le_of_sublist {fields others : List Field} (h : fields.Sublist others) :
    fieldsNodeCount fields ≤ fieldsNodeCount others := by
  induction h with
  | slnil => exact le_rfl
  | cons f _ ih => exact ih.trans (Nat.le_add_left _ _)
  | cons_cons f _ ih => exact Nat.add_le_add_left ih _

end NodeCount

/-- A cut keeps every node of the list it cuts. -/
theorem fieldsNodeCount_cut (names : List String) (others : List Field) :
    fieldsNodeCount (CutFields.ofFields names others).front +
        fieldsNodeCount ((CutFields.ofFields names others).shared.flatMap SharedField.group) =
      fieldsNodeCount others := by
  rw [← fieldsNodeCount_append, CutFields.ofFields_flatten]

/-- A shared field with its followers, and the groups of other names, have no more nodes than all
groups: what is taken out for one field is not met by another. -/
theorem fieldsNodeCount_group_add_le {shared : List SharedField} {name : String} {s : SharedField}
    (h : shared.find? (·.name == name) = some s) :
    s.shape.nodeCount + fieldsNodeCount s.followers +
        fieldsNodeCount ((shared.filter (·.name != name)).flatMap SharedField.group) ≤
      fieldsNodeCount (shared.flatMap SharedField.group) := by
  obtain ⟨hname, before, after, rfl, -⟩ := List.find?_eq_some_iff_append.mp h
  have hdropped : (before ++ s :: after).filter (·.name != name) =
      before.filter (·.name != name) ++ after.filter (·.name != name) := by
    rw [List.filter_append, List.filter_cons_of_neg (by simpa using hname)]
  have hkept (l : List SharedField) :
      fieldsNodeCount ((l.filter (·.name != name)).flatMap SharedField.group) ≤
        fieldsNodeCount (l.flatMap SharedField.group) :=
    fieldsNodeCount_le_of_sublist (List.filter_sublist.flatMap _)
  have hbefore := hkept before
  have hafter := hkept after
  simp only [hdropped, List.flatMap_append, List.flatMap_cons, fieldsNodeCount_append,
    SharedField.group, SharedField.toField, List.cons_append, fieldsNodeCount]
  omega

section Merge

/-- Fields merged with shared ones have no more nodes than both, the followers counted too. -/
theorem fieldsNodeCount_mergeFields_le {fields : List Field} {shared : List SharedField}
    (h : ∀ f ∈ fields, ∀ s ∈ shared,
      (f.2.merge s.shape).nodeCount ≤ f.2.nodeCount + s.shape.nodeCount) :
    fieldsNodeCount (mergeFields fields shared) ≤
      fieldsNodeCount fields + fieldsNodeCount (shared.flatMap SharedField.group) := by
  induction fields generalizing shared with
  | nil => exact Nat.zero_le _
  | cons f rest ih =>
    obtain ⟨hfirst, hrest⟩ := List.forall_mem_cons.mp h
    simp only [mergeFields]
    split
    · have hleft := ih hrest
      simp only [fieldsNodeCount, nodeCount_makeOptional]
      omega
    · next s hs =>
      have hpair := hfirst s (List.mem_of_find?_eq_some hs)
      have hkept : ∀ g ∈ rest, ∀ t ∈ shared.filter (·.name != f.1),
          (g.2.merge t.shape).nodeCount ≤ g.2.nodeCount + t.shape.nodeCount :=
        fun g hg t ht => hrest g hg t (List.mem_filter.mp ht).1
      have hleft := ih hkept
      have hgroups := fieldsNodeCount_group_add_le hs
      simp only [fieldsNodeCount, fieldsNodeCount_append, fieldsNodeCount_map_makeOptional]
      omega

/-- The merge of two shapes has no more nodes than both together. -/
theorem nodeCount_merge_le (a b : Shape) :
    (a.merge b).nodeCount ≤ a.nodeCount + b.nodeCount := by
  induction a, b using mergeInduction with
  | unknownLeft b => simp
  | unknownRight a => simp
  | anyRight a =>
    rw [merge_any_right]
    exact Nat.le_add_left _ _
  | marked a b ih => exact ih
  | markedLeft a b hkind ih =>
    rw [merge_optional_left hkind]
    exact ih
  | markedRight a b hkind ih =>
    rw [merge_optional_right hkind]
    exact ih
  | lists r s a b ih =>
    simp only [merge_list_list, nodeCount]
    omega
  | records fields others ih =>
    have hmem {s : SharedField}
        (hs : s ∈ (CutFields.ofFields (fields.map Prod.fst) others).shared) : s.toField ∈ others :=
      CutFields.toField_mem_of_mem_shared hs
    have hmerged := fieldsNodeCount_mergeFields_le fun f hf s hs => ih f hf _ (hmem hs)
    have hcut := fieldsNodeCount_cut (fields.map Prod.fst) others
    simp only [merge_record_record, nodeCount, mergedFields, fieldsNodeCount_append,
      fieldsNodeCount_map_makeOptional]
    omega
  | foreigns x y =>
    rw [merge_foreign_foreign]
    split_ifs
    · exact Nat.le_add_right _ _
    · exact Nat.le_add_right _ _
  | conflict a b k l hk hl hne =>
    rw [merge_conflict hk hl hne]
    exact a.nodeCount_pos.trans_le (Nat.le_add_right _ _)
  | _ => exact Nat.le_add_right _ _

end Merge

/-- The most merges that two flat shapes take: two for each node of the smaller one. The second one
of a node takes a mark off, so two shapes that bear none save it at their roots. -/
def mergeWork (a b : Shape) : Nat :=
  2 * min a.nodeCount b.nodeCount - if a.isOptional || b.isOptional then 0 else 1

theorem mergeWork_of_isOptional {a b : Shape} (h : a.isOptional = true ∨ b.isOptional = true) :
    a.mergeWork b = 2 * min a.nodeCount b.nodeCount := by
  simp [mergeWork, h]

theorem mergeWork_of_not_isOptional {a b : Shape} (ha : a.isOptional = false)
    (hb : b.isOptional = false) :
    a.mergeWork b + 1 = 2 * min a.nodeCount b.nodeCount := by
  have hleft := a.nodeCount_pos
  have hright := b.nodeCount_pos
  simp only [mergeWork, ha, hb, Bool.or_self, Bool.false_eq_true, if_false]
  omega

theorem mergeWork_le (a b : Shape) : a.mergeWork b ≤ 2 * min a.nodeCount b.nodeCount :=
  Nat.sub_le _ _

theorem mergeWork_pos (a b : Shape) : 0 < a.mergeWork b := by
  have hleft := a.nodeCount_pos
  have hright := b.nodeCount_pos
  simp only [mergeWork]
  split_ifs <;> omega

end Shape

namespace Progress

open Shape

theorem merges_andThen_le (p : Progress) (q : Unit → Progress) :
    (p.andThen q).merges ≤ p.merges + (q ()).merges := by
  simp only [andThen]
  split
  · exact Nat.le_add_right _ _
  · exact le_rfl

/-- If each field takes at most two merges for each node of the smaller one of it and its partner,
so do all fields together, as no two of them have one partner. -/
theorem merges_ofFields_le {room : Nat} {fields : List Field} {shared : List SharedField}
    (h : ∀ f ∈ fields, ∀ s ∈ shared,
      (ofMerge room f.2 s.shape).merges ≤ 2 * min f.2.nodeCount s.shape.nodeCount) :
    (ofFields room fields shared).merges ≤
      2 * min (fieldsNodeCount fields) (fieldsNodeCount (shared.flatMap SharedField.group)) := by
  induction fields generalizing shared with
  | nil => exact Nat.zero_le _
  | cons f rest ih =>
    obtain ⟨hfirst, hrest⟩ := List.forall_mem_cons.mp h
    simp only [ofFields, fieldsNodeCount]
    split
    · have hleft := ih hrest
      omega
    · next s hs =>
      have hpair := hfirst s (List.mem_of_find?_eq_some hs)
      have hkept : ∀ g ∈ rest, ∀ t ∈ shared.filter (·.name != f.1),
          (ofMerge room g.2 t.shape).merges ≤ 2 * min g.2.nodeCount t.shape.nodeCount :=
        fun g hg t ht => hrest g hg t (List.mem_filter.mp ht).1
      have hleft := ih hkept
      have hgroups := fieldsNodeCount_group_add_le hs
      have hboth := merges_andThen_le (ofMerge room f.2 s.shape)
        fun _ => ofFields room rest (shared.filter (·.name != f.1))
      omega

/-- The merge of two flat shapes takes at most its work, also where it is given up. -/
theorem merges_ofMerge_le (room : Nat) {a b : Shape} (ha : a.isFlat = true)
    (hb : b.isFlat = true) : (ofMerge room a b).merges ≤ a.mergeWork b := by
  induction room, a, b using roomInduction with
  | noRoom a b =>
    rw [ofMerge_zero]
    exact Nat.zero_le _
  | unknownRight room a =>
    rw [ofMerge_unknown_right]
    exact mergeWork_pos _ _
  | anyRight room a =>
    rw [ofMerge_any_right]
    exact mergeWork_pos _ _
  | marked room a b ih =>
    rw [isFlat_optional_iff] at ha hb
    rw [ofMerge_optional_optional, mergeWork_of_isOptional (.inl rfl)]
    -- Below its mark a flat shape bears none, so what the node saved there pays for the mark.
    exact (Nat.succ_le_succ (ih ha.2 hb.2)).trans (mergeWork_of_not_isOptional ha.1 hb.1).le
  | markedLeft room a b hkind ih =>
    rw [isFlat_optional_iff] at ha
    have hmark := isOptional_eq_false_of_kind hkind
    rw [ofMerge_optional_left room hkind, mergeWork_of_isOptional (.inl rfl)]
    exact (Nat.succ_le_succ (ih ha.2 hb)).trans (mergeWork_of_not_isOptional ha.1 hmark).le
  | markedRight room a b hkind ih =>
    rw [isFlat_optional_iff] at hb
    have hmark := isOptional_eq_false_of_kind hkind
    rw [ofMerge_optional_right room hkind, mergeWork_of_isOptional (.inr rfl)]
    exact (Nat.succ_le_succ (ih ha hb.2)).trans (mergeWork_of_not_isOptional hmark hb.1).le
  | lists room r s a b ih =>
    have hitem := (ih ha hb).trans (mergeWork_le a b)
    have hwork := mergeWork_of_not_isOptional (a := list r a) (b := list s b) rfl rfl
    simp only [nodeCount] at hwork
    simp only [ofMerge_list_list, step]
    omega
  | records room fields others ih =>
    rw [isFlat_record_iff] at ha hb
    have hpairs : ∀ f ∈ fields, ∀ s ∈ (CutFields.ofFields (fields.map Prod.fst) others).shared,
        (ofMerge room f.2 s.shape).merges ≤ 2 * min f.2.nodeCount s.shape.nodeCount := by
      intro f hf s hs
      have hmem := CutFields.toField_mem_of_mem_shared hs
      exact (ih f hf _ hmem (ha f hf) (hb _ hmem)).trans (mergeWork_le _ _)
    have hfields := merges_ofFields_le hpairs
    have hcut := fieldsNodeCount_cut (fields.map Prod.fst) others
    have hwork := mergeWork_of_not_isOptional (a := record fields) (b := record others) rfl rfl
    simp only [nodeCount] at hwork
    simp only [ofMerge_record_record, step]
    omega
  | intFloat room r s =>
    rw [ofMerge_int_float, step, merges_ofWidening]
    exact mergeWork_pos _ _
  | floatInt room r s =>
    rw [ofMerge_float_int, step, merges_ofWidening]
    exact mergeWork_pos _ _
  | foreigns room x y => simp at ha
  | conflict room a b k l hk hl hne =>
    rw [ofMerge_conflict room hk hl hne]
    exact mergeWork_pos _ _
  | _ => exact mergeWork_pos _ _

theorem merges_ofMerge_pos {room : Nat} (hroom : 0 < room) (a b : Shape) :
    0 < (ofMerge room a b).merges := by
  obtain ⟨room, rfl⟩ := Nat.exists_eq_succ_of_ne_zero hroom.ne'
  induction a, b using mergeInduction with
  | unknownRight a =>
    rw [ofMerge_unknown_right]
    exact Nat.one_pos
  | anyRight a =>
    rw [ofMerge_any_right]
    exact Nat.one_pos
  | markedLeft a b hkind =>
    rw [ofMerge_optional_left room hkind]
    exact Nat.succ_pos _
  | markedRight a b hkind =>
    rw [ofMerge_optional_right room hkind]
    exact Nat.succ_pos _
  | conflict a b k l hk hl hne =>
    rw [ofMerge_conflict room hk hl hne]
    exact Nat.one_pos
  | _ => exact Nat.succ_pos _

end Progress

namespace Shape

/-- The counted merge of two flat shapes counts one merge at least and, for each node of the smaller
one, two at most, whether or not it is given up for want of room or because an integer of more than
64 bits is too large to widen; what it finds has no more nodes than both. -/
theorem on_unify_nodeCount_le {a b : Shape} (ha : a.isFlat = true) (hb : b.isFlat = true)
    (merges : Nat) :
    ∃ outcome n, (a.unify b).on merges = (outcome, merges + n) ∧
      1 ≤ n ∧ n ≤ 2 * min a.nodeCount b.nodeCount ∧
        ((∃ s, outcome = .ok s ∧ s.nodeCount ≤ a.nodeCount + b.nodeCount) ∨
          outcome = .error .tooDeep ∧ nestingRoom < a.mergeRoom b ∨
          outcome = .error .overflow ∧ ¬ (a.isNarrow = true ∧ b.isNarrow = true)) := by
  have hpos : 1 ≤ (Progress.ofMerge nestingRoom a b).merges :=
    Progress.merges_ofMerge_pos (by decide) a b
  have hwork := (Progress.merges_ofMerge_le nestingRoom ha hb).trans (mergeWork_le a b)
  refine ⟨_, _, on_unify a b merges, hpos, hwork, ?_⟩
  rcases Progress.fits_ofMerge nestingRoom ha hb with hfault | hfault | ⟨hfault, hlt⟩
  · exact .inl ⟨a.merge b, by rw [hfault], nodeCount_merge_le a b⟩
  · refine .inr (.inr ⟨by rw [hfault]; rfl, fun hnarrow => ?_⟩)
    exact Progress.fault_ofMerge_ne_overflow nestingRoom hnarrow.1 hnarrow.2 hfault
  · exact .inr (.inl ⟨by rw [hfault]; rfl, hlt⟩)

/-- A marked record with marks all the way down. -/
def markedColumns : Shape :=
  optional (record [("k", optional (list ⟨1, 3⟩ (optional (int ⟨0, 9⟩))))])

/-- A record without marks that has the same name twice, and a name of its own. -/
def repeatedColumns : Shape :=
  record [("k", list ⟨0, 2⟩ (float (.point (.ofInt 4)))), ("j", text ⟨1, 1⟩), ("k", bool)]

theorem on_unify_nodeCount_le_markedColumns :
    markedColumns.isFlat = true ∧ repeatedColumns.isFlat = true ∧
      markedColumns.nodeCount = 3 ∧ repeatedColumns.nodeCount = 5 ∧
        ∃ s, (markedColumns.unify repeatedColumns).on 0 = (.ok s, 6) ∧ s.nodeCount ≤ 3 + 5 := by
  have hmarked : markedColumns.isFlat = true := by decide
  have hrepeated : repeatedColumns.isFlat = true := by decide
  have hroom : ¬ nestingRoom < markedColumns.mergeRoom repeatedColumns := by decide
  have hcount : ((markedColumns.unify repeatedColumns).on 0).2 = 6 := rfl
  obtain ⟨outcome, n, hrun, -, -, hresult⟩ := on_unify_nodeCount_le hmarked hrepeated 0
  have hnarrow : markedColumns.isNarrow = true ∧ repeatedColumns.isNarrow = true := by decide
  obtain ⟨s, rfl, hsize⟩ := hresult.resolve_right fun h =>
    h.elim (fun hdeep => hroom hdeep.2) fun hwide => hwide.2 hnarrow
  rw [hrun] at hcount
  exact ⟨hmarked, hrepeated, rfl, rfl, s, hcount ▸ hrun, hsize⟩

end Shape

end JsonShape
