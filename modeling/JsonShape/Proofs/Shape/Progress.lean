import JsonShape.Proofs.Shape.Merge

/-!
How far the merge of two shapes gets within some room for nesting. The progress follows the same
cases as the merge, one begun merge a case. The merge of two flat shapes is given up for want of
room only when they share more levels than the room holds, two merges for each; otherwise it is
given up only because an integer is beyond the doubles.
-/

set_option autoImplicit false

namespace JsonShape

namespace Shape

mutual

/-- The number of lists and records on the longest way down a shape. -/
def levels : Shape → Nat
  | list _ item => item.levels + 1
  | record fields => fieldsLevels fields + 1
  | optional child => child.levels
  | _ => 0

/-- The greatest number of levels of a field. -/
def fieldsLevels : List (String × Shape) → Nat
  | [] => 0
  | (_, s) :: rest => max s.levels (fieldsLevels rest)

end

theorem levels_le_fieldsLevels {fields : List Field} {f : Field} (h : f ∈ fields) :
    f.2.levels ≤ fieldsLevels fields := by
  induction fields with
  | nil => simp at h
  | cons g rest ih =>
    simp only [fieldsLevels]
    rcases List.mem_cons.mp h with rfl | h
    · exact Nat.le_max_left _ _
    · exact (ih h).trans (Nat.le_max_right _ _)

theorem fieldsLevels_le_iff {fields : List Field} {n : Nat} :
    fieldsLevels fields ≤ n ↔ ∀ f ∈ fields, f.2.levels ≤ n := by
  induction fields with
  | nil => simp [fieldsLevels]
  | cons f rest ih => simp [fieldsLevels, ih]

@[simp] theorem levels_makeOptional (s : Shape) : s.makeOptional.levels = s.levels := by
  cases s <;> simp [makeOptional, levels]

theorem levels_merge_le {a b : Shape} (ha : a.isFlat = true) (hb : b.isFlat = true) :
    (a.merge b).levels ≤ max a.levels b.levels := by
  induction a, b using mergeInduction with
  | unknownLeft b => simp
  | unknownRight a => simp
  | marked a b ih =>
    rw [isFlat_optional_iff] at ha hb
    simpa [levels] using ih ha.2 hb.2
  | markedLeft a b hkind ih =>
    rw [isFlat_optional_iff] at ha
    simpa [merge_optional_left hkind, levels] using ih ha.2 hb
  | markedRight a b hkind ih =>
    rw [isFlat_optional_iff] at hb
    simpa [merge_optional_right hkind, levels] using ih ha hb.2
  | lists r s a b ih =>
    have hitem := ih (by simpa using ha) (by simpa using hb)
    simp only [merge_list_list, levels]
    omega
  | records fields others ih =>
    rw [isFlat_record_iff] at ha hb
    have hmerged : fieldsLevels (mergedFields fields others) ≤
        max (fieldsLevels fields) (fieldsLevels others) := by
      refine fieldsLevels_le_iff.mpr (forall_mem_mergedFields (p := (levels · ≤ _)) ?_ ?_ ?_)
      · intro f hf g hg
        exact (ih f hf g hg (ha f hf) (hb g hg)).trans
          (max_le_max (levels_le_fieldsLevels hf) (levels_le_fieldsLevels hg))
      · exact fun f hf => by simpa using .inl (levels_le_fieldsLevels hf)
      · exact fun g hg => by simpa using .inr (levels_le_fieldsLevels hg)
    simp only [merge_record_record, levels]
    omega
  | foreigns x y => simp at ha
  | conflict a b k l hk hl hne => simp [merge_conflict hk hl hne, levels]
  | _ => simp [levels]

/-- Enough room to merge two flat shapes: each level that both have takes a merge of its own and,
if it is marked, another one. -/
def mergeRoom (a b : Shape) : Nat :=
  2 * min a.levels b.levels + if a.isOptional || b.isOptional then 2 else 1

theorem mergeRoom_pos (a b : Shape) : 0 < a.mergeRoom b := by
  simp only [mergeRoom]
  split_ifs <;> omega

theorem mergeRoom_le (a b : Shape) : a.mergeRoom b ≤ 2 * min a.levels b.levels + 2 := by
  simp only [mergeRoom]
  split_ifs <;> omega

theorem mergeRoom_of_isOptional {a b : Shape} (h : a.isOptional = true ∨ b.isOptional = true) :
    a.mergeRoom b = 2 * min a.levels b.levels + 2 := by
  simp [mergeRoom, h]

theorem mergeRoom_of_not_isOptional {a b : Shape} (ha : a.isOptional = false)
    (hb : b.isOptional = false) : a.mergeRoom b = 2 * min a.levels b.levels + 1 := by
  simp [mergeRoom, ha, hb]

end Shape

namespace Progress

open Shape

theorem ofMerge_zero (a b : Shape) : ofMerge 0 a b = noRoom := by
  cases a <;> rfl

theorem ofMerge_unknown_left (room : Nat) (b : Shape) :
    ofMerge (room + 1) unknown b = done.step := rfl

theorem ofMerge_unknown_right (room : Nat) (a : Shape) :
    ofMerge (room + 1) a unknown = done.step := by
  cases a <;> rfl

theorem ofMerge_any_left (room : Nat) (b : Shape) : ofMerge (room + 1) any b = done.step := rfl

theorem ofMerge_any_right (room : Nat) (a : Shape) : ofMerge (room + 1) a any = done.step := by
  cases a <;> rfl

theorem ofMerge_optional_optional (room : Nat) (a b : Shape) :
    ofMerge (room + 1) (optional a) (optional b) = (ofMerge room a b).step := rfl

theorem ofMerge_optional_left (room : Nat) {a b : Shape} (hb : b.kind?.isSome = true) :
    ofMerge (room + 1) (optional a) b = (ofMerge room a b).step := by
  cases b with
  | unknown | any | optional _ => simp [kind?] at hb
  | _ => rfl

theorem ofMerge_optional_right (room : Nat) {a b : Shape} (ha : a.kind?.isSome = true) :
    ofMerge (room + 1) a (optional b) = (ofMerge room a b).step := by
  cases a with
  | unknown | any | optional _ => simp [kind?] at ha
  | _ => cases room <;> rfl

theorem ofMerge_conflict (room : Nat) {a b : Shape} {k l : Kind} (ha : a.kind? = some k)
    (hb : b.kind? = some l) (h : k ≠ l) : ofMerge (room + 1) a b = done.step := by
  cases a <;> cases b <;> first | rfl | simp_all [kind?]

theorem ofMerge_int_float (room : Nat) (r : Range Int) (s : Range Binary64) :
    ofMerge (room + 1) (int r) (float s) = (ofWidening r).step := rfl

theorem ofMerge_float_int (room : Nat) (r : Range Binary64) (s : Range Int) :
    ofMerge (room + 1) (float r) (int s) = (ofWidening s).step := rfl

theorem ofMerge_list_list (room : Nat) (r s : Range Int) (a b : Shape) :
    ofMerge (room + 1) (list r a) (list s b) = (ofMerge room a b).step := rfl

theorem ofMerge_record_record (room : Nat) (fields others : List Field) :
    ofMerge (room + 1) (record fields) (record others) =
      (ofFields room fields (CutFields.ofFields (fields.map Prod.fst) others).shared).step := rfl

theorem ofMerge_foreign_foreign (room : Nat) (x y : Foreign) :
    ofMerge (room + 1) (foreign x) (foreign y) =
      (if x.sameKind y then ⟨0, some (.foreign x)⟩ else done).step := rfl

/-- Induction along the merge of two shapes within some room, of which each case takes one. -/
theorem roomInduction {motive : Nat → Shape → Shape → Prop} (noRoom : ∀ a b, motive 0 a b)
    (unknownLeft : ∀ room b, motive (room + 1) unknown b)
    (unknownRight : ∀ room a, motive (room + 1) a unknown)
    (anyLeft : ∀ room b, motive (room + 1) any b) (anyRight : ∀ room a, motive (room + 1) a any)
    (marked : ∀ room a b, motive room a b → motive (room + 1) (optional a) (optional b))
    (markedLeft : ∀ room a b, b.kind?.isSome = true → motive room a b →
      motive (room + 1) (optional a) b)
    (markedRight : ∀ room a b, a.kind?.isSome = true → motive room a b →
      motive (room + 1) a (optional b))
    (bools : ∀ room, motive (room + 1) bool bool)
    (ints : ∀ room r s, motive (room + 1) (int r) (int s))
    (intFloat : ∀ room r s, motive (room + 1) (int r) (float s))
    (floatInt : ∀ room r s, motive (room + 1) (float r) (int s))
    (floats : ∀ room r s, motive (room + 1) (float r) (float s))
    (texts : ∀ room r s, motive (room + 1) (text r) (text s))
    (lists : ∀ room r s a b, motive room a b → motive (room + 1) (list r a) (list s b))
    (records : ∀ room fields others, (∀ f ∈ fields, ∀ g ∈ others, motive room f.2 g.2) →
      motive (room + 1) (record fields) (record others))
    (foreigns : ∀ room x y, motive (room + 1) (foreign x) (foreign y))
    (conflict : ∀ room a b k l, a.kind? = some k → b.kind? = some l → k ≠ l →
      motive (room + 1) a b)
    (room : Nat) (a b : Shape) : motive room a b := by
  induction room generalizing a b with
  | zero => exact noRoom a b
  | succ room ih =>
    induction a, b using mergeInduction with
    | unknownLeft b => exact unknownLeft room b
    | unknownRight a => exact unknownRight room a
    | anyLeft b => exact anyLeft room b
    | anyRight a => exact anyRight room a
    | marked a b => exact marked room a b (ih a b)
    | markedLeft a b hkind => exact markedLeft room a b hkind (ih a b)
    | markedRight a b hkind => exact markedRight room a b hkind (ih a b)
    | bools => exact bools room
    | ints r s => exact ints room r s
    | intFloat r s => exact intFloat room r s
    | floatInt r s => exact floatInt room r s
    | floats r s => exact floats room r s
    | texts r s => exact texts room r s
    | lists r s a b => exact lists room r s a b (ih a b)
    | records fields others => exact records room fields others fun f _ g _ => ih f.2 g.2
    | foreigns x y => exact foreigns room x y
    | conflict a b k l hk hl hne => exact conflict room a b k l hk hl hne

/-- A merge comes to its end unless an integer is too large to widen, or it is given up because it
takes more than some room. -/
inductive Fits (p : Progress) (room needed : Nat) : Prop
  | ended (h : p.fault = none)
  | overflowed (h : p.fault = some .overflow)
  | tooDeep (h : p.fault = some .tooDeep) (hlt : room < needed)

theorem Fits.step {p : Progress} {room needed : Nat} (h : p.Fits room needed) :
    p.step.Fits (room + 1) (needed + 1) := by
  cases h with
  | ended h => exact .ended h
  | overflowed h => exact .overflowed h
  | tooDeep h hlt => exact .tooDeep h (Nat.succ_lt_succ hlt)

theorem Fits.mono {p : Progress} {room needed larger : Nat} (h : p.Fits room needed)
    (hle : needed ≤ larger) : p.Fits room larger := by
  cases h with
  | ended h => exact .ended h
  | overflowed h => exact .overflowed h
  | tooDeep h hlt => exact .tooDeep h (hlt.trans_le hle)

theorem fault_andThen (p : Progress) (q : Unit → Progress) :
    (p.andThen q).fault = p.fault.or (q ()).fault := by
  simp only [andThen]
  cases hp : p.fault with
  | none => rfl
  | some fault => exact hp

theorem Fits.andThen {p : Progress} {q : Unit → Progress} {room needed : Nat}
    (hp : p.Fits room needed) (hq : (q ()).Fits room needed) : (p.andThen q).Fits room needed := by
  have hfault := fault_andThen p q
  cases hp with
  | ended h =>
    rw [h, Option.none_or] at hfault
    cases hq with
    | ended h => exact .ended (hfault.trans h)
    | overflowed h => exact .overflowed (hfault.trans h)
    | tooDeep h hlt => exact .tooDeep (hfault.trans h) hlt
  | overflowed h => exact .overflowed (by rw [hfault, h]; rfl)
  | tooDeep h hlt => exact .tooDeep (by rw [hfault, h]; rfl) hlt

theorem merges_ofWidening (r : Range Int) : (ofWidening r).merges = 0 := by
  unfold ofWidening
  split <;> rfl

theorem fits_ofWidening (r : Range Int) (room needed : Nat) :
    (ofWidening r).Fits room needed := by
  unfold ofWidening
  split
  · exact .ended rfl
  · exact .overflowed rfl

theorem fits_ofFields {room limit needed : Nat} {fields : List Field} {shared : List SharedField}
    (h : ∀ f ∈ fields, ∀ s ∈ shared, (ofMerge room f.2 s.shape).Fits limit needed) :
    (ofFields room fields shared).Fits limit needed := by
  induction fields generalizing shared with
  | nil => exact .ended rfl
  | cons f rest ih =>
    simp only [ofFields]
    split
    · exact ih fun g hg => h g (List.mem_cons_of_mem _ hg)
    · next s hs =>
      have hfirst := h f List.mem_cons_self s (List.mem_of_find?_eq_some hs)
      refine hfirst.andThen (ih fun g hg t ht => ?_)
      exact h g (List.mem_cons_of_mem _ hg) t (List.mem_filter.mp ht).1

/-- The merge of two flat shapes is given up for want of room only if it takes more than the room.
-/
theorem fits_ofMerge (room : Nat) {a b : Shape} (ha : a.isFlat = true) (hb : b.isFlat = true) :
    (ofMerge room a b).Fits room (a.mergeRoom b) := by
  induction room, a, b using roomInduction with
  | noRoom a b => exact .tooDeep (by rw [ofMerge_zero]; rfl) (mergeRoom_pos a b)
  | unknownLeft room b => exact .ended (by rw [ofMerge_unknown_left]; rfl)
  | unknownRight room a => exact .ended (by rw [ofMerge_unknown_right]; rfl)
  | anyLeft room b => exact .ended (by rw [ofMerge_any_left]; rfl)
  | anyRight room a => exact .ended (by rw [ofMerge_any_right]; rfl)
  | marked room a b ih =>
    rw [isFlat_optional_iff] at ha hb
    rw [ofMerge_optional_optional]
    refine (ih ha.2 hb.2).step.mono ?_
    -- A flat shape has no second mark, so the room for the mark is spent once a level.
    rw [mergeRoom_of_not_isOptional ha.1 hb.1, mergeRoom_of_isOptional (.inl rfl)]
    exact le_rfl
  | markedLeft room a b hkind ih =>
    rw [isFlat_optional_iff] at ha
    have hmark := isOptional_eq_false_of_kind hkind
    rw [ofMerge_optional_left room hkind]
    refine (ih ha.2 hb).step.mono ?_
    rw [mergeRoom_of_not_isOptional ha.1 hmark, mergeRoom_of_isOptional (.inl rfl)]
    exact le_rfl
  | markedRight room a b hkind ih =>
    rw [isFlat_optional_iff] at hb
    have hmark := isOptional_eq_false_of_kind hkind
    rw [ofMerge_optional_right room hkind]
    refine (ih ha hb.2).step.mono ?_
    rw [mergeRoom_of_not_isOptional hmark hb.1, mergeRoom_of_isOptional (.inr rfl)]
    exact le_rfl
  | lists room r s a b ih =>
    rw [isFlat_list] at ha hb
    have hroom := mergeRoom_le a b
    rw [ofMerge_list_list]
    refine (ih ha hb).step.mono ?_
    rw [mergeRoom_of_not_isOptional (b := list s b) rfl rfl]
    simp only [levels]
    omega
  | records room fields others ih =>
    rw [isFlat_record_iff] at ha hb
    rw [ofMerge_record_record]
    have hfields : (ofFields room fields
        (CutFields.ofFields (fields.map Prod.fst) others).shared).Fits room
          (2 * min (fieldsLevels fields) (fieldsLevels others) + 2) := by
      apply fits_ofFields
      intro f hf s hs
      have hmem := CutFields.toField_mem_of_mem_shared hs
      have hmerge := ih f hf _ hmem (ha f hf) (hb _ hmem)
      have hroom := mergeRoom_le f.2 s.toField.2
      have hleft := levels_le_fieldsLevels hf
      have hright := levels_le_fieldsLevels hmem
      exact hmerge.mono (by omega)
    refine hfields.step.mono ?_
    rw [mergeRoom_of_not_isOptional (b := record others) rfl rfl]
    simp only [levels]
    omega
  | intFloat room r s =>
    rw [ofMerge_int_float]
    exact (fits_ofWidening r room _).step
  | floatInt room r s =>
    rw [ofMerge_float_int]
    exact (fits_ofWidening s room _).step
  | foreigns room x y => simp at ha
  | conflict room a b k l hk hl hne => exact .ended (by rw [ofMerge_conflict room hk hl hne]; rfl)
  | _ => exact .ended rfl

end Progress

end JsonShape
