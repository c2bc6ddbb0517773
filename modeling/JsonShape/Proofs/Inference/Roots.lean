import JsonShape.Proofs.Inference.Records
import JsonShape.Proofs.Inference.Room

/-!
The root of the shape around some values. Values of one kind make a core that tells the least and
the greatest of their numbers or lengths, and a null among them marks it. The first value of a
second kind makes an any shape, which is marked if a null came before, and nothing behind it counts.
-/

set_option autoImplicit false

namespace JsonShape

/-- A shape, marked as optional if there is a reason to. -/
def Shape.markIf (marked : Bool) (s : Shape) : Shape := if marked then optional s else s

namespace Value

/-- The kind of a value; null is of none. Integers that do not fit 64 bits are of the kind of
texts. -/
def kind? : Value → Option Shape.Kind
  | null => none
  | bool _ => some .bool
  | int n => some (if fitsInt64 n then .number else .text)
  | float _ | decimal _ => some .number
  | text _ | illFormedText _ => some .text
  | list _ => some .list
  | dict _ => some .record
  | foreign _ => some .foreign

/-- The integer that a value is, if it fits 64 bits. -/
def int64? : Value → Option Int
  | int n => if fitsInt64 n then some n else none
  | _ => none

/-- The number of elements of the list that a value is. -/
def itemCount? : Value → Option Nat
  | list items => some items.length
  | _ => none

/-- The values are all of one kind, but for nulls. -/
def OneKind (vs : List Value) : Prop := ∃ k, ∀ v ∈ vs, v ≠ null → v.kind? = some k

/-- The shape around values of one kind without nulls: what it is, and what its ranges span. -/
inductive IsCore (vs : List Value) : Shape → Prop
  | unknown (hvs : vs = []) : IsCore vs .unknown
  | bool (hne : vs ≠ []) (hvs : ∀ v ∈ vs, v.kind? = some .bool) : IsCore vs .bool
  | int {r : Range Int} (hvs : ∀ v ∈ vs, v.int64?.isSome = true)
      (hspans : r.Spans (vs.filterMap int64?)) : IsCore vs (.int r)
  | float {r : Range Binary64} (hvs : ∀ v ∈ vs, v.kind? = some .number)
      (hsome : ∃ v ∈ vs, v.int64? = none) (hspans : r.Spans (vs.filterMap toBinary64?)) :
      IsCore vs (.float r)
  | text {r : Range Int} (hvs : ∀ v ∈ vs, v.kind? = some .text)
      (hspans : r.Spans ((vs.filterMap textLength?).map Nat.cast)) : IsCore vs (.text r)
  | list {r : Range Int} {item : Shape} (hvs : ∀ v ∈ vs, v.kind? = some .list)
      (hspans : r.Spans ((vs.filterMap itemCount?).map Nat.cast)) : IsCore vs (.list r item)
  | record {fields : List Field} (hne : vs ≠ []) (hvs : ∀ v ∈ vs, v.kind? = some .record) :
      IsCore vs (.record fields)

/-- The shape around some values: their core, marked if one is null, as long as they are of one
kind, and from the first value of a second kind on an any shape, marked if a null came before. -/
inductive IsRoot (vs : List Value) : Shape → Prop
  | oneKind {core : Shape} (hvs : OneKind vs) (hcore : IsCore (nonNull vs) core) :
      IsRoot vs (core.markIf (vs.any isNull))
  | mixed {pre post : List Value} {v : Value} (hvs : vs = pre ++ v :: post) (hpre : OneKind pre)
      (hsecond : ¬ OneKind (pre ++ [v])) : IsRoot vs (Shape.any.markIf (pre.any isNull))

namespace IsCore

variable {vs ws : List Value} {a b : Shape}

theorem kind?_of_int64? {v : Value} (h : v.int64?.isSome = true) :
    v.kind? = some .number ∧ v.toBinary64? = v.int64?.map .ofInt := by
  cases v with
  | int n =>
    have hfits : fitsInt64 n = true := by
      by_contra hwide
      simp [int64?, hwide] at h
    simp [kind?, int64?, toBinary64?, hfits]
  | _ => simp [int64?] at h

theorem filterMap_toBinary64? (h : ∀ v ∈ vs, v.int64?.isSome = true) :
    vs.filterMap toBinary64? = (vs.filterMap int64?).map .ofInt := by
  rw [List.map_filterMap]
  exact List.filterMap_congr fun v hv => (kind?_of_int64? (h v hv)).2

/-- A core is the unknown shape of no values, or it is of the one kind that some values have. -/
theorem eq_unknown_or_kind (h : IsCore vs a) :
    vs = [] ∧ a = .unknown ∨ vs ≠ [] ∧ ∃ k, a.kind? = some k ∧ ∀ v ∈ vs, v.kind? = some k := by
  cases h with
  | unknown hvs => exact .inl ⟨hvs, rfl⟩
  | bool hne hvs => exact .inr ⟨hne, _, rfl, hvs⟩
  | int hvs hspans =>
    have hkind : ∀ v ∈ vs, v.kind? = some .number := fun v hv => (kind?_of_int64? (hvs v hv)).1
    exact .inr ⟨fun h => hspans.ne_nil (by rw [h]; rfl), _, rfl, hkind⟩
  | float hvs hsome hspans => exact .inr ⟨fun h => hspans.ne_nil (by rw [h]; rfl), _, rfl, hvs⟩
  | text hvs hspans => exact .inr ⟨fun h => hspans.ne_nil (by rw [h]; rfl), _, rfl, hvs⟩
  | list hvs hspans => exact .inr ⟨fun h => hspans.ne_nil (by rw [h]; rfl), _, rfl, hvs⟩
  | record hne hvs => exact .inr ⟨hne, _, rfl, hvs⟩

theorem isOptional_eq_false (h : IsCore vs a) : a.isOptional = false := by
  cases h <;> rfl

theorem ne_any (h : IsCore vs a) : a ≠ .any := by
  cases h <;> simp

/-- The cores of values of one kind merge into the core of all of them. -/
theorem merge (ha : IsCore vs a) (hb : IsCore ws b)
    (hkinds : ∀ k l, a.kind? = some k → b.kind? = some l → k = l) :
    IsCore (vs ++ ws) (a.merge b) := by
  induction a, b using Shape.mergeInduction with
  | unknownLeft b =>
    cases ha with
    | unknown hvs => rwa [hvs, List.nil_append, Shape.merge_unknown_left]
  | unknownRight a =>
    cases hb with
    | unknown hws => rwa [hws, List.append_nil, Shape.merge_unknown_right]
  | bools =>
    cases ha with
    | bool hne hvs =>
      cases hb with
      | bool _ hws =>
        exact .bool (List.append_ne_nil_of_left_ne_nil hne ws)
          (List.forall_mem_append.mpr ⟨hvs, hws⟩)
  | ints r s =>
    cases ha with
    | int hvs hr =>
      cases hb with
      | int hws hs =>
        refine .int (List.forall_mem_append.mpr ⟨hvs, hws⟩) ?_
        rw [List.filterMap_append]
        exact hr.hull hs
  | intFloat r s =>
    cases ha with
    | int hvs hr =>
      cases hb with
      | float hws hsome hs =>
        have hkind : ∀ v ∈ vs, v.kind? = some .number := fun v hv => (kind?_of_int64? (hvs v hv)).1
        obtain ⟨w, hw, hnone⟩ := hsome
        refine .float (List.forall_mem_append.mpr ⟨hkind, hws⟩)
          ⟨w, List.mem_append_right vs hw, hnone⟩ ?_
        rw [List.filterMap_append, filterMap_toBinary64? hvs]
        exact hr.toBinary64.binary64_hull hs
  | floatInt r s =>
    cases ha with
    | float hvs hsome hr =>
      cases hb with
      | int hws hs =>
        have hkind : ∀ w ∈ ws, w.kind? = some .number := fun w hw => (kind?_of_int64? (hws w hw)).1
        obtain ⟨v, hv, hnone⟩ := hsome
        refine .float (List.forall_mem_append.mpr ⟨hvs, hkind⟩)
          ⟨v, List.mem_append_left ws hv, hnone⟩ ?_
        rw [List.filterMap_append, filterMap_toBinary64? hws]
        exact hr.binary64_hull hs.toBinary64
  | floats r s =>
    cases ha with
    | float hvs hsome hr =>
      cases hb with
      | float hws _ hs =>
        obtain ⟨v, hv, hnone⟩ := hsome
        refine .float (List.forall_mem_append.mpr ⟨hvs, hws⟩)
          ⟨v, List.mem_append_left ws hv, hnone⟩ ?_
        rw [List.filterMap_append]
        exact hr.binary64_hull hs
  | texts r s =>
    cases ha with
    | text hvs hr =>
      cases hb with
      | text hws hs =>
        refine .text (List.forall_mem_append.mpr ⟨hvs, hws⟩) ?_
        rw [List.filterMap_append, List.map_append]
        exact hr.hull hs
  | lists r s a b _ =>
    cases ha with
    | list hvs hr =>
      cases hb with
      | list hws hs =>
        refine .list (List.forall_mem_append.mpr ⟨hvs, hws⟩) ?_
        rw [List.filterMap_append, List.map_append]
        exact hr.hull hs
  | records fields others _ =>
    cases ha with
    | record hne hvs =>
      cases hb with
      | record _ hws =>
        exact .record (List.append_ne_nil_of_left_ne_nil hne ws)
          (List.forall_mem_append.mpr ⟨hvs, hws⟩)
  | conflict a b k l hk hl hne => exact absurd (hkinds k l hk hl) hne
  | anyRight a => cases hb
  | markedRight a b _ _ => cases hb
  | _ => cases ha

/-- The shape of a value is the core of this value alone. -/
theorem of_succeeds {v : Value} {room : Nat} (h : v.Succeeds room) (hnumeric : v.isNumeric = true)
    (hnull : v ≠ null) : IsCore [v] v.shape := by
  obtain ⟨merges, s, reached, h⟩ := h
  cases v with
  | null => exact absurd rfl hnull
  | bool b => exact .bool (List.cons_ne_nil _ _) (by simp [kind?])
  | int n =>
    simp only [shape]
    split_ifs with hfits
    · refine .int (by simp [int64?, hfits]) ?_
      simpa [int64?, hfits] using Range.spans_point (le_refl n)
    · refine .text (by simp [kind?, hfits]) ?_
      simpa [textLength?, hfits] using Range.spans_point (le_refl ((toString n).length : Int))
  | float x =>
    refine .float (by simp [kind?]) (by simp [int64?]) ?_
    exact Range.spans_point (Binary64.le_refl_of_isNumber hnumeric)
  | decimal d =>
    simp only [infer] at h
    cases hd : d.toBinary64? with
    | none => simp [hd] at h
    | some x =>
      have hx : x.isNumber = true := by
        simpa [isNumeric, everywhere, isNumericNode, hd] using hnumeric
      have hshape : (decimal d).shape = .float (.point x) := by simp [shape, hd]
      rw [hshape]
      refine .float (by simp [kind?]) (by simp [int64?]) ?_
      simpa [toBinary64?, hd] using Range.spans_point (Binary64.le_refl_of_isNumber hx)
  | text s =>
    refine .text (by simp [kind?]) ?_
    exact Range.spans_point (le_refl _)
  | list items =>
    rw [shape_list]
    refine .list (by simp [kind?]) ?_
    exact Range.spans_point (le_refl _)
  | dict entries =>
    rw [shape_dict]
    exact .record (List.cons_ne_nil _ _) (by simp [kind?])
  | illFormedText _ | foreign _ => simp [infer] at h

end IsCore

section Marks

variable {s t : Shape}

theorem markIf_merge (ht : t.isOptional = false) (hs : s ≠ .any) (hmark : s.isOptional = false)
    (marked : Bool) : (t.markIf marked).merge s = (t.merge s).markIf marked := by
  cases marked with
  | false => rfl
  | true =>
    have hoptional := Shape.merge_makeOptional_left (t := t) hs
    rwa [Shape.makeOptional_of_not_isOptional ht,
      Shape.makeOptional_of_not_isOptional (Shape.isOptional_merge ht hmark)] at hoptional

theorem markIf_merge_null (ht : t.isOptional = false) (hany : t ≠ .any) (marked : Bool) :
    (t.markIf marked).merge null.shape = t.markIf true := by
  have hnull : null.shape = .optional .unknown := rfl
  cases marked with
  | true =>
    change (Shape.optional t).merge null.shape = .optional t
    rw [hnull, Shape.merge_optional_optional, Shape.merge_unknown_right]
  | false =>
    change t.merge null.shape = .optional t
    by_cases hunknown : t = .unknown
    · rw [hunknown]
      rfl
    · rw [hnull, Shape.merge_optional_right (Shape.kind?_isSome hunknown hany ht),
        Shape.merge_unknown_right]

/-- An any shape absorbs what follows, and keeps the mark that it has. -/
theorem markIf_any_merge (hs : s ≠ .any) (marked : Bool) :
    (Shape.any.markIf marked).merge s = Shape.any.markIf marked := by
  cases marked with
  | false => rfl
  | true => exact Shape.merge_makeOptional_left (t := .any) hs

end Marks

section Roots

variable {vs : List Value} {v : Value} {s : Shape}

theorem oneKind_concat_iff (hv : v ≠ null) {k : Shape.Kind} (hk : v.kind? = some k) :
    OneKind (vs ++ [v]) ↔ ∀ w ∈ nonNull vs, w.kind? = some k := by
  constructor
  · rintro ⟨l, h⟩ w hw
    obtain ⟨hw, hnull⟩ := mem_nonNull.mp hw
    have hvl := h v (List.mem_append_right vs (List.mem_singleton_self v)) hv
    rw [← hk, hvl]
    exact h w (List.mem_append_left [v] hw) hnull
  · intro h
    refine ⟨k, List.forall_mem_append.mpr ⟨fun w hw hnull => ?_, ?_⟩⟩
    · exact h w (mem_nonNull.mpr ⟨hw, hnull⟩)
    · exact List.forall_mem_singleton.mpr fun _ => hk

theorem OneKind.concat_null (h : OneKind vs) : OneKind (vs ++ [null]) := by
  obtain ⟨k, hk⟩ := h
  exact ⟨k, List.forall_mem_append.mpr ⟨hk, List.forall_mem_singleton.mpr fun h => absurd rfl h⟩⟩

theorem nonNull_concat (hv : v ≠ null) : nonNull (vs ++ [v]) = nonNull vs ++ [v] := by
  have hkept : [v].filter (!·.isNull) = [v] := by
    cases v <;> simp_all [isNull]
  rw [nonNull, List.filter_append, hkept]
  rfl

theorem any_isNull_concat (hv : v ≠ null) : (vs ++ [v]).any isNull = vs.any isNull := by
  have hnot : v.isNull = false := by
    cases v <;> simp_all [isNull]
  rw [List.any_append, List.any_cons, hnot]
  simp

/-- A core that a further value does not go on with is of another kind than this value. -/
theorem IsCore.exists_ne_kind {core : Shape} (h : IsCore (nonNull vs) core) (hv : v ≠ null)
    {k : Shape.Kind} (hk : v.kind? = some k) (hnot : ¬ OneKind (vs ++ [v])) :
    ∃ l, core.kind? = some l ∧ l ≠ k := by
  rw [oneKind_concat_iff hv hk] at hnot
  rcases h.eq_unknown_or_kind with ⟨hnil, -⟩ | ⟨-, l, hl, hall⟩
  · rw [hnil] at hnot
    exact absurd (List.forall_mem_nil _) hnot
  · refine ⟨l, hl, ?_⟩
    rintro rfl
    exact hnot hall

theorem IsRoot.concat_null (h : IsRoot vs s) : IsRoot (vs ++ [null]) (s.merge null.shape) := by
  cases h with
  | @oneKind core hvs hcore =>
    have hnonNull : nonNull (vs ++ [null]) = nonNull vs := by
      simp [nonNull, List.filter_append, isNull]
    have hmarked : (vs ++ [null]).any isNull = true := by
      simp [isNull]
    have hroot := IsRoot.oneKind hvs.concat_null (hnonNull ▸ hcore)
    rw [markIf_merge_null hcore.isOptional_eq_false hcore.ne_any]
    rwa [hmarked] at hroot
  | @mixed pre post w hvs hpre hsecond =>
    have hlonger : vs ++ [null] = pre ++ w :: (post ++ [null]) := by simp [hvs]
    rw [markIf_any_merge null.shape_ne_any]
    exact .mixed hlonger hpre hsecond

/-- A further value takes the root around some values to the root around all of them. -/
theorem IsRoot.concat (h : IsRoot vs s) (hnull : v ≠ null) (hv : IsCore [v] v.shape) :
    IsRoot (vs ++ [v]) (s.merge v.shape) := by
  obtain ⟨-, k, hk, hkind⟩ := hv.eq_unknown_or_kind.resolve_left fun h => by simp at h
  have hvk := hkind v (List.mem_singleton_self v)
  cases h with
  | @oneKind core hvs hcore =>
    rw [markIf_merge hcore.isOptional_eq_false v.shape_ne_any hv.isOptional_eq_false,
      ← any_isNull_concat hnull]
    by_cases hone : OneKind (vs ++ [v])
    · -- The value is of the kind of those before it, so that its shape goes on with their core.
      have hall := (oneKind_concat_iff hnull hvk).mp hone
      have hmerged := hcore.merge hv fun l m hl hm => by
        rcases hcore.eq_unknown_or_kind with ⟨-, rfl⟩ | ⟨hne, l', hl', hcommon⟩
        · cases hl
        · obtain ⟨w, hw⟩ := List.exists_mem_of_ne_nil _ hne
          have hlk := (hcommon w hw).symm.trans (hall w hw)
          exact Option.some.inj (hl.symm.trans (hl'.trans (hlk.trans (hk.symm.trans hm))))
      rw [← nonNull_concat hnull] at hmerged
      exact .oneKind hone hmerged
    · obtain ⟨l, hl, hne⟩ := hcore.exists_ne_kind hnull hvk hone
      rw [Shape.merge_conflict hl hk hne, any_isNull_concat hnull]
      exact .mixed rfl hvs hone
  | @mixed pre post w hvs hpre hsecond =>
    have hlonger : vs ++ [v] = pre ++ w :: (post ++ [v]) := by simp [hvs]
    rw [markIf_any_merge v.shape_ne_any]
    exact .mixed hlonger hpre hsecond

/-- The root around values of which inference finds shapes. -/
theorem isRoot_around {room : Nat} (hvs : ∀ v ∈ vs, v.Succeeds room)
    (hnumeric : ∀ v ∈ vs, v.isNumeric = true) : IsRoot vs (Shape.around (vs.map shape)) := by
  induction vs using List.reverseRecOn with
  | nil => exact .oneKind ⟨.bool, List.forall_mem_nil _⟩ (.unknown rfl)
  | append_singleton vs v ih =>
    simp only [List.forall_mem_append, List.forall_mem_singleton] at hvs hnumeric
    have hroot := ih hvs.1 hnumeric.1
    rw [List.map_append, List.map_singleton, Shape.around_concat]
    by_cases hnull : v = null
    · subst hnull
      exact hroot.concat_null
    · exact hroot.concat hnull (.of_succeeds hvs.2 hnumeric.2 hnull)

theorem IsRoot.eq_unknown_iff (h : IsRoot vs s) : s = .unknown ↔ vs = [] := by
  cases h with
  | @oneKind core hvs hcore =>
    constructor
    · intro hunknown
      cases hmarked : vs.any isNull with
      | true =>
        rw [hmarked] at hunknown
        cases hunknown
      | false =>
        rw [hmarked] at hunknown
        have hnone : nonNull vs = [] := by
          refine (hcore.eq_unknown_or_kind.resolve_right ?_).1
          rintro ⟨-, k, hk, -⟩
          rw [show core = .unknown from hunknown] at hk
          cases hk
        rw [List.any_eq_false] at hmarked
        have hall : nonNull vs = vs := List.filter_eq_self.mpr fun v hv => by simp [hmarked v hv]
        rw [← hall, hnone]
    · rintro rfl
      have hunknown : core = .unknown :=
        (hcore.eq_unknown_or_kind.resolve_right fun h => h.1 rfl).2
      rw [hunknown]
      rfl
  | @mixed pre post w hvs hpre hsecond =>
    rw [hvs]
    constructor
    · cases pre.any isNull <;> intro hunknown <;> cases hunknown
    · simp

end Roots

end Value

/-- Inference succeeds on values without NaN if it does on each. The shape that it finds is unknown
for no values only, and is the root around the values. -/
theorem on_inferMany_isRoot {vs : List Value} (hnumeric : ∀ v ∈ vs, v.isNumeric = true)
    (hvs : ∀ v ∈ vs, ∃ before s after, (infer v).on before = (.ok s, after)) (merges : Nat) :
    ∃ s reached, (inferMany vs).on merges = (.ok s, reached) ∧
      (s = .unknown ↔ vs = []) ∧ Value.IsRoot vs s := by
  obtain ⟨reached, hon⟩ := on_inferMany_of_succeeds hvs merges
  have hroot := Value.isRoot_around hvs hnumeric
  exact ⟨_, reached, hon, hroot.eq_unknown_iff, hroot⟩

/-- Numbers around a null, then a dictionary with two keys of one name, and a null again. -/
def strayRows : List Value :=
  [.int (2 ^ 53 + 1), .null, .decimal (.finite true 15 (-1)),
    .dict [(.bool true, .text "a"), (.text "True", .list [.float (.zero true)])], .null, .bool true]

theorem on_inferMany_isRoot_strayRows :
    (∀ v ∈ strayRows, v.isNumeric = true) ∧
      (∀ v ∈ strayRows, ∃ before s after, (infer v).on before = (.ok s, after)) ∧
        ∃ s reached, (inferMany strayRows).on 0 = (.ok s, reached) ∧
          s ≠ .unknown ∧ Value.IsRoot strayRows s := by
  have hnumeric : ∀ v ∈ strayRows, v.isNumeric = true := by decide
  have hvs : ∀ v ∈ strayRows, ∃ before s after, (infer v).on before = (.ok s, after) := by
    simp only [strayRows, List.forall_mem_cons]
    exact ⟨⟨0, _, _, rfl⟩, ⟨0, _, _, rfl⟩, ⟨0, _, _, rfl⟩, ⟨0, _, _, rfl⟩, ⟨0, _, _, rfl⟩,
      ⟨0, _, _, rfl⟩, List.forall_mem_nil _⟩
  obtain ⟨s, reached, hon, hunknown, hroot⟩ := on_inferMany_isRoot hnumeric hvs 0
  exact ⟨hnumeric, hvs, s, reached, hon, fun h => List.cons_ne_nil _ _ (hunknown.mp h), hroot⟩

end JsonShape
