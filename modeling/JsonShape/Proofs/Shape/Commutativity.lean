import JsonShape.Proofs.Shape.Genuine
import JsonShape.Proofs.Shape.Placement
import JsonShape.Proofs.Shape.Presentation
import Mathlib.Data.Option.NAry

/-!
The merge of two shapes in either order. The shapes that come of it differ in the order of fields
and in the signs of zeros only, and both merges begin as many merges of nodes, or both are given up.
With the records exchanged the same fields meet, so what is counted for each meeting is added in
another order.
-/

set_option autoImplicit false

namespace JsonShape

open Binary64 (SameNumber)

instance : Std.Refl SameNumber := ⟨fun _ => .inl rfl⟩

namespace Range

theorem hull_comm (r s : Range Int) : r.hull s = s.hull r :=
  within_antisymm (hull_within (within_hull s r).2 (within_hull s r).1)
    (hull_within (within_hull r s).2 (within_hull r s).1)

/-- Two hulls of the same ranges have the same bounds, but for the signs of zeros. -/
theorem sameNumber_hull_comm {r s : Range Binary64} (hr : r.isNumeric = true)
    (hs : s.isNumeric = true) :
    ((r.hull s).lo).SameNumber (s.hull r).lo ∧ ((r.hull s).hi).SameNumber (s.hull r).hi := by
  obtain ⟨hleft, hright⟩ := within_hull_of_isNumeric hr hs
  obtain ⟨hright', hleft'⟩ := within_hull_of_isNumeric hs hr
  obtain ⟨hlo, hhi⟩ := within_iff.mp (hull_within hleft' hright')
  obtain ⟨hlo', hhi'⟩ := within_iff.mp (hull_within hright hleft)
  exact ⟨Binary64.sameNumber_of_le_of_le hlo' hlo, Binary64.sameNumber_of_le_of_le hhi hhi'⟩

end Range

namespace Shape

/-- What stems from one origin in both orders of two records is one field, if matched fields merge
into the same shape in both orders. -/
private theorem reordered_of_stems {fields others : List Field}
    (hmerge : ∀ f ∈ fields, ∀ g ∈ others,
      (f.2.merge g.2).Reordered SameNumber (g.2.merge f.2))
    {o : Origin} {f g : Field} (hf : Stems fields others o f) (hg : Stems others fields o.swap g) :
    f.1 = g.1 ∧ f.2.Reordered SameNumber g.2 := by
  cases hf with
  | both hf hg' hname =>
    cases hg with
    | both hg'' hf' _ =>
      obtain rfl := Option.some.inj (hf.symm.trans hf')
      obtain rfl := Option.some.inj (hg'.symm.trans hg'')
      exact ⟨hname.symm, hmerge _ (List.mem_of_getElem? hf) _ (List.mem_of_getElem? hg')⟩
  | left hf =>
    cases hg with
    | right hf' =>
      obtain rfl := Option.some.inj (hf.symm.trans hf')
      exact ⟨rfl, Reordered.refl _⟩
  | right hg' =>
    cases hg with
    | left hg'' =>
      obtain rfl := Option.some.inj (hg'.symm.trans hg'')
      exact ⟨rfl, Reordered.refl _⟩

private theorem fieldsMatch_of_stems {fields others : List Field}
    (hmerge : ∀ f ∈ fields, ∀ g ∈ others,
      (f.2.merge g.2).Reordered SameNumber (g.2.merge f.2))
    {origins : List Origin} {merged order : List Field}
    (hleft : List.Forall₂ (Stems fields others) origins merged)
    (hright : List.Forall₂ (Stems others fields) (origins.map Origin.swap) order) :
    FieldsMatch SameNumber merged order := by
  induction hleft generalizing order with
  | nil =>
    cases hright
    exact .nil
  | cons hf _ ih =>
    cases hright with
    | cons hg hright => exact .cons (reordered_of_stems hmerge hf hg) (ih hright)

private theorem reordered_merge_records {fields others : List Field}
    (hmerge : ∀ f ∈ fields, ∀ g ∈ others,
      (f.2.merge g.2).Reordered SameNumber (g.2.merge f.2)) :
    (record (mergedFields fields others)).Reordered SameNumber
      (record (mergedFields others fields)) := by
  have hswap := (interleaves_origins fields others).perm_swap (interleaves_origins others fields)
  -- The fields of the one merge, in the order of the origins of the other one.
  obtain ⟨order, horder, hperm⟩ := List.perm_comp_forall₂ hswap (stems_origins others fields)
  exact reordered_record_iff.mpr ⟨_, order, rfl, hperm,
    fieldsMatch_of_stems hmerge (stems_origins fields others) horder⟩

/-- The order of two shapes decides about the order of fields and the signs of zeros only. -/
theorem reordered_merge_comm {a b : Shape} (ha : a.isGenuine = true) (hb : b.isGenuine = true)
    (hna : a.isNumeric = true) (hnb : b.isNumeric = true) :
    (a.merge b).Reordered SameNumber (b.merge a) := by
  induction a, b using mergeInduction with
  | unknownLeft b =>
    rw [merge_unknown_left, merge_unknown_right]
    exact Reordered.refl _
  | unknownRight a =>
    rw [merge_unknown_left, merge_unknown_right]
    exact Reordered.refl _
  | anyLeft b => rw [merge_any_left, merge_any_right]; rfl
  | anyRight a => rw [merge_any_left, merge_any_right]; rfl
  | marked a b ih => exact ih ha hb hna hnb
  | markedLeft a b hkind ih =>
    rw [merge_optional_left hkind, merge_optional_right hkind]
    exact ih ha hb hna hnb
  | markedRight a b hkind ih =>
    rw [merge_optional_left hkind, merge_optional_right hkind]
    exact ih ha hb hna hnb
  | bools => rfl
  | ints r s => exact congrArg int (Range.hull_comm r s)
  | intFloat r s => exact Range.sameNumber_hull_comm (Range.isNumeric_toBinary64 r) hnb
  | floatInt r s => exact Range.sameNumber_hull_comm hna (Range.isNumeric_toBinary64 s)
  | floats r s => exact Range.sameNumber_hull_comm hna hnb
  | texts r s => exact congrArg text (Range.hull_comm r s)
  | lists r s a b ih => exact ⟨Range.hull_comm r s, ih ha hb hna hnb⟩
  | records fields others ih =>
    rw [isGenuine_record_iff] at ha hb
    rw [isNumeric_record_iff] at hna hnb
    rw [merge_record_record, merge_record_record]
    exact reordered_merge_records fun f hf g hg =>
      ih f hf g hg (ha f hf) (hb g hg) (hna f hf) (hnb g hg)
  | foreigns x y => simp at ha
  | conflict a b k l hk hl hne => rw [merge_conflict hk hl hne, merge_conflict hl hk hne.symm]; rfl

end Shape

namespace Progress

open Shape

/-- The number of merges that a merge takes if it is not given up. -/
def total? (p : Progress) : Option Nat :=
  match p.fault with
  | none => some p.merges
  | some _ => none

theorem total?_eq_some_iff {p : Progress} {n : Nat} :
    p.total? = some n ↔ p.fault = none ∧ p.merges = n := by
  unfold total?
  cases p.fault <;> simp

theorem total?_eq_none_iff {p : Progress} :
    p.total? = none ↔ ∃ fault, p.fault = some fault := by
  unfold total?
  cases p.fault <;> simp

theorem total?_step (p : Progress) : p.step.total? = p.total?.map (· + 1) := by
  unfold total? step
  cases p.fault <;> rfl

theorem total?_andThen (p : Progress) (q : Unit → Progress) :
    (p.andThen q).total? = Option.map₂ (· + ·) p.total? (q ()).total? := by
  cases hp : p.fault with
  | none => cases hq : (q ()).fault <;> simp [andThen, total?, hp, hq]
  | some fault => simp [andThen, total?, hp]

/-- The sum of the merges that several merges take, if none is given up. -/
def sum? (totals : List (Option Nat)) : Option Nat := totals.foldr (Option.map₂ (· + ·)) (some 0)

theorem sum?_cons (total : Option Nat) (totals : List (Option Nat)) :
    sum? (total :: totals) = Option.map₂ (· + ·) total (sum? totals) := rfl

private theorem map₂_add_zero (total : Option Nat) :
    Option.map₂ (· + ·) total (some 0) = total := by
  cases total <;> rfl

private theorem map₂_zero_add (total : Option Nat) :
    Option.map₂ (· + ·) (some 0) total = total := by
  cases total <;> simp

theorem sum?_append (totals others : List (Option Nat)) :
    sum? (totals ++ others) = Option.map₂ (· + ·) (sum? totals) (sum? others) := by
  induction totals with
  | nil => exact (map₂_zero_add _).symm
  | cons total totals ih =>
    rw [List.cons_append, sum?_cons, ih, sum?_cons]
    exact (Option.map₂_assoc Nat.add_assoc).symm

theorem sum?_perm {totals others : List (Option Nat)} (h : totals.Perm others) :
    sum? totals = sum? others :=
  have : LeftCommutative (Option.map₂ (α := Nat) (β := Nat) (γ := Nat) (· + ·)) :=
    ⟨fun _ _ _ => Option.map₂_left_comm Nat.add_left_comm⟩
  h.foldr_eq _

theorem sum?_flatMap {α : Type} (l : List α) (f : α → List (Option Nat)) :
    sum? (l.flatMap f) = sum? (l.map fun a => sum? (f a)) := by
  induction l with
  | nil => rfl
  | cons a rest ih => rw [List.flatMap_cons, sum?_append, ih, List.map_cons, sum?_cons]

theorem sum?_map_zero {α : Type} (l : List α) : sum? (l.map fun _ => some 0) = some 0 := by
  induction l with
  | nil => rfl
  | cons a rest ih => rw [List.map_cons, sum?_cons, ih]; rfl

section Origins

variable (room : Nat) (fields others : List Field)

/-- The merges that a field takes with its partner, if it has one. -/
def partnerTotal? : Field × Option SharedField → Option Nat
  | (_, none) => some 0
  | (f, some s) => (ofMerge room f.2 s.shape).total?

/-- The merges that a field of the merge of two records takes: those of its matched fields. -/
def originTotal? : Origin → Option Nat
  | .both i j =>
    match fields[i]?, others[j]? with
    | some f, some g => (ofMerge room f.2 g.2).total?
    | _, _ => some 0
  | .left _ | .right _ => some 0

private theorem total?_ofFields_partners (fields : List Field) (shared : List SharedField) :
    (ofFields room fields shared).total? =
      sum? ((partners fields shared).map (partnerTotal? room)) := by
  induction fields generalizing shared with
  | nil => rfl
  | cons f rest ih =>
    cases hfind : shared.find? (·.name == f.1) with
    | none =>
      simp only [ofFields, partners, hfind, List.map_cons, sum?_cons, ih, partnerTotal?,
        map₂_zero_add]
    | some s =>
      simp only [ofFields, partners, hfind, List.map_cons, sum?_cons, total?_andThen, ih,
        partnerTotal?]

private theorem sum?_rights (l : List Nat) :
    sum? ((l.map .right).map (originTotal? room fields others)) = some 0 := by
  rw [List.map_map]
  exact sum?_map_zero l

/-- The merges of the fields of two records are those that their origins take. -/
theorem total?_ofFields :
    (ofFields room fields (shared fields others)).total? =
      sum? ((origins fields others).map (originTotal? room fields others)) := by
  -- A field and its partner take merges, the partner's followers take none.
  have hblock : ∀ x ∈ (partners fields (shared fields others)).zipIdx,
      sum? ((blockOrigins others x).map (originTotal? room fields others)) =
        partnerTotal? room x.1 := by
    rintro ⟨⟨f, _ | s⟩, i⟩ hx
    · rfl
    · obtain ⟨hf, hs, -, -⟩ := getElem?_partners_some (List.mem_zipIdx_iff_getElem?.mp hx)
      have hg := (CutFields.getElem?_place hs).1
      rw [blockOrigins, List.map_cons, sum?_cons, sum?_rights, map₂_add_zero]
      simp only [originTotal?, hf, hg, SharedField.toField, partnerTotal?]
  rw [total?_ofFields_partners, origins, List.map_append, sum?_append, sum?_rights,
    map₂_add_zero, List.map_flatMap, sum?_flatMap, List.map_congr_left hblock]
  conv_lhs => rw [← List.zipIdx_map_fst 0 (partners fields (shared fields others)), List.map_map]
  rfl

end Origins

/-- The merges of the fields of two records are as many in either order of the two. -/
private theorem total?_ofFields_comm {room : Nat} {fields others : List Field}
    (h : ∀ f ∈ fields, ∀ g ∈ others,
      (ofMerge room f.2 g.2).total? = (ofMerge room g.2 f.2).total?) :
    (ofFields room fields (shared fields others)).total? =
      (ofFields room others (shared others fields)).total? := by
  have hswap := (interleaves_origins fields others).perm_swap (interleaves_origins others fields)
  have horigin (o : Origin) :
      originTotal? room fields others o = originTotal? room others fields o.swap := by
    cases o with
    | both i j =>
      cases hf : fields[i]? with
      | none => cases hg : others[j]? <;> simp [originTotal?, Origin.swap, hf, hg]
      | some f =>
        cases hg : others[j]? with
        | none => simp [originTotal?, Origin.swap, hf, hg]
        | some g =>
          simpa [originTotal?, Origin.swap, hf, hg] using
            h f (List.mem_of_getElem? hf) g (List.mem_of_getElem? hg)
    | left i => rfl
    | right j => rfl
  rw [total?_ofFields, total?_ofFields, ← sum?_perm (hswap.map _), List.map_map]
  exact congrArg sum? (List.map_congr_left fun o _ => horigin o)

/-- The merge of two shapes takes as many merges of nodes in either order, or is given up in
both. -/
theorem total?_ofMerge_comm (room : Nat) (a b : Shape) :
    (ofMerge room a b).total? = (ofMerge room b a).total? := by
  induction room, a, b using roomInduction with
  | noRoom a b => rw [ofMerge_zero, ofMerge_zero]
  | unknownLeft room b => rw [ofMerge_unknown_left, ofMerge_unknown_right]
  | unknownRight room a => rw [ofMerge_unknown_left, ofMerge_unknown_right]
  | anyLeft room b => rw [ofMerge_any_left, ofMerge_any_right]
  | anyRight room a => rw [ofMerge_any_left, ofMerge_any_right]
  | marked room a b ih =>
    rw [ofMerge_optional_optional, ofMerge_optional_optional, total?_step, total?_step, ih]
  | markedLeft room a b hkind ih =>
    rw [ofMerge_optional_left room hkind, ofMerge_optional_right room hkind, total?_step,
      total?_step, ih]
  | markedRight room a b hkind ih =>
    rw [ofMerge_optional_left room hkind, ofMerge_optional_right room hkind, total?_step,
      total?_step, ih]
  | lists room r s a b ih =>
    rw [ofMerge_list_list, ofMerge_list_list, total?_step, total?_step, ih]
  | records room fields others ih =>
    rw [ofMerge_record_record, ofMerge_record_record, total?_step, total?_step]
    exact congrArg _ (total?_ofFields_comm ih)
  | foreigns room x y => cases x <;> cases y <;> rfl
  | conflict room a b k l hk hl hne =>
    rw [ofMerge_conflict room hk hl hne, ofMerge_conflict room hl hk hne.symm]
  | _ => rfl

theorem fault_ofMerge_comm (room : Nat) (a b : Shape) :
    (∃ fault, (ofMerge room a b).fault = some fault) ↔
      ∃ fault, (ofMerge room b a).fault = some fault := by
  rw [← total?_eq_none_iff, ← total?_eq_none_iff, total?_ofMerge_comm]

end Progress

namespace Shape

/-- Two shapes without foreign nodes and NaN merge into the same shape in either order, but for the
order of fields and the signs of zeros, and with as many merges. In both orders the merge is given
up if they are together too high for the room, or if an integer of more than 64 bits is too large to
widen. -/
theorem on_unify_comm {a b : Shape} (ha : a.isGenuine = true) (hb : b.isGenuine = true)
    (hna : a.isNumeric = true) (hnb : b.isNumeric = true) (merges before : Nat) :
    (∃ s t n, (a.unify b).on merges = (.ok s, merges + n) ∧
      (b.unify a).on before = (.ok t, before + n) ∧ s.Reordered SameNumber t) ∨
      nestingRoom ≤ a.height + b.height ∧ (∃ reached after,
        (a.unify b).on merges = (.error .tooDeep, reached) ∧
          (b.unify a).on before = (.error .tooDeep, after)) ∨
      ¬ (a.isNarrow = true ∧ b.isNarrow = true) ∧ ∃ fault fault' reached after,
        (a.unify b).on merges = (.error fault, reached) ∧
          (b.unify a).on before = (.error fault', after) ∧
            (fault = .overflow ∨ fault' = .overflow) := by
  have htotal := Progress.total?_ofMerge_comm nestingRoom a b
  have hfails := Progress.fault_ofMerge_comm nestingRoom a b
  have hfits' := Progress.fits_ofMerge_of_isGenuine nestingRoom hb ha
  rcases Progress.fits_ofMerge_of_isGenuine nestingRoom ha hb with hfault | hfault | ⟨hfault, hlt⟩
  · rw [Progress.total?_eq_some_iff.mpr ⟨hfault, rfl⟩] at htotal
    obtain ⟨hfault', hmerges⟩ := Progress.total?_eq_some_iff.mp htotal.symm
    refine .inl ⟨_, _, _, by rw [on_unify, hfault], ?_, reordered_merge_comm ha hb hna hnb⟩
    rw [on_unify, hfault', hmerges]
  · obtain ⟨fault', hfault'⟩ := hfails.mp ⟨_, hfault⟩
    refine .inr (.inr ⟨fun hnarrow => ?_, _, _, _, _, on_unify_of_fault hfault merges,
      on_unify_of_fault hfault' before, .inl rfl⟩)
    exact Progress.fault_ofMerge_ne_overflow nestingRoom hnarrow.1 hnarrow.2 hfault
  · rcases hfits' with hfault' | hfault' | ⟨hfault', -⟩
    · obtain ⟨fault', hsome⟩ := hfails.mp ⟨_, hfault⟩
      cases hfault'.symm.trans hsome
    · refine .inr (.inr ⟨fun hnarrow => ?_, _, _, _, _, on_unify_of_fault hfault merges,
        on_unify_of_fault hfault' before, .inr rfl⟩)
      exact Progress.fault_ofMerge_ne_overflow nestingRoom hnarrow.2 hnarrow.1 hfault'
    · exact .inr (.inl ⟨Nat.le_of_lt_succ hlt, _, _, on_unify_of_fault hfault merges,
        on_unify_of_fault hfault' before⟩)

/-- A record with a repeated name, a doubled mark and a zero. -/
def echoRecord : Shape :=
  record [("x", optional (optional (int ⟨1, 2 ^ 53 + 1⟩))), ("y", float (.point (.zero false))),
    ("x", bool), ("u", list ⟨0, 2⟩ any)]

/-- A record with the other zero, and another name repeated. -/
def mirroredRecord : Shape :=
  record [("v", unknown), ("y", float (.point (.zero true))), ("w", text ⟨3, 3⟩),
    ("x", float ⟨.ofInt 0, .ofInt 2⟩), ("y", unknown)]

theorem on_unify_comm_echoRecord :
    echoRecord.isGenuine = true ∧ mirroredRecord.isGenuine = true ∧
      echoRecord.isNumeric = true ∧ mirroredRecord.isNumeric = true ∧
        ∃ s t n, (echoRecord.unify mirroredRecord).on 0 = (.ok s, 0 + n) ∧
          (mirroredRecord.unify echoRecord).on 7 = (.ok t, 7 + n) ∧
            s ≠ t ∧ s.Reordered SameNumber t := by
  have hleft : echoRecord.isGenuine = true := by decide
  have hright : mirroredRecord.isGenuine = true := by decide
  have hnumeric : echoRecord.isNumeric = true := by decide
  have hnumeric' : mirroredRecord.isNumeric = true := by decide
  have hroom : ¬ nestingRoom ≤ echoRecord.height + mirroredRecord.height := by decide
  have hnarrow : echoRecord.isNarrow = true ∧ mirroredRecord.isNarrow = true := by decide
  obtain ⟨s, t, n, hs, ht, hsame⟩ :=
    (on_unify_comm hleft hright hnumeric hnumeric' 0 7).resolve_right fun h =>
      h.elim (fun hdeep => hroom hdeep.1) fun hwide => hwide.1 hnarrow
  have hne : s ≠ t := by
    rw [eq_merge_of_on_unify hs, eq_merge_of_on_unify ht]
    exact fun heq => absurd (congrArg fieldNames heq) (by decide)
  exact ⟨hleft, hright, hnumeric, hnumeric', s, t, n, hs, ht, hne, hsame⟩

end Shape

end JsonShape
