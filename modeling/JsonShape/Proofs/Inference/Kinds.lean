import JsonShape.Proofs.Inference.Limits
import JsonShape.Proofs.Shape.Progress
import JsonShape.Proofs.Zig.Skeleton
import Mathlib.Data.List.Forall2

/-!
Inference on two lists of values that agree in the kinds of their nodes and in their keys. Merges
look at the skeletons of shapes alone, so the two runs go in step: they come to shapes of one
skeleton, after as many merges, and one text is written for both.
-/

set_option autoImplicit false

namespace JsonShape

/-- The kinds of values without parts. -/
inductive LeafKind
  | null
  | bool
  | int
  | float
  | text
  deriving DecidableEq

/-- The skeleton of the shapes of a kind of leaves. -/
def LeafKind.skeleton : LeafKind → Shape
  | null => .optional .unknown
  | bool => .bool
  | int => .int (.point 0)
  | float => .float (.point (.ofInt 0))
  | text => .text (.point 0)

namespace Value

/-- The kind of a value without parts. An integer that does not fit 64 bits is like a text. -/
def leafKind? : Value → Option LeafKind
  | null => some .null
  | bool _ => some .bool
  | int n => some (if fitsInt64 n then .int else .text)
  | float _ | decimal _ => some .float
  | text _ | illFormedText _ => some .text
  | list _ | dict _ | foreign _ => none

mutual

/-- Two value trees have leaves of the same kinds, lists of the same lengths, and dictionaries with
the same keys in the same order, at the same places. -/
def sameKind : Value → Value → Bool
  | list items, list others => itemsSameKind items others
  | dict entries, dict others => entriesSameKind entries others
  | v, w => v.leafKind?.isSome && v.leafKind? = w.leafKind?

/-- Two lists have elements of the same kinds. -/
def itemsSameKind : List Value → List Value → Bool
  | [], [] => true
  | v :: rest, w :: others => v.sameKind w && itemsSameKind rest others
  | _, _ => false

/-- Two dictionaries have the same keys, with values of the same kinds. -/
def entriesSameKind : List (Key × Value) → List (Key × Value) → Bool
  | [], [] => true
  | (key, v) :: rest, (other, w) :: others =>
    key = other && (v.sameKind w && entriesSameKind rest others)
  | _, _ => false

end

theorem itemsSameKind_iff {items others : List Value} :
    itemsSameKind items others = true ↔
      List.Forall₂ (fun v w => v.sameKind w = true) items others := by
  induction items generalizing others with
  | nil => cases others <;> simp [itemsSameKind]
  | cons v rest ih => cases others <;> simp [itemsSameKind, ih]

theorem entriesSameKind_iff {entries others : List (Key × Value)} :
    entriesSameKind entries others = true ↔
      List.Forall₂ (fun e d => e.1 = d.1 ∧ e.2.sameKind d.2 = true) entries others := by
  induction entries generalizing others with
  | nil => cases others <;> simp [entriesSameKind]
  | cons e rest ih => cases others <;> simp [entriesSameKind, ih, and_assoc]

theorem exists_of_sameKind_list {items : List Value} {w : Value}
    (h : (list items).sameKind w = true) :
    ∃ others, w = list others ∧ List.Forall₂ (fun v w => v.sameKind w = true) items others := by
  cases w with
  | list others => exact ⟨others, rfl, itemsSameKind_iff.mp h⟩
  | _ => exact absurd h Bool.false_ne_true

theorem exists_of_sameKind_dict {entries : List (Key × Value)} {w : Value}
    (h : (dict entries).sameKind w = true) :
    ∃ others, w = dict others ∧
      List.Forall₂ (fun e d => e.1 = d.1 ∧ e.2.sameKind d.2 = true) entries others := by
  cases w with
  | dict others => exact ⟨others, rfl, entriesSameKind_iff.mp h⟩
  | _ => exact absurd h Bool.false_ne_true

end Value

namespace Progress

open Shape

/-- The progress of the merges of fields that come to their end hangs on that of each pair of
them. -/
theorem ofFields_map {g : Shape → Shape} {room : Nat} {fields : List Field}
    {shared : List SharedField} (h : ∀ f ∈ fields, ∀ s ∈ shared,
      (ofMerge room f.2 s.shape).fault = none →
        ofMerge room (g f.2) (g s.shape) = ofMerge room f.2 s.shape)
    (hended : (ofFields room fields shared).fault = none) :
    ofFields room (fields.map (Prod.map id g)) (shared.map (SharedField.map g)) =
      ofFields room fields shared := by
  induction fields generalizing shared with
  | nil => rfl
  | cons f rest ih =>
    obtain ⟨hfirst, hrest⟩ := List.forall_mem_cons.mp h
    have hfind : (shared.map (SharedField.map g)).find? (·.name == f.1) =
        (shared.find? (·.name == f.1)).map (SharedField.map g) := List.find?_map
    have hothers : (shared.map (SharedField.map g)).filter (·.name != f.1) =
        (shared.filter (·.name != f.1)).map (SharedField.map g) := List.filter_map
    simp only [List.map_cons, ofFields, Prod.map_fst, Prod.map_snd, id_eq, hfind] at hended ⊢
    cases hs : shared.find? (·.name == f.1) with
    | none =>
      rw [hs] at hended
      exact ih hrest hended
    | some s =>
      rw [hs] at hended
      simp only [fault_andThen, Option.or_eq_none_iff] at hended
      have hpair := hfirst s (List.mem_of_find?_eq_some hs) hended.1
      have hkept : ∀ d ∈ rest, ∀ t ∈ shared.filter (·.name != f.1),
          (ofMerge room d.2 t.shape).fault = none →
            ofMerge room (g d.2) (g t.shape) = ofMerge room d.2 t.shape :=
        fun d hd t ht => hrest d hd t (List.mem_filter.mp ht).1
      simp only [Option.map_some, SharedField.map, hpair]
      rw [← ih hkept hended.2, ← hothers]

theorem ofWidening_of_fault {r : Range Int} (h : (ofWidening r).fault = none) :
    ofWidening r = done := by
  unfold ofWidening at h ⊢
  split at h
  · next hfits => exact if_pos hfits
  · cases h

/-- How far a merge gets that comes to its end hangs on the skeletons of the two shapes alone. -/
theorem ofMerge_skeleton (room : Nat) {a b : Shape} (h : (ofMerge room a b).fault = none) :
    ofMerge room a.skeleton b.skeleton = ofMerge room a b := by
  induction room, a, b using roomInduction with
  | noRoom a b => rw [ofMerge_zero, ofMerge_zero]
  | unknownLeft room b => rfl
  | unknownRight room a => simp only [skeleton, ofMerge_unknown_right]
  | anyLeft room b => rfl
  | anyRight room a => simp only [skeleton, ofMerge_any_right]
  | marked room a b ih =>
    rw [ofMerge_optional_optional] at h
    simp only [skeleton, ofMerge_optional_optional, ih h]
  | markedLeft room a b hkind ih =>
    have hskeleton : b.skeleton.kind?.isSome = true := by rwa [kind?_skeleton]
    rw [ofMerge_optional_left room hkind] at h
    rw [skeleton, ofMerge_optional_left room hskeleton, ofMerge_optional_left room hkind, ih h]
  | markedRight room a b hkind ih =>
    have hskeleton : a.skeleton.kind?.isSome = true := by rwa [kind?_skeleton]
    rw [ofMerge_optional_right room hkind] at h
    rw [skeleton, ofMerge_optional_right room hskeleton, ofMerge_optional_right room hkind, ih h]
  | intFloat room r s =>
    rw [ofMerge_int_float, ofWidening_of_fault h]
    exact congrArg step (ofWidening_of_isNarrow rfl)
  | floatInt room r s =>
    rw [ofMerge_float_int, ofWidening_of_fault h]
    exact congrArg step (ofWidening_of_isNarrow rfl)
  | lists room r s a b ih =>
    rw [ofMerge_list_list] at h
    simp only [skeleton, ofMerge_list_list, ih h]
  | records room fields others ih =>
    have hnames : (fields.map (Prod.map id skeleton)).map Prod.fst = fields.map Prod.fst := by
      simp [List.map_map, Function.comp_def]
    rw [ofMerge_record_record] at h
    simp only [skeleton_record, ofMerge_record_record, hnames, CutFields.ofFields_map]
    rw [ofFields_map (fun f hf s hs =>
      ih f hf s.toField (CutFields.toField_mem_of_mem_shared hs)) h]
  | foreigns room x y => rfl
  | conflict room a b k l hk hl hne =>
    rw [ofMerge_conflict room hk hl hne, ofMerge_conflict room (by rwa [kind?_skeleton])
      (by rwa [kind?_skeleton]) hne]
  | _ => rfl

end Progress

namespace Tally

variable {α β γ δ : Type}

/-- Two computations that both succeed yield related results after as many merges. -/
def Lockstep (same : α → β → Prop) (t : Tally α) (u : Tally β) : Prop :=
  ∀ ⦃a b merges reached before after⦄, t.on merges = (.ok a, reached) →
    u.on before = (.ok b, after) → same a b ∧ ∃ n, reached = merges + n ∧ after = before + n

theorem Lockstep.pure {same : α → β → Prop} {a : α} {b : β} (h : same a b) :
    Lockstep same (Pure.pure a) (Pure.pure b) := by
  intro a' b' merges reached before after ha hb
  obtain ⟨rfl, rfl⟩ := on_pure_eq_ok.mp ha
  obtain ⟨rfl, rfl⟩ := on_pure_eq_ok.mp hb
  exact ⟨h, 0, rfl, rfl⟩

theorem Lockstep.throw_left {same : α → β → Prop} (fault : InferenceFault) (u : Tally β) :
    Lockstep same (throw fault) u := by
  intro a b merges reached before after ha
  simp at ha

theorem Lockstep.bind {same : α → β → Prop} {same' : γ → δ → Prop} {t : Tally α} {u : Tally β}
    {f : α → Tally γ} {g : β → Tally δ} (h : Lockstep same t u)
    (hrest : ∀ a b, same a b → Lockstep same' (f a) (g b)) :
    Lockstep same' (t >>= f) (u >>= g) := by
  intro c d merges reached before after hleft hright
  obtain ⟨a, between, ht, hf⟩ := on_bind_eq_ok hleft
  obtain ⟨b, between', hu, hg⟩ := on_bind_eq_ok hright
  obtain ⟨hsame, m, rfl, rfl⟩ := h ht hu
  obtain ⟨hsame', n, rfl, rfl⟩ := hrest a b hsame hf hg
  exact ⟨hsame', m + n, by omega, by omega⟩

end Tally

open Tally

namespace Shape

/-- Two shapes differ in their ranges at most. -/
abbrev SameSkeleton (s t : Shape) : Prop := s.skeleton = t.skeleton

theorem lockstep_unify {a b c d : Shape} (hleft : a.SameSkeleton c) (hright : b.SameSkeleton d) :
    Lockstep SameSkeleton (a.unify b) (c.unify d) := by
  intro s t merges reached before after hs ht
  have hprogress : Progress.ofMerge nestingRoom a b = Progress.ofMerge nestingRoom c d := by
    rw [← Progress.ofMerge_skeleton _ (fault_eq_none_of_on_unify hs), hleft, hright,
      Progress.ofMerge_skeleton _ (fault_eq_none_of_on_unify ht)]
  obtain rfl := eq_merge_of_on_unify hs
  obtain rfl := eq_merge_of_on_unify ht
  rw [on_unify, Prod.mk.injEq] at hs ht
  refine ⟨?_, (Progress.ofMerge nestingRoom c d).merges, ?_, ht.2.symm⟩
  · rw [SameSkeleton, skeleton_merge, skeleton_merge, hleft, hright]
  · rw [← hs.2, hprogress]

end Shape

open Shape (SameSkeleton)

theorem Key.eq_of_on_label {key : Key} {s : String} {merges reached : Nat}
    (h : key.label.on merges = (.ok s, reached)) : merges = reached := by
  cases key with
  | int n => exact (eq_of_on_intText h).2
  | _ => exact (on_pure_eq_ok.mp h).2

theorem Key.lockstep_label (key : Key) : Lockstep Eq key.label key.label := by
  intro s t merges reached before after hs ht
  obtain rfl := eq_of_on_label hs
  obtain rfl := eq_of_on_label ht
  exact ⟨(eq_name_of_on_label hs).trans (eq_name_of_on_label ht).symm, 0, rfl, rfl⟩

namespace Value

/-- The shape of a leaf has the skeleton of its kind, and takes no merge. -/
theorem skeleton_of_on_infer {v : Value} {kind : LeafKind} (hkind : v.leafKind? = some kind)
    {room merges reached : Nat} {s : Shape} (h : (v.infer room).on merges = (.ok s, reached)) :
    s.skeleton = kind.skeleton ∧ merges = reached := by
  cases v with
  | int n =>
    simp only [leafKind?, Option.some.injEq] at hkind
    simp only [infer] at h
    subst hkind
    split_ifs at h ⊢ with hfits
    · obtain ⟨rfl, rfl⟩ := on_pure_eq_ok.mp h
      exact ⟨rfl, rfl⟩
    · obtain ⟨digits, between, hdigits, h⟩ := on_bind_eq_ok h
      obtain ⟨-, rfl⟩ := eq_of_on_intText hdigits
      obtain ⟨rfl, rfl⟩ := on_pure_eq_ok.mp h
      exact ⟨rfl, rfl⟩
  | decimal d =>
    simp only [leafKind?, Option.some.injEq] at hkind
    simp only [infer] at h
    subst hkind
    cases hd : d.toBinary64? with
    | none => simp [hd] at h
    | some x =>
      rw [hd] at h
      obtain ⟨rfl, rfl⟩ := on_pure_eq_ok.mp h
      exact ⟨rfl, rfl⟩
  | illFormedText _ => simp [infer] at h
  | list _ | dict _ | foreign _ => simp [leafKind?] at hkind
  | _ =>
    simp only [leafKind?, Option.some.injEq] at hkind
    simp only [infer] at h
    subst hkind
    obtain ⟨rfl, rfl⟩ := on_pure_eq_ok.mp h
    exact ⟨rfl, rfl⟩

theorem lockstep_of_leafKind? {v w : Value} (h : (v.leafKind?.isSome &&
    v.leafKind? = w.leafKind?) = true) (room : Nat) :
    Lockstep SameSkeleton (v.infer room) (w.infer room) := by
  simp only [Bool.and_eq_true, decide_eq_true_eq] at h
  obtain ⟨kind, hkind⟩ := Option.isSome_iff_exists.mp h.1
  intro s t merges reached before after hs ht
  obtain ⟨hv, rfl⟩ := skeleton_of_on_infer hkind hs
  obtain ⟨hw, rfl⟩ := skeleton_of_on_infer (h.2 ▸ hkind) ht
  exact ⟨hv.trans hw.symm, 0, rfl, rfl⟩

theorem lockstep_inferOnto {room : Nat} {vs ws : List Value}
    (h : List.Forall₂ (fun v w => Lockstep SameSkeleton (v.infer room) (w.infer room)) vs ws)
    {s t : Shape} (hst : s.SameSkeleton t) :
    Lockstep SameSkeleton (inferOnto room s vs) (inferOnto room t ws) := by
  induction h generalizing s t with
  | nil => exact .pure hst
  | cons hfirst _ ih =>
    simp only [inferOnto]
    exact hfirst.bind fun _ _ hnext => (Shape.lockstep_unify hst hnext).bind fun _ _ => ih

theorem lockstep_inferFields {room : Nat} {entries others : List (Key × Value)}
    (h : List.Forall₂ (fun e d => e.1 = d.1 ∧
      Lockstep SameSkeleton (e.2.infer room) (d.2.infer room)) entries others) :
    Lockstep (fun fields others => Shape.skeletonFields fields = Shape.skeletonFields others)
      (inferFields room entries) (inferFields room others) := by
  induction h with
  | nil => exact .pure rfl
  | @cons e d _ _ hfirst _ ih =>
    obtain ⟨key, v⟩ := e
    obtain ⟨other, w⟩ := d
    obtain ⟨rfl, hvalues⟩ : key = other ∧ _ := hfirst
    simp only [inferFields]
    refine key.lockstep_label.bind fun name _ hname => hvalues.bind fun s t hst =>
      ih.bind fun fields fields' hfields => .pure ?_
    simp only [Shape.skeletonFields, hname, hst, hfields]

/-- The shapes of two values of the same kinds are found in step. -/
theorem lockstep_infer {v w : Value} (h : v.sameKind w = true) (room : Nat) :
    Lockstep SameSkeleton (v.infer room) (w.infer room) := by
  -- Both runs go down a level together, so they have the same room left.
  induction v using nodeInduction generalizing w room with
  | list items ih =>
    obtain ⟨others, rfl, hitems⟩ := exists_of_sameKind_list h
    cases room with
    | zero => exact .throw_left _ _
    | succ room =>
      have hsteps := ((List.forall₂_and_left _ _).mpr ⟨ih, hitems⟩).imp
        fun _ _ hstep => hstep.1 hstep.2 room
      simp only [infer]
      refine (lockstep_inferOnto hsteps rfl).bind fun s t hst => .pure ?_
      exact congrArg (Shape.list (.point 0)) hst
  | dict entries ih =>
    obtain ⟨others, rfl, hentries⟩ := exists_of_sameKind_dict h
    cases room with
    | zero => exact .throw_left _ _
    | succ room =>
      have hsteps := ((List.forall₂_and_left _ _).mpr ⟨ih, hentries⟩).imp
        fun _ _ hstep => And.intro hstep.2.1 (hstep.1 hstep.2.2 room)
      simp only [infer]
      refine (lockstep_inferFields hsteps).bind fun fields others hfields => .pure ?_
      exact congrArg Shape.record hfields
  | foreign kind => exact absurd h Bool.false_ne_true
  | _ =>
    refine lockstep_of_leafKind? ?_ room
    exact h

end Value

/-- Of two lists of values that agree in kinds and keys, and of which inference finds shapes, both
take as many merges, and both shapes are written alike. -/
theorem write_eq_of_sameKind {vs ws : List Value}
    (h : List.Forall₂ (fun v w => v.sameKind w = true) vs ws) {merges reached before after : Nat}
    {s t : Shape} (hvs : (inferMany vs).on merges = (.ok s, reached))
    (hws : (inferMany ws).on before = (.ok t, after)) :
    (∃ n, reached = merges + n ∧ after = before + n) ∧
      ∀ (sp : Zig.Spelling) name, Zig.write sp name s = Zig.write sp name t := by
  have hsteps := h.imp fun _ _ hsame => Value.lockstep_infer hsame Value.nestingRoom
  obtain ⟨hskeleton, hmerges⟩ :=
    Value.lockstep_inferOnto hsteps (s := .unknown) (t := .unknown) rfl hvs hws
  exact ⟨hmerges, Zig.write_eq_of_skeleton_eq hskeleton⟩

/-- Two records with an integer too wide for 64 bits, and a field of two kinds. -/
def measuredRows : List Value :=
  [.dict [(.text "id", .int 1), (.text "tags", .list [.text "a", .null])],
    .dict [(.text "id", .text "2"), (.text "size", .int 9223372036854775808)]]

/-- Two records with other numbers and texts in the same places. -/
def remeasuredRows : List Value :=
  [.dict [(.text "id", .int (-7)), (.text "tags", .list [.int 10000000000000000000, .null])],
    .dict [(.text "id", .text ""), (.text "size", .text "large")]]

theorem write_eq_of_sameKind_measuredRows :
    List.Forall₂ (fun v w => v.sameKind w = true) measuredRows remeasuredRows ∧
      ∃ s t reached after, (inferMany measuredRows).on 0 = (.ok s, reached) ∧
        (inferMany remeasuredRows).on 7 = (.ok t, after) ∧
          (∃ n, reached = 0 + n ∧ after = 7 + n) ∧
            ∀ (sp : Zig.Spelling) name, Zig.write sp name s = Zig.write sp name t := by
  have hsame : List.Forall₂ (fun v w => v.sameKind w = true) measuredRows remeasuredRows :=
    Value.itemsSameKind_iff.mp (by decide)
  have hlimits : ∀ v ∈ measuredRows ++ remeasuredRows, v.InLimits Value.nestingRoom := by
    intro v hv
    exact ⟨(by decide : ∀ v ∈ measuredRows ++ remeasuredRows, v.isJson = true) v hv,
      (by decide : ∀ v ∈ measuredRows ++ remeasuredRows, v.depth ≤ Value.nestingRoom) v hv,
      (by decide +kernel : ∀ v ∈ measuredRows ++ remeasuredRows, v.isWritable = true) v hv⟩
  rw [List.forall_mem_append] at hlimits
  obtain ⟨reached, hvs⟩ := on_inferMany_of_inLimits hlimits.1 0
  obtain ⟨after, hws⟩ := on_inferMany_of_inLimits hlimits.2 7
  exact ⟨hsame, _, _, reached, after, hvs, hws, write_eq_of_sameKind hsame hvs hws⟩

end JsonShape
