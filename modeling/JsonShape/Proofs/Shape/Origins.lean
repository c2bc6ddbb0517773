import JsonShape.Proofs.Shape.Fields
import Mathlib.Data.List.Forall2
import Mathlib.Data.List.Indexes

/-!
Where the fields of the merge of two records come from, whatever names repeat. A field of the left
record and one of the right are matched when each is the first of its name. The merge has a field
for each pair of these and one for every other field; the fields of the left record keep their
order, and each other field of the right one follows its nearest matched predecessor, or stands at
the end if it has none.
-/

set_option autoImplicit false

namespace JsonShape

/-- The field at a place of a list is the first of its name. -/
def IsFirst (row : List Field) (i : Nat) (name : String) : Prop :=
  (row.map Prod.fst)[i]? = some name ∧ name ∉ (row.map Prod.fst).take i

/-- The fields at two places of two lists are matched: each is the first of one name. -/
def Matched (fields others : List Field) (i j : Nat) : Prop :=
  ∃ name, IsFirst fields i name ∧ IsFirst others j name

theorem IsFirst.name_mem {row : List Field} {i : Nat} {name : String} (h : IsFirst row i name) :
    name ∈ row.map Prod.fst :=
  List.mem_of_getElem? h.1

theorem isFirst_of_append {pre : List Field} {f : Field} (h : f.1 ∉ pre.map Prod.fst)
    (rest : List Field) :
    IsFirst (pre ++ f :: rest) pre.length f.1 := by
  refine ⟨by simp, ?_⟩
  rwa [List.map_append, List.take_left' (List.length_map _)]

theorem exists_isFirst {row : List Field} {name : String} (h : name ∈ row.map Prod.fst) :
    ∃ i, IsFirst row i name := by
  induction row with
  | nil => simp at h
  | cons f rest ih =>
    by_cases hname : f.1 = name
    · exact ⟨0, by simp [hname], by simp⟩
    · obtain ⟨i, hi, hfresh⟩ := ih (by simpa [Ne.symm hname] using h)
      exact ⟨i + 1, by simpa using hi, by simpa [Ne.symm hname] using hfresh⟩

theorem Matched.swap {fields others : List Field} {i j : Nat} (h : Matched fields others i j) :
    Matched others fields j i := by
  obtain ⟨name, hi, hj⟩ := h
  exact ⟨name, hj, hi⟩

theorem matched_swap_iff {fields others : List Field} {i j : Nat} :
    Matched fields others i j ↔ Matched others fields j i :=
  ⟨Matched.swap, Matched.swap⟩

/-- Where a field of the merge of two records comes from: from places in both, or in one. -/
inductive Origin
  | both (i j : Nat)
  | left (i : Nat)
  | right (j : Nat)
  deriving DecidableEq

namespace Origin

/-- The place in the left record. -/
def left? : Origin → Option Nat
  | both i _ | left i => some i
  | right _ => none

/-- The place in the right record. -/
def right? : Origin → Option Nat
  | both _ j | right j => some j
  | left _ => none

/-- The places in both records. -/
def both? : Origin → Option (Nat × Nat)
  | both i j => some (i, j)
  | left _ | right _ => none

/-- The same origin with the two records exchanged. -/
def swap : Origin → Origin
  | both i j => both j i
  | left i => right i
  | right j => left j

@[simp] theorem swap_swap (o : Origin) : o.swap.swap = o := by
  cases o <;> rfl

end Origin

/-- A field of the merge of two records has an origin: it is the merge of two fields of one name,
or it is a field of one record, made optional. -/
inductive Stems (fields others : List Field) : Origin → Field → Prop
  | both {i j : Nat} {f g : Field} (hf : fields[i]? = some f) (hg : others[j]? = some g)
      (hname : g.1 = f.1) : Stems fields others (.both i j) (f.1, f.2.merge g.2)
  | left {i : Nat} {f : Field} (hf : fields[i]? = some f) :
      Stems fields others (.left i) f.makeOptional
  | right {j : Nat} {g : Field} (hg : others[j]? = some g) :
      Stems fields others (.right j) g.makeOptional

/-- A list of origins takes each field of two records once. It pairs the matched fields and no
others, and keeps the order of the left record. -/
structure Interleaves (fields others : List Field) (origins : List Origin) : Prop where
  lefts : origins.filterMap Origin.left? = List.range fields.length
  rights : (origins.filterMap Origin.right?).Perm (List.range others.length)
  mem_both : ∀ i j, .both i j ∈ origins ↔ Matched fields others i j

namespace Interleaves

variable {fields others : List Field} {origins : List Origin}

private theorem eq_of_mem_of_nodup {α β : Type} {p : α → Option β} {l : List α} {a b : α} {c : β}
    (h : (l.filterMap p).Nodup) (ha : a ∈ l) (hb : b ∈ l) (hac : p a = some c)
    (hbc : p b = some c) : a = b := by
  induction l with
  | nil => simp at ha
  | cons d rest ih =>
    have hmem {e : α} (he : e ∈ rest) (hec : p e = some c) : c ∈ rest.filterMap p :=
      List.mem_filterMap.mpr ⟨e, he, hec⟩
    cases hd : p d with
    | none =>
      rw [List.filterMap_cons_none hd] at h
      have hne {e : α} (hec : p e = some c) : e ≠ d := by
        rintro rfl
        simp [hd] at hec
      exact ih h ((List.mem_cons.mp ha).resolve_left (hne hac))
        ((List.mem_cons.mp hb).resolve_left (hne hbc))
    | some d' =>
      rw [List.filterMap_cons_some hd] at h
      obtain ⟨hfresh, hrest⟩ := List.nodup_cons.mp h
      have hhead {e : α} (hde : p d = some c) (he : e ∈ rest) (hec : p e = some c) : False := by
        obtain rfl : d' = c := Option.some.inj (hd.symm.trans hde)
        exact hfresh (hmem he hec)
      rcases List.mem_cons.mp ha with had | ha' <;> rcases List.mem_cons.mp hb with hbd | hb'
      · exact had.trans hbd.symm
      · exact (hhead (had ▸ hac) hb' hbc).elim
      · exact (hhead (hbd ▸ hbc) ha' hac).elim
      · exact ih hrest ha' hb'

theorem nodup_lefts (h : Interleaves fields others origins) :
    (origins.filterMap Origin.left?).Nodup :=
  h.lefts ▸ List.nodup_range

theorem nodup_rights (h : Interleaves fields others origins) :
    (origins.filterMap Origin.right?).Nodup :=
  h.rights.nodup_iff.mpr List.nodup_range

theorem mem_left (h : Interleaves fields others origins) (i : Nat) :
    .left i ∈ origins ↔ i < fields.length ∧ ∀ j, ¬ Matched fields others i j := by
  have hplace : i < fields.length ↔ ∃ o ∈ origins, o.left? = some i := by
    rw [← List.mem_range, ← h.lefts, List.mem_filterMap]
  constructor
  · intro hmem
    refine ⟨hplace.mpr ⟨_, hmem, rfl⟩, fun j hmatched => ?_⟩
    have hboth := (h.mem_both i j).mpr hmatched
    exact Origin.noConfusion (eq_of_mem_of_nodup h.nodup_lefts hmem hboth rfl rfl)
  · rintro ⟨hlt, hnot⟩
    obtain ⟨o, ho, hleft⟩ := hplace.mp hlt
    cases o with
    | both i' j =>
      obtain rfl : i' = i := Option.some.inj hleft
      exact absurd ((h.mem_both i' j).mp ho) (hnot j)
    | left i' =>
      obtain rfl : i' = i := Option.some.inj hleft
      exact ho
    | right j => cases hleft

theorem mem_right (h : Interleaves fields others origins) (j : Nat) :
    .right j ∈ origins ↔ j < others.length ∧ ∀ i, ¬ Matched fields others i j := by
  have hplace : j < others.length ↔ ∃ o ∈ origins, o.right? = some j := by
    rw [← List.mem_range, ← h.rights.mem_iff, List.mem_filterMap]
  constructor
  · intro hmem
    refine ⟨hplace.mpr ⟨_, hmem, rfl⟩, fun i hmatched => ?_⟩
    have hboth := (h.mem_both i j).mpr hmatched
    exact Origin.noConfusion (eq_of_mem_of_nodup h.nodup_rights hmem hboth rfl rfl)
  · rintro ⟨hlt, hnot⟩
    obtain ⟨o, ho, hright⟩ := hplace.mp hlt
    cases o with
    | both i j' =>
      obtain rfl : j' = j := Option.some.inj hright
      exact absurd ((h.mem_both i j').mp ho) (hnot i)
    | right j' =>
      obtain rfl : j' = j := Option.some.inj hright
      exact ho
    | left i => cases hright

private theorem nodup_of_places {origins : List Origin}
    (hlefts : (origins.filterMap Origin.left?).Nodup)
    (hrights : (origins.filterMap Origin.right?).Nodup) : origins.Nodup := by
  induction origins with
  | nil => exact List.nodup_nil
  | cons o rest ih =>
    have hfresh {p : Origin → Option Nat} {i : Nat} (ho : p o = some i)
        (h : ((o :: rest).filterMap p).Nodup) : o ∉ rest := by
      rw [List.filterMap_cons_some ho] at h
      exact fun hmem => (List.nodup_cons.mp h).1 (List.mem_filterMap.mpr ⟨o, hmem, ho⟩)
    have hrest {p : Origin → Option Nat} (h : ((o :: rest).filterMap p).Nodup) :
        (rest.filterMap p).Nodup :=
      h.sublist ((List.sublist_cons_self o rest).filterMap p)
    refine List.nodup_cons.mpr ⟨?_, ih (hrest hlefts) (hrest hrights)⟩
    cases o with
    | both i j => exact hfresh rfl hlefts
    | left i => exact hfresh rfl hlefts
    | right j => exact hfresh rfl hrights

theorem nodup (h : Interleaves fields others origins) : origins.Nodup :=
  nodup_of_places h.nodup_lefts h.nodup_rights

/-- Two records have the same origins in either order of the two, each with its places exchanged. -/
theorem perm_swap (h : Interleaves fields others origins) {origins' : List Origin}
    (h' : Interleaves others fields origins') : (origins.map Origin.swap).Perm origins' := by
  have hinj : Function.Injective Origin.swap := Function.LeftInverse.injective Origin.swap_swap
  refine (List.perm_ext_iff_of_nodup (h.nodup.map hinj) h'.nodup).mpr fun o => ?_
  rw [show o = o.swap.swap from (Origin.swap_swap o).symm, List.mem_map_of_injective hinj]
  cases o with
  | both i j => exact (h.mem_both j i).trans (matched_swap_iff.trans (h'.mem_both i j).symm)
  | left i =>
    refine (h.mem_right i).trans (Iff.trans ?_ (h'.mem_left i).symm)
    exact and_congr_right fun _ => forall_congr' fun j => not_congr matched_swap_iff
  | right j =>
    refine (h.mem_left j).trans (Iff.trans ?_ (h'.mem_right j).symm)
    exact and_congr_right fun _ => forall_congr' fun i => not_congr matched_swap_iff

end Interleaves

end JsonShape
