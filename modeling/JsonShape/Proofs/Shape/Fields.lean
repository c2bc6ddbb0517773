import JsonShape.Proofs.Shape.Node
import JsonShape.Shape.Merge
import Mathlib.Data.List.Find
import Mathlib.Data.List.Nodup
import Mathlib.Data.List.Perm.Basic

/-!
The fields of the merge of two records. A cut keeps every field of the list it cuts, and when names
are distinct the merge has, up to order, each field of the left record paired with the right one's
field of its name, and the fields of other names of the right record marked as optional.
-/

set_option autoImplicit false

namespace JsonShape

namespace SharedField

/-- A shared field as a plain one. -/
def toField (s : SharedField) : Field := (s.name, s.shape)

/-- Applies a function to the shapes of a shared field and of its followers. -/
def map (g : Shape → Shape) (s : SharedField) : SharedField :=
  ⟨s.name, g s.shape, s.followers.map (Prod.map id g)⟩

end SharedField

namespace CutFields

/-- A cut looks at names only. -/
theorem ofFields_map (g : Shape → Shape) (names : List String) (fields : List Field) :
    ofFields names (fields.map (Prod.map id g)) =
      ⟨(ofFields names fields).front.map (Prod.map id g),
        (ofFields names fields).shared.map (SharedField.map g)⟩ := by
  induction fields generalizing names with
  | nil => simp [ofFields]
  | cons f rest ih =>
    simp only [List.map_cons, ofFields, Prod.map_fst, id_eq, ih]
    split_ifs
    · rfl
    · rfl

theorem name_mem_of_mem_shared {names : List String} {fields : List Field} {s : SharedField}
    (h : s ∈ (ofFields names fields).shared) : s.name ∈ names := by
  induction fields generalizing names with
  | nil => simp [ofFields] at h
  | cons f rest ih =>
    simp only [ofFields] at h
    split_ifs at h with hname
    · rcases List.mem_cons.mp h with rfl | h
      · exact hname
      · exact (List.mem_filter.mp (ih h)).1
    · exact ih h

theorem toField_mem_of_mem_shared {names : List String} {fields : List Field} {s : SharedField}
    (h : s ∈ (ofFields names fields).shared) : s.toField ∈ fields := by
  induction fields generalizing names with
  | nil => simp [ofFields] at h
  | cons f rest ih =>
    simp only [ofFields] at h
    split_ifs at h with hname
    · rcases List.mem_cons.mp h with rfl | h
      · exact List.mem_cons_self
      · exact List.mem_cons_of_mem _ (ih h)
    · exact List.mem_cons_of_mem _ (ih h)

theorem mem_of_mem_front_or_followers {names : List String} {fields : List Field} {g : Field}
    (h : g ∈ (ofFields names fields).front ∨
      ∃ s ∈ (ofFields names fields).shared, g ∈ s.followers) : g ∈ fields := by
  induction fields generalizing names with
  | nil => simp [ofFields] at h
  | cons f rest ih =>
    simp only [ofFields] at h
    split_ifs at h with hname
    · rcases h with h | ⟨s, hs, h⟩
      · simp at h
      rcases List.mem_cons.mp hs with rfl | hs
      · exact List.mem_cons_of_mem _ (ih (.inl h))
      · exact List.mem_cons_of_mem _ (ih (.inr ⟨s, hs, h⟩))
    · rcases h with h | h
      · rcases List.mem_cons.mp h with rfl | h
        · exact List.mem_cons_self
        · exact List.mem_cons_of_mem _ (ih (.inl h))
      · exact List.mem_cons_of_mem _ (ih (.inr h))

theorem nodup_shared (names : List String) (fields : List Field) :
    ((ofFields names fields).shared.map SharedField.name).Nodup := by
  induction fields generalizing names with
  | nil => simp [ofFields]
  | cons f rest ih =>
    simp only [ofFields]
    split_ifs with hname
    · refine List.nodup_cons.mpr ⟨fun hmem => ?_, ih _⟩
      obtain ⟨s, hs, hsname⟩ := List.mem_map.mp hmem
      have hfilter := (List.mem_filter.mp (name_mem_of_mem_shared hs)).2
      simp [hsname] at hfilter
    · exact ih _

theorem find?_shared {names : List String} (fields : List Field) {name : String}
    (h : name ∈ names) :
    ((ofFields names fields).shared.find? (·.name == name)).map SharedField.toField =
      fields.find? (·.1 == name) := by
  induction fields generalizing names with
  | nil => simp [ofFields]
  | cons f rest ih =>
    simp only [ofFields]
    by_cases hf : f.1 = name
    · subst hf
      simp [h, SharedField.toField]
    · split_ifs with hname
      · have hkept : name ∈ names.filter (· ≠ f.1) := by
          simpa [h] using Ne.symm hf
        simpa [hf] using ih hkept
      · simpa [hf] using ih h

/-- The fields that a cut does not share are those of other names, in order. -/
theorem unshared_eq_filter {names : List String} {fields : List Field}
    (h : (fields.map Prod.fst).Nodup) :
    (ofFields names fields).front ++ (ofFields names fields).shared.flatMap SharedField.followers =
      fields.filter (·.1 ∉ names) := by
  induction fields generalizing names with
  | nil => simp [ofFields]
  | cons f rest ih =>
    obtain ⟨hfresh, hrest⟩ := List.nodup_cons.mp h
    simp only [ofFields]
    split_ifs with hname
    -- No later field has the name that is taken out of the cut.
    · have hsame : rest.filter (·.1 ∉ names.filter (· ≠ f.1)) = rest.filter (·.1 ∉ names) := by
        apply List.filter_congr
        intro g hg
        have hne : g.1 ≠ f.1 := fun heq => hfresh (heq ▸ List.mem_map_of_mem hg)
        simp [hne]
      have hunshared := @ih (names.filter (· ≠ f.1)) hrest
      rw [hsame] at hunshared
      simpa [hname] using hunshared
    · simpa [hname] using ih hrest

/-- A cut at all names leaves nothing between them. -/
theorem ofFields_of_subset {names : List String} {others : List Field}
    (hothers : (others.map Prod.fst).Nodup) (h : ∀ g ∈ others, g.1 ∈ names) :
    ofFields names others = ⟨[], others.map fun g => ⟨g.1, g.2, []⟩⟩ := by
  induction others generalizing names with
  | nil => rfl
  | cons g rest ih =>
    obtain ⟨hfresh, hrest⟩ := List.nodup_cons.mp hothers
    obtain ⟨hname, hnames⟩ := List.forall_mem_cons.mp h
    have hkept : ∀ d ∈ rest, d.1 ∈ names.filter (· ≠ g.1) := by
      intro d hd
      have hne : d.1 ≠ g.1 := fun heq => hfresh (heq ▸ List.mem_map_of_mem hd)
      simp [hnames d hd, hne]
    simp only [ofFields, if_pos hname, ih hrest hkept, List.map_cons]

end CutFields

namespace Shape

open scoped List

/-- The fields of the merge of two records. -/
def mergedFields (fields others : List Field) : List Field :=
  let cut := CutFields.ofFields (fields.map Prod.fst) others
  mergeFields fields cut.shared ++ cut.front.map Field.makeOptional

theorem makeOptional_map {g : Shape → Shape} (hmark : ∀ s, g s.makeOptional = (g s).makeOptional)
    (fields : List Field) :
    (fields.map (Prod.map id g)).map Field.makeOptional =
      (fields.map Field.makeOptional).map (Prod.map id g) := by
  rw [List.map_map, List.map_map]
  apply List.map_congr_left
  intro f _
  simp [Field.makeOptional, Prod.map, hmark]

/-- A function that commutes with marks and with the merges of fields commutes with their list. -/
theorem mergeFields_map {g : Shape → Shape} (hmark : ∀ s, g s.makeOptional = (g s).makeOptional)
    {fields : List Field} {shared : List SharedField}
    (hmerge : ∀ f ∈ fields, ∀ s ∈ shared, g (f.2.merge s.shape) = (g f.2).merge (g s.shape)) :
    mergeFields (fields.map (Prod.map id g)) (shared.map (SharedField.map g)) =
      (mergeFields fields shared).map (Prod.map id g) := by
  induction fields generalizing shared with
  | nil => simp [mergeFields]
  | cons f rest ih =>
    obtain ⟨hfirst, hrest⟩ := List.forall_mem_cons.mp hmerge
    have hfind : (shared.map (SharedField.map g)).find? (·.name == f.1) =
        (shared.find? (·.name == f.1)).map (SharedField.map g) := List.find?_map
    have hothers : (shared.map (SharedField.map g)).filter (·.name != f.1) =
        (shared.filter (·.name != f.1)).map (SharedField.map g) := List.filter_map
    simp only [List.map_cons, mergeFields, Prod.map_fst, Prod.map_snd, id_eq, hfind]
    cases hs : shared.find? (·.name == f.1) with
    | none => simp [ih hrest, hmark, Prod.map]
    | some s =>
      have hpair := hfirst s (List.mem_of_find?_eq_some hs)
      have hkept : ∀ d ∈ rest, ∀ t ∈ shared.filter (·.name != f.1),
          g (d.2.merge t.shape) = (g d.2).merge (g t.shape) :=
        fun d hd t ht => hrest d hd t (List.mem_filter.mp ht).1
      simp [SharedField.map, hothers, ih hkept, makeOptional_map hmark, hpair, Prod.map]

/-- A function that commutes with marks and with the merges of fields commutes with the merge of
two records. -/
theorem mergedFields_map {g : Shape → Shape} (hmark : ∀ s, g s.makeOptional = (g s).makeOptional)
    {fields others : List Field}
    (hmerge : ∀ f ∈ fields, ∀ h ∈ others, g (f.2.merge h.2) = (g f.2).merge (g h.2)) :
    mergedFields (fields.map (Prod.map id g)) (others.map (Prod.map id g)) =
      (mergedFields fields others).map (Prod.map id g) := by
  have hnames : (fields.map (Prod.map id g)).map Prod.fst = fields.map Prod.fst := by
    simp [List.map_map, Function.comp_def]
  simp only [mergedFields, hnames, CutFields.ofFields_map, List.map_append, makeOptional_map hmark]
  congr 1
  refine mergeFields_map hmark fun f hf s hs => ?_
  exact hmerge f hf s.toField (CutFields.toField_mem_of_mem_shared hs)

theorem names_sublist_mergeFields (fields : List Field) (shared : List SharedField) :
    (fields.map Prod.fst).Sublist ((mergeFields fields shared).map Prod.fst) := by
  induction fields generalizing shared with
  | nil => exact List.nil_sublist _
  | cons f rest ih =>
    simp only [mergeFields]
    split
    · exact (ih shared).cons_cons f.1
    · simp only [List.map_cons, List.map_append]
      exact ((ih _).trans (List.sublist_append_right _ _)).cons_cons f.1

/-- The merge of two records has the names of the left one, in their order. -/
theorem names_sublist_mergedFields (fields others : List Field) :
    (fields.map Prod.fst).Sublist ((mergedFields fields others).map Prod.fst) := by
  rw [mergedFields, List.map_append]
  exact (names_sublist_mergeFields fields _).trans (List.sublist_append_left _ _)

theorem forall_mem_mergeFields {p : Shape → Prop} {fields : List Field} {shared : List SharedField}
    (hpair : ∀ f ∈ fields, ∀ s ∈ shared, p (f.2.merge s.shape))
    (hleft : ∀ f ∈ fields, p f.2.makeOptional)
    (hright : ∀ s ∈ shared, ∀ g ∈ s.followers, p g.2.makeOptional) :
    ∀ h ∈ mergeFields fields shared, p h.2 := by
  induction fields generalizing shared with
  | nil => simp [mergeFields]
  | cons f rest ih =>
    obtain ⟨hpair, hpairs⟩ := List.forall_mem_cons.mp hpair
    obtain ⟨hmark, hmarks⟩ := List.forall_mem_cons.mp hleft
    simp only [mergeFields]
    split
    · exact List.forall_mem_cons.mpr ⟨hmark, ih hpairs hmarks hright⟩
    next s hs =>
      have hmem := List.mem_of_find?_eq_some hs
      have hkept {t : SharedField} (ht : t ∈ shared.filter (·.name != f.1)) : t ∈ shared :=
        (List.mem_filter.mp ht).1
      refine List.forall_mem_cons.mpr ⟨hpair s hmem, ?_⟩
      refine List.forall_mem_append.mpr ⟨List.forall_mem_map.mpr (hright s hmem), ?_⟩
      exact ih (fun g hg t ht => hpairs g hg t (hkept ht)) hmarks fun t ht => hright t (hkept ht)

/-- Whatever names repeat, a field of the merge of two records is a merge of two of their fields or
one of their fields made optional. -/
theorem forall_mem_mergedFields {p : Shape → Prop} {fields others : List Field}
    (hpair : ∀ f ∈ fields, ∀ g ∈ others, p (f.2.merge g.2))
    (hleft : ∀ f ∈ fields, p f.2.makeOptional) (hright : ∀ g ∈ others, p g.2.makeOptional) :
    ∀ h ∈ mergedFields fields others, p h.2 := by
  have hshared {s : SharedField}
      (hs : s ∈ (CutFields.ofFields (fields.map Prod.fst) others).shared) : s.toField ∈ others :=
    CutFields.toField_mem_of_mem_shared hs
  refine List.forall_mem_append.mpr ⟨?_, ?_⟩
  · refine forall_mem_mergeFields (fun f hf s hs => hpair f hf _ (hshared hs)) hleft ?_
    exact fun s hs g hg => hright g (CutFields.mem_of_mem_front_or_followers (.inr ⟨s, hs, hg⟩))
  · refine List.forall_mem_map.mpr fun g hg => ?_
    exact hright g (CutFields.mem_of_mem_front_or_followers (.inl hg))

/-- A field merged with the first of its name in a list, and made optional if there is none. -/
def pairedField (others : List Field) (f : Field) : Field :=
  match others.find? (·.1 == f.1) with
  | none => f.makeOptional
  | some g => (f.1, f.2.merge g.2)

theorem pairedField_congr {others others' : List Field} {f : Field}
    (h : others.find? (·.1 == f.1) = others'.find? (·.1 == f.1)) :
    pairedField others f = pairedField others' f := by
  simp only [pairedField, h]

private theorem find?_toField (shared : List SharedField) (name : String) :
    (shared.map SharedField.toField).find? (·.1 == name) =
      (shared.find? (·.name == name)).map SharedField.toField := by
  rw [List.find?_map]
  rfl

private theorem perm_cons_filter_name {shared : List SharedField} {b : SharedField}
    (h : (shared.map SharedField.name).Nodup) (hb : b ∈ shared) :
    shared.Perm (b :: shared.filter (·.name != b.name)) := by
  induction shared with
  | nil => simp at hb
  | cons s rest ih =>
    obtain ⟨hfresh, hrest⟩ := List.nodup_cons.mp h
    have hne : ∀ t ∈ rest, t.name ≠ s.name := by
      intro t ht heq
      exact hfresh (heq ▸ List.mem_map_of_mem ht)
    rcases List.mem_cons.mp hb with rfl | hb
    · have hall : rest.filter (·.name != b.name) = rest :=
        List.filter_eq_self.mpr fun t ht => by simp [hne t ht]
      simp [hall]
    · have hkept : (s.name != b.name) = true := by simpa using (hne b hb).symm
      rw [List.filter_cons_of_pos (p := fun t : SharedField => t.name != b.name) hkept]
      exact ((ih hrest hb).cons s).trans (List.Perm.swap _ _ _)

/-- Fields of other names find among the rest of the shared fields what they find among all. -/
private theorem map_pairedField_filter_name (shared : List SharedField) {name : String}
    {fields : List Field} (h : name ∉ fields.map Prod.fst) :
    fields.map (pairedField ((shared.filter (·.name != name)).map SharedField.toField)) =
      fields.map (pairedField (shared.map SharedField.toField)) := by
  refine List.map_congr_left fun g hg => pairedField_congr ?_
  have hne : g.1 ≠ name := fun heq => h (heq ▸ List.mem_map_of_mem hg)
  rw [find?_toField, find?_toField, List.find?_filter]
  congr 1
  refine List.find?_congr fun s _ => ?_
  by_cases hs : s.name = g.1
  · simp [hs, hne]
  · simp [hs]

/-- The first of some fields is paired and followed by what follows its partner; no later field is
paired with the same one. -/
theorem mergeFields_cons (f : Field) (rest : List Field) (shared : List SharedField) :
    mergeFields (f :: rest) shared = pairedField (shared.map SharedField.toField) f ::
      (((shared.find? (·.name == f.1)).elim [] SharedField.followers).map Field.makeOptional ++
        mergeFields rest (shared.filter (·.name != f.1))) := by
  simp only [mergeFields, pairedField, find?_toField]
  cases hb : shared.find? (·.name == f.1) with
  | none =>
    have hall : shared.filter (·.name != f.1) = shared :=
      List.filter_eq_self.mpr fun s hs => by simpa using List.find?_eq_none.mp hb s hs
    rw [hall]
    rfl
  | some b => rfl

/-- Where nothing follows the shared fields, fields merged with them are paired one by one. -/
theorem mergeFields_eq_map {fields : List Field} {shared : List SharedField}
    (hfields : (fields.map Prod.fst).Nodup) (hshared : ∀ s ∈ shared, s.followers = []) :
    mergeFields fields shared = fields.map (pairedField (shared.map SharedField.toField)) := by
  induction fields generalizing shared with
  | nil => rfl
  | cons f rest ih =>
    obtain ⟨hfresh, hrest⟩ := List.nodup_cons.mp hfields
    have hnone : (shared.find? (·.name == f.1)).elim [] SharedField.followers = [] := by
      cases hb : shared.find? (·.name == f.1) with
      | none => rfl
      | some b => exact hshared b (List.mem_of_find?_eq_some hb)
    have hkept : ∀ s ∈ shared.filter (·.name != f.1), s.followers = [] :=
      fun s hs => hshared s (List.mem_filter.mp hs).1
    rw [mergeFields_cons, hnone, ih hrest hkept, map_pairedField_filter_name shared hfresh]
    rfl

/-- The shared fields that find a partner, the one of the first field put in front. -/
theorem filter_mem_cons_perm {shared : List SharedField} {b : SharedField}
    (hshared : (shared.map SharedField.name).Nodup) (hb : b ∈ shared) (names : List String) :
    (shared.filter (·.name ∈ b.name :: names)).Perm
      (b :: (shared.filter (·.name != b.name)).filter (·.name ∈ names)) := by
  have hsplit := (perm_cons_filter_name hshared hb).filter (·.name ∈ b.name :: names)
  have hsame : (shared.filter (·.name != b.name)).filter (·.name ∈ b.name :: names) =
      (shared.filter (·.name != b.name)).filter (·.name ∈ names) := by
    apply List.filter_congr
    intro s hs
    have hother : s.name ≠ b.name := by simpa using (List.mem_filter.mp hs).2
    simp [hother]
  rwa [List.filter_cons_of_pos (by simp), hsame] at hsplit

/-- The merge of fields with shared ones pairs each of them, and adds the followers of the shared
fields that found a partner. -/
theorem mergeFields_perm {fields : List Field} {shared : List SharedField}
    (hfields : (fields.map Prod.fst).Nodup) (hshared : (shared.map SharedField.name).Nodup) :
    (mergeFields fields shared).Perm
      (fields.map (pairedField (shared.map SharedField.toField)) ++
        (shared.filter (·.name ∈ fields.map Prod.fst)).flatMap
          (·.followers.map Field.makeOptional)) := by
  induction fields generalizing shared with
  | nil => simp [mergeFields]
  | cons f rest ih =>
    obtain ⟨hfresh, hrest⟩ := List.nodup_cons.mp hfields
    have hfind := find?_toField shared f.1
    cases hb : shared.find? (·.name == f.1) with
    | none =>
      have hother : ∀ s ∈ shared, s.name ≠ f.1 := by simpa using List.find?_eq_none.mp hb
      have hfilter : shared.filter (·.name ∈ (f :: rest).map Prod.fst) =
          shared.filter (·.name ∈ rest.map Prod.fst) := by
        apply List.filter_congr
        intro s hs
        simp [hother s hs]
      have hpaired : pairedField (shared.map SharedField.toField) f = f.makeOptional := by
        simp [pairedField, hfind, hb]
      rw [hfilter, List.map_cons, hpaired]
      simp only [mergeFields, hb]
      exact (ih hrest hshared).cons _
    | some b =>
      have hbname : b.name = f.1 := by simpa using List.find?_some hb
      have hpaired : pairedField (shared.map SharedField.toField) f =
          (f.1, f.2.merge b.shape) := by
        simp [pairedField, hfind, hb, SharedField.toField]
      have hnames : ((shared.filter (·.name != f.1)).map SharedField.name).Nodup :=
        hshared.sublist (List.filter_sublist.map SharedField.name)
      have htail := ih hrest hnames
      rw [map_pairedField_filter_name shared hfresh] at htail
      have hperm := filter_mem_cons_perm hshared (List.mem_of_find?_eq_some hb)
        (rest.map Prod.fst)
      rw [hbname] at hperm
      have hfollowers := hperm.flatMap_right (·.followers.map Field.makeOptional)
      rw [List.flatMap_cons] at hfollowers
      simp only [mergeFields, hb, List.map_cons, hpaired, List.cons_append]
      -- The followers of the first field's partner move behind the paired fields.
      refine List.Perm.cons _ ?_
      calc
        _ ~ _ := htail.append_left _
        _ ~ _ := List.perm_append_comm_assoc _ _ _
        _ ~ _ := hfollowers.symm.append_left _

/-- The merge of two records pairs the fields of the left one and adds, as optional, the fields of
the right one that have other names. -/
theorem mergedFields_perm {fields others : List Field} (hfields : (fields.map Prod.fst).Nodup)
    (hothers : (others.map Prod.fst).Nodup) :
    (mergedFields fields others).Perm
      (fields.map (pairedField others) ++
        (others.filter (·.1 ∉ fields.map Prod.fst)).map Field.makeOptional) := by
  have hshared : (CutFields.ofFields (fields.map Prod.fst) others).shared.filter
      (·.name ∈ fields.map Prod.fst) = (CutFields.ofFields (fields.map Prod.fst) others).shared :=
    List.filter_eq_self.mpr fun s hs => by simpa using CutFields.name_mem_of_mem_shared hs
  have hpaired : ∀ f ∈ fields, pairedField
      ((CutFields.ofFields (fields.map Prod.fst) others).shared.map SharedField.toField) f =
        pairedField others f := by
    intro f hf
    apply pairedField_congr
    rw [find?_toField, CutFields.find?_shared others (List.mem_map_of_mem hf)]
  have hmerge := mergeFields_perm hfields (CutFields.nodup_shared (fields.map Prod.fst) others)
  rw [hshared, List.map_congr_left hpaired] at hmerge
  rw [← CutFields.unshared_eq_filter hothers, List.map_append, List.map_flatMap]
  calc mergedFields fields others
    _ ~ _ := hmerge.append_right _
    _ ~ _ := by rw [List.append_assoc]
    _ ~ _ := List.perm_append_comm.append_left _

theorem pairedField_of_mem {others : List Field} (hothers : (others.map Prod.fst).Nodup)
    {f g : Field} (hg : g ∈ others) (hname : g.1 = f.1) :
    pairedField others f = (f.1, f.2.merge g.2) := by
  obtain ⟨h, hh⟩ : ∃ h, others.find? (·.1 == f.1) = some h := by
    rw [← Option.isSome_iff_exists, List.find?_isSome]
    exact ⟨g, hg, by simp [hname]⟩
  have hhname : h.1 = f.1 := by simpa using List.find?_some hh
  have heq : h = g := List.inj_on_of_nodup_map hothers (List.mem_of_find?_eq_some hh) hg
    (hhname.trans hname.symm)
  simp [pairedField, hh, heq]

theorem pairedField_of_notMem {others : List Field} {f : Field}
    (h : f.1 ∉ others.map Prod.fst) : pairedField others f = f.makeOptional := by
  have hnone : others.find? (·.1 == f.1) = none := by
    refine List.find?_eq_none.mpr fun g hg => ?_
    have hne : g.1 ≠ f.1 := fun heq => h (heq ▸ List.mem_map_of_mem hg)
    simpa using hne
  simp [pairedField, hnone]

theorem name_pairedField (others : List Field) (f : Field) : (pairedField others f).1 = f.1 := by
  unfold pairedField
  split <;> rfl

/-- A record that has no names of its own adds no fields, and every field keeps its place. -/
theorem mergedFields_of_subset {fields others : List Field} (hfields : (fields.map Prod.fst).Nodup)
    (hothers : (others.map Prod.fst).Nodup) (h : ∀ g ∈ others, g.1 ∈ fields.map Prod.fst) :
    mergedFields fields others = fields.map (pairedField others) := by
  have hshared : ((others.map fun g => (⟨g.1, g.2, []⟩ : SharedField)).map SharedField.toField) =
      others := by
    rw [List.map_map]
    exact List.map_id others
  have halone : ∀ s ∈ others.map fun g => (⟨g.1, g.2, []⟩ : SharedField), s.followers = [] :=
    List.forall_mem_map.mpr fun _ _ => rfl
  rw [mergedFields, CutFields.ofFields_of_subset hothers h]
  simp only [List.map_nil, List.append_nil]
  rw [mergeFields_eq_map hfields halone, hshared]

/-- Every field of the merge of two records stems from fields of one name in both, or from one
record that has the name alone. -/
theorem mem_mergedFields {fields others : List Field} (hfields : (fields.map Prod.fst).Nodup)
    (hothers : (others.map Prod.fst).Nodup) {h : Field} :
    h ∈ mergedFields fields others ↔
      (∃ f ∈ fields, ∃ g ∈ others, g.1 = f.1 ∧ h = (f.1, f.2.merge g.2)) ∨
      (∃ f ∈ fields, f.1 ∉ others.map Prod.fst ∧ h = f.makeOptional) ∨
      (∃ g ∈ others, g.1 ∉ fields.map Prod.fst ∧ h = g.makeOptional) := by
  rw [(mergedFields_perm hfields hothers).mem_iff, List.mem_append, ← or_assoc]
  refine or_congr ?_ ?_
  · rw [List.mem_map]
    constructor
    · rintro ⟨f, hf, rfl⟩
      by_cases hname : f.1 ∈ others.map Prod.fst
      · obtain ⟨g, hg, hgname⟩ := List.mem_map.mp hname
        exact .inl ⟨f, hf, g, hg, hgname, pairedField_of_mem hothers hg hgname⟩
      · exact .inr ⟨f, hf, hname, pairedField_of_notMem hname⟩
    · rintro (⟨f, hf, g, hg, hname, rfl⟩ | ⟨f, hf, hname, rfl⟩)
      · exact ⟨f, hf, pairedField_of_mem hothers hg hname⟩
      · exact ⟨f, hf, pairedField_of_notMem hname⟩
  · simp only [List.mem_map, List.mem_filter, decide_eq_true_eq]
    constructor
    · rintro ⟨g, ⟨hg, hname⟩, rfl⟩
      exact ⟨g, hg, hname, rfl⟩
    · rintro ⟨g, hg, hname, rfl⟩
      exact ⟨g, ⟨hg, hname⟩, rfl⟩

/-- The merge of two records has the names of the left one, then those of the right one alone. -/
theorem names_mergedFields_perm {fields others : List Field} (hfields : (fields.map Prod.fst).Nodup)
    (hothers : (others.map Prod.fst).Nodup) :
    ((mergedFields fields others).map Prod.fst).Perm
      (fields.map Prod.fst ++ (others.map Prod.fst).filter (· ∉ fields.map Prod.fst)) := by
  have hperm := (mergedFields_perm hfields hothers).map Prod.fst
  have hpaired : (fields.map (pairedField others)).map Prod.fst = fields.map Prod.fst := by
    rw [List.map_map]
    exact List.map_congr_left fun f _ => name_pairedField others f
  have hmarked : ((others.filter (·.1 ∉ fields.map Prod.fst)).map Field.makeOptional).map Prod.fst =
      (others.map Prod.fst).filter (· ∉ fields.map Prod.fst) := by
    rw [List.map_map, List.filter_map]
    rfl
  rwa [List.map_append, hpaired, hmarked] at hperm

theorem mem_names_mergedFields {fields others : List Field} (hfields : (fields.map Prod.fst).Nodup)
    (hothers : (others.map Prod.fst).Nodup) {name : String} :
    name ∈ (mergedFields fields others).map Prod.fst ↔
      name ∈ fields.map Prod.fst ∨ name ∈ others.map Prod.fst := by
  rw [(names_mergedFields_perm hfields hothers).mem_iff, List.mem_append, List.mem_filter]
  by_cases hname : name ∈ fields.map Prod.fst
  · simp only [hname, true_or]
  · simp only [hname, false_or, not_false_eq_true, decide_true, and_true]

theorem nodup_mergedFields {fields others : List Field} (hfields : (fields.map Prod.fst).Nodup)
    (hothers : (others.map Prod.fst).Nodup) :
    ((mergedFields fields others).map Prod.fst).Nodup := by
  rw [(names_mergedFields_perm hfields hothers).nodup_iff]
  refine List.Nodup.append hfields (hothers.filter _) fun name hleft hright => ?_
  have hfresh := (List.mem_filter.mp hright).2
  exact of_decide_eq_true hfresh hleft

end Shape

end JsonShape
