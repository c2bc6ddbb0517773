import JsonShape.Entries
import Mathlib.Data.List.Induction
import Mathlib.Data.List.Nodup

/-!
Entries under distinct names. Of some entries, those that are kept have distinct names, the same
ones as all of them, and every one that is kept was there.
-/

set_option autoImplicit false

namespace JsonShape.Entries

variable {α : Type}

theorem names_put (entries : List (String × α)) (name : String) (a : α) :
    (put entries name a).map Prod.fst =
      if name ∈ entries.map Prod.fst then entries.map Prod.fst
      else entries.map Prod.fst ++ [name] := by
  induction entries with
  | nil => rfl
  | cons e rest ih =>
    simp only [put]
    by_cases hname : e.1 = name
    · simp [hname]
    · rw [if_neg hname, List.map_cons, ih]
      simp only [List.map_cons, List.mem_cons, Ne.symm hname, false_or]
      split_ifs
      · rfl
      · rfl

theorem mem_of_mem_put {entries : List (String × α)} {name : String} {a : α} {e : String × α}
    (h : e ∈ put entries name a) : e ∈ entries ∨ e = (name, a) := by
  induction entries with
  | nil => exact .inr (List.mem_singleton.mp h)
  | cons d rest ih =>
    simp only [put] at h
    split_ifs at h with hname
    · rcases List.mem_cons.mp h with rfl | h
      · exact .inr (by rw [hname])
      · exact .inl (List.mem_cons_of_mem d h)
    · rcases List.mem_cons.mp h with rfl | h
      · exact .inl List.mem_cons_self
      · exact (ih h).imp_left (List.mem_cons_of_mem d)

theorem ofList_concat (entries : List (String × α)) (name : String) (a : α) :
    ofList (entries ++ [(name, a)]) = put (ofList entries) name a := by
  simp only [ofList, List.foldl_append, List.foldl_cons, List.foldl_nil]

theorem nodup_names_ofList (entries : List (String × α)) :
    ((ofList entries).map Prod.fst).Nodup := by
  induction entries using List.reverseRecOn with
  | nil => exact List.nodup_nil
  | append_singleton entries e ih =>
    rw [ofList_concat, names_put]
    split_ifs with hname
    · exact ih
    · exact ih.append (List.nodup_singleton _) (List.disjoint_singleton.mpr hname)

theorem mem_of_mem_ofList {entries : List (String × α)} {e : String × α}
    (h : e ∈ ofList entries) : e ∈ entries := by
  induction entries using List.reverseRecOn with
  | nil => exact h
  | append_singleton entries d ih =>
    rw [ofList_concat] at h
    rcases mem_of_mem_put h with h | rfl
    · exact List.mem_append_left _ (ih h)
    · exact List.mem_append_right _ List.mem_cons_self

theorem mem_names_ofList {entries : List (String × α)} {name : String} :
    name ∈ (ofList entries).map Prod.fst ↔ name ∈ entries.map Prod.fst := by
  induction entries using List.reverseRecOn with
  | nil => exact Iff.rfl
  | append_singleton entries d ih =>
    rw [ofList_concat, names_put, List.map_append, List.mem_append, ← ih]
    split_ifs with hkept
    · exact ⟨.inl, fun h => h.elim id fun hd => List.mem_singleton.mp hd ▸ hkept⟩
    · exact List.mem_append

theorem put_of_not_mem {entries : List (String × α)} {name : String}
    (h : name ∉ entries.map Prod.fst) (a : α) : put entries name a = entries ++ [(name, a)] := by
  induction entries with
  | nil => rfl
  | cons e rest ih =>
    rw [List.map_cons, List.mem_cons, not_or] at h
    rw [put, if_neg (Ne.symm h.1), ih h.2, List.cons_append]

/-- Entries under distinct names are all kept. -/
theorem ofList_of_nodup {entries : List (String × α)} (h : (entries.map Prod.fst).Nodup) :
    ofList entries = entries := by
  induction entries using List.reverseRecOn with
  | nil => rfl
  | append_singleton entries e ih =>
    rw [List.map_append, List.nodup_append] at h
    obtain ⟨hentries, -, hapart⟩ := h
    have hname : e.1 ∉ entries.map Prod.fst := fun hmem =>
      hapart e.1 hmem e.1 (List.mem_singleton_self _) rfl
    rw [ofList_concat, ih hentries, put_of_not_mem hname]

end JsonShape.Entries
