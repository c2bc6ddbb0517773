import JsonShape.FileTree
import Mathlib.Tactic.SplitIfs

/-!
A file written anew. What is found at every other location stays as it is, and since no directory
changes, the path leads to the same location afterwards, where it finds what was written.
-/

set_option autoImplicit false

namespace JsonShape.FileTree

theorem find?_map_put (nodes : List (Location × Node)) (location l : Location)
    (bytes : List UInt8) :
    (nodes.map fun (p, node) => if p = location then (p, Node.file bytes) else (p, node)).find?
        (·.1 == l) =
      (nodes.find? (·.1 == l)).map fun (p, node) =>
        (p, if l = location then .file bytes else node) := by
  induction nodes with
  | nil => rfl
  | cons n rest ih =>
    obtain ⟨p, node⟩ := n
    by_cases hp : p = l
    · subst hp
      by_cases hl : p = location
      · simp [hl]
      · simp [hl]
    · have hskip : (p == l) = false := by simpa using hp
      by_cases hl : p = location
      · simpa [hl, hl ▸ hskip] using ih
      · simpa [hl, hskip] using ih

section Put

variable (t : FileTree) {location : Location} (bytes : List UInt8)

theorem node?_put_of_base (h : location.isBase = false) {l : Location} (hl : l.isBase = true) :
    (t.put location bytes).node? l = t.node? l ∧ l ≠ location := by
  constructor
  · simp [node?, hl]
  · rintro rfl
    exact Bool.false_ne_true (h.symm.trans hl)

/-- After a file is put at a location, it is found there, and elsewhere what was there before. -/
theorem node?_put (h : location.isBase = false) (l : Location) :
    (t.put location bytes).node? l = if l = location then some (.file bytes) else t.node? l := by
  by_cases hbase : l.isBase = true
  · obtain ⟨hsame, hne⟩ := node?_put_of_base t bytes h hbase
    rw [hsame, if_neg hne]
  · simp only [node?, hbase, put, Bool.false_eq_true, if_false]
    by_cases hany : t.nodes.any (·.1 == location) = true
    · rw [if_pos hany]
      simp only [find?_map_put, Option.map_map]
      by_cases hl : l = location
      · subst hl
        obtain ⟨n, hn⟩ := Option.isSome_iff_exists.mp
          ((List.find?_isSome (p := fun n : Location × Node => n.1 == l)).mpr
            (List.any_eq_true.mp hany))
        simp [hn]
      · simp only [if_neg hl]
        rfl
    · rw [if_neg hany]
      by_cases hl : l = location
      · subst hl
        have hnone : t.nodes.find? (·.1 == l) = none :=
          List.find?_eq_none.mpr fun n hn hfound => hany (List.any_eq_true.mpr ⟨n, hn, hfound⟩)
        simp [List.find?_append, hnone]
      · have hskip : (location == l) = false := by simpa using Ne.symm hl
        simp [List.find?_append, hl, hskip]

theorem isBase_eq_false_of_node?_ne (h : t.node? location ≠ some .directory) :
    location.isBase = false := by
  cases hbase : location.isBase with
  | false => rfl
  | true => exact absurd (by simp [node?, hbase]) h

/-- Directories stay directories when a file is put where none of them is. -/
theorem node?_put_directory (h : t.node? location ≠ some .directory) {l : Location}
    (hl : t.node? l = some .directory) : (t.put location bytes).node? l = some .directory := by
  rw [node?_put t bytes (isBase_eq_false_of_node?_ne t h), if_neg, hl]
  rintro rfl
  exact h hl

end Put

/-! ### The way to a location -/

section Way

variable {t after : FileTree}
  (h : ∀ l, t.node? l = some .directory → after.node? l = some .directory)
include h

theorem step_of_directories {l reached : Location} {name : FileName}
    (hstep : t.step l name = .ok reached) : after.step l name = .ok reached := by
  unfold step at hstep ⊢
  cases hl : t.node? l with
  | none => simp [hl] at hstep
  | some node =>
    cases node with
    | directory =>
      rw [h l hl]
      simpa [hl] using hstep
    | _ => simp [hl] at hstep

theorem foldlM_step_of_directories {names : List FileName} {l reached : Location}
    (hway : names.foldlM t.step l = .ok reached) : names.foldlM after.step l = .ok reached := by
  induction names generalizing l with
  | nil => exact hway
  | cons name rest ih =>
    rw [List.foldlM_cons] at hway ⊢
    cases hstep : t.step l name with
    | error fault => simp [hstep, bind, Except.bind] at hway
    | ok next =>
      rw [step_of_directories h hstep]
      rw [hstep] at hway
      exact ih hway

/-- A path leads where it led as long as the directories on its way are there. -/
theorem resolve_of_directories {p : Path} {reached : Location} (hway : t.resolve p = .ok reached) :
    after.resolve p = .ok reached := by
  unfold resolve at hway ⊢
  cases hbytes : p.loose.bytes? with
  | error stray => simp [hbytes] at hway
  | ok bytes =>
    simp only [hbytes] at hway ⊢
    split_ifs at hway ⊢
    all_goals exact foldlM_step_of_directories h hway

end Way

/-! ### Writing -/

/-- One tree is another after the file of a path is written: the path leads to that file, which
has the content, and nothing else has changed. -/
structure Written (t after : FileTree) (p : Path) (bytes : List UInt8) : Prop where
  exists_only : ∃ location, after.resolve p = .ok location ∧
    after.node? location = some (.file bytes) ∧ ∀ l ≠ location, after.node? l = t.node? l
  read : after.read p = .ok bytes

theorem write_eq_ok {t after : FileTree} {p : Path} {bytes : List UInt8}
    (h : t.write p bytes = .ok after) :
    ∃ location, t.resolve p = .ok location ∧ t.node? location ≠ some .directory ∧
      after = t.put location bytes := by
  cases hway : t.resolve p with
  | error fault => simp [write, hway, bind, Except.bind] at h
  | ok location =>
    simp only [write, hway, bind, Except.bind] at h
    split at h
    · cases h
    · cases h
    · cases h
    · next hfree _ _ => exact ⟨location, rfl, hfree, (Except.ok.inj h).symm⟩

/-- A tree in which a file is written differs from the old one in the content of that file. -/
theorem written_of_write {t after : FileTree} {p : Path} {bytes : List UInt8}
    (h : t.write p bytes = .ok after) : t.Written after p bytes := by
  obtain ⟨location, hway, hfree, rfl⟩ := write_eq_ok h
  have hbase := isBase_eq_false_of_node?_ne t hfree
  have hreached : (t.put location bytes).resolve p = .ok location :=
    resolve_of_directories (fun l hl => node?_put_directory t bytes hfree hl) hway
  have hnode : (t.put location bytes).node? location = some (.file bytes) := by
    rw [node?_put t bytes hbase, if_pos rfl]
  refine ⟨⟨location, hreached, hnode, fun l hl => ?_⟩, ?_⟩
  · rw [node?_put t bytes hbase, if_neg hl]
  · simp [read, find, hreached, hnode, bind, Except.bind, pure, Except.pure]

end JsonShape.FileTree
