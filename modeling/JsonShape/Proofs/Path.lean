import JsonShape.FileTree
import JsonShape.Proofs.Loose
import Mathlib.Tactic.SplitIfs

/-!
Texts of paths. A text is cut into names at its slashes, so that one without slashes is a single
name. If that name is too long, looking it up fails before it is known whether anything is there.
-/

set_option autoImplicit false

namespace JsonShape

namespace Path

/-- A text without slashes is the path of one name, unless it is empty or a dot. -/
theorem ofLoose_of_not_mem {t : Loose} (h : .char '/' ∉ t) (ht : t ≠ [] ∧ t ≠ [.char '.']) :
    ofLoose t = ⟨"", [t]⟩ := by
  have hslashes : t.takeWhile (· == .char '/') = [] := by
    cases t with
    | nil => rfl
    | cons g rest =>
      have hg : ¬ (g == .char '/') = true := fun hg => h (by simp [eq_of_beq hg])
      exact List.takeWhile_cons_of_neg hg
  simp [ofLoose, hslashes, List.splitOn_eq_singleton h, ht]

theorem loose_singleton (t : Loose) : loose ⟨"", [t]⟩ = t := by
  simp [loose, Loose.ofString, List.intercalate]

end Path

namespace FileTree

/-- A name that is too long leads nowhere, not even to nothing. -/
theorem find_of_nameLimit_lt (t : FileTree) {name : Loose} {bytes : FileName}
    (hbytes : name.bytes? = .ok bytes) (hnull : 0 ∉ bytes) (h : nameLimit < bytes.length) :
    t.find ⟨"", [name]⟩ = .error .nameTooLong := by
  have hname : FileName.ofLoose name = bytes := by
    unfold Loose.bytes? at hbytes
    split at hbytes
    · cases hbytes
    · exact Except.ok.inj hbytes
  have hbase : t.node? [] = some .directory := rfl
  have hresolve : t.resolve ⟨"", [name]⟩ = .error .nameTooLong := by
    simp only [resolve, Path.loose_singleton, hbytes, if_neg hnull, if_true, List.map_cons, hname]
    split_ifs with hlong
    · rfl
    · simp only [List.foldlM_cons, step, hbase, if_pos h]
      rfl
  rw [find, hresolve]
  rfl

end FileTree

end JsonShape
