import JsonShape.Text.Loose
import Mathlib.Data.List.Basic

/-!
Loose text without halves is plain text, and no other text can be written in UTF-8.
-/

set_option autoImplicit false

namespace JsonShape.Loose

@[simp] theorem ofString_ofList (cs : List Char) : ofString (.ofList cs) = cs.map .char := by
  rw [ofString, String.toList_ofList]

theorem ofString_injective {s t : String} (h : ofString s = ofString t) : s = t :=
  String.toList_inj.mp (List.map_injective_iff.mpr (fun _ _ => Glyph.char.inj) h)

theorem strayFrom_ofString (isFree : Fin 0x800 → Bool) (position : Nat) (s : String) :
    (ofString s).strayFrom isFree position = none := by
  rw [ofString]
  generalize s.toList = cs
  induction cs generalizing position with
  | nil => rfl
  | cons c rest ih => exact ih (position + 1)

@[simp] theorem plain?_ofString (s : String) : (ofString s).plain? = .ok s := by
  have hchars : (s.toList.map Glyph.char).filterMap Glyph.char? = s.toList := by
    rw [List.filterMap_map]
    exact List.filterMap_some
  rw [plain?, strayFrom_ofString, ofString, hchars, String.ofList_toList]

/-- Where no half is free, a text without stray halves has none. -/
theorem eq_map_of_strayFrom_eq_none {t : Loose} {position : Nat}
    (h : t.strayFrom (fun _ => false) position = none) :
    t = (t.filterMap Glyph.char?).map .char := by
  induction t generalizing position with
  | nil => rfl
  | cons g rest ih =>
    cases g with
    | char c => exact congrArg (Glyph.char c :: ·) (ih h)
    | half n => cases h

/-- A text that can be written in UTF-8 has no halves. -/
theorem eq_ofString_of_plain? {t : Loose} {s : String} (h : t.plain? = .ok s) : t = ofString s := by
  rw [plain?] at h
  split at h
  · cases h
  · next hnone =>
    cases h
    rw [ofString_ofList]
    exact eq_map_of_strayFrom_eq_none hnone

/-- A loose text has no halves. -/
def IsPlain (t : Loose) : Prop := ∃ s : String, t = .ofString s

theorem IsPlain.suffix {t rest : Loose} (h : t.IsPlain) (hsuffix : rest <:+ t) :
    rest.IsPlain := by
  obtain ⟨s, rfl⟩ := h
  obtain ⟨front, hfront⟩ := hsuffix
  obtain ⟨-, chars, -, rfl, rfl⟩ := List.append_eq_map_iff.mp hfront
  exact ⟨.ofList chars, (ofString_ofList chars).symm⟩

theorem exists_map_of_isPlain {value : Option Loose} (h : ∀ t ∈ value, t.IsPlain) :
    ∃ plain : Option String, value = plain.map ofString := by
  cases value with
  | none => exact ⟨none, rfl⟩
  | some t =>
    obtain ⟨s, rfl⟩ := h t rfl
    exact ⟨some s, rfl⟩

end JsonShape.Loose
