import JsonShape.Proofs.Inference.Limits

/-!
What the room for nesting has to do with a run of inference. A run that succeeds has had values
within the limits, and more room leaves it as it is, with its count. A run on values that are
within the limits but for their depth is given up for depth. So success depends on each value
alone, and not on the values merged with it.
-/

set_option autoImplicit false

namespace JsonShape

open Tally

namespace Value

/-- A JSON value of which inference finds a shape is within the limits. -/
theorem Succeeds.inLimits {room : Nat} {v : Value} (h : v.Succeeds room)
    (hv : v.isJson = true) : v.InLimits room := by
  induction v using nodeInduction generalizing room with
  | int n =>
    obtain ⟨merges, s, reached, h⟩ := h
    refine ⟨hv, Nat.zero_le _, ?_⟩
    simp only [isWritable, everywhere, isWritableNode, Bool.or_eq_true, decide_eq_true_eq]
    by_cases hfits : fitsInt64 n = true
    · exact .inl hfits
    · simp only [infer, if_neg hfits] at h
      obtain ⟨digits, _, hdigits, -⟩ := on_bind_eq_ok h
      by_cases hshort : n.natAbs < 10 ^ digitLimit
      · exact .inr hshort
      · rw [intText_of_le (Nat.not_lt.mp hshort)] at hdigits
        simp at hdigits
  | list items ih =>
    obtain ⟨room, rfl, hitems⟩ := h.items
    exact InLimits.list fun v hmem => ih v hmem (hitems v hmem) (isJson_list_iff.mp hv v hmem)
  | dict entries ih =>
    obtain ⟨room, rfl, hentries⟩ := h.entries
    refine InLimits.dict hv fun e he => ih e he (hentries e he) ?_
    exact (isJson_dict_iff.mp hv).2 e he
  | illFormedText _ | foreign _ => exact absurd hv Bool.false_ne_true
  | _ => exact ⟨hv, Nat.zero_le _, rfl⟩

/-- A value with distinct text keys of which inference finds a shape is a JSON value: no leaf of it
is of a kind without a shape. -/
theorem Succeeds.isJson {room : Nat} {v : Value} (h : v.Succeeds room)
    (hkeys : v.isKeyed = true) : v.isJson = true := by
  induction v using nodeInduction generalizing room with
  | decimal d =>
    obtain ⟨merges, s, reached, h⟩ := h
    cases d with
    | signalingNaN => simp [infer, Decimal.toBinary64?] at h
    | _ => rfl
  | list items ih =>
    obtain ⟨room, rfl, hitems⟩ := h.items
    refine isJson_list_iff.mpr fun v hmem => ih v hmem (hitems v hmem) ?_
    exact isKeyed_list_iff.mp hkeys v hmem
  | dict entries ih =>
    obtain ⟨room, rfl, hentries⟩ := h.entries
    obtain ⟨htext, hvalues⟩ := isKeyed_dict_iff.mp hkeys
    exact isJson_dict_iff.mpr ⟨htext, fun e he => ih e he (hentries e he) (hvalues e he)⟩
  | illFormedText _ | foreign _ =>
    obtain ⟨merges, s, reached, h⟩ := h
    simp [infer] at h
  | _ => rfl

end Value

/-- Values around which inference finds a shape are within its limits. -/
theorem inLimits_of_on_inferMany {vs : List Value} (hvs : ∀ v ∈ vs, v.isJson = true) {s : Shape}
    {merges reached : Nat} (h : (inferMany vs).on merges = (.ok s, reached)) :
    ∀ v ∈ vs, v.InLimits Value.nestingRoom :=
  fun v hv => (Value.succeeds_of_on_inferOnto h v hv).inLimits (hvs v hv)

namespace Value

/-- More room leaves a successful run of inference as it is. -/
def KeepsRun (v : Value) : Prop :=
  ∀ {room larger merges reached : Nat} {s : Shape}, room ≤ larger →
    (v.infer room).on merges = (.ok s, reached) → (v.infer larger).on merges = (.ok s, reached)

theorem on_inferOnto_of_le {vs : List Value} (hvs : ∀ v ∈ vs, v.KeepsRun)
    {room larger merges reached : Nat} {s t : Shape} (hle : room ≤ larger)
    (h : (inferOnto room s vs).on merges = (.ok t, reached)) :
    (inferOnto larger s vs).on merges = (.ok t, reached) := by
  induction vs generalizing s merges with
  | nil => exact h
  | cons v rest ih =>
    obtain ⟨hv, hrest⟩ := List.forall_mem_cons.mp hvs
    simp only [inferOnto] at h ⊢
    obtain ⟨next, inferred, hnext, h⟩ := on_bind_eq_ok h
    obtain ⟨merged, unified, hmerged, h⟩ := on_bind_eq_ok h
    simp only [on_bind, hv hle hnext, hmerged, ih hrest h]

theorem on_inferFields_of_le {entries : List (Key × Value)} (hentries : ∀ e ∈ entries, e.2.KeepsRun)
    {room larger merges reached : Nat} {fields : List Field} (hle : room ≤ larger)
    (h : (inferFields room entries).on merges = (.ok fields, reached)) :
    (inferFields larger entries).on merges = (.ok fields, reached) := by
  induction entries generalizing fields merges reached with
  | nil => exact h
  | cons e rest ih =>
    obtain ⟨he, hrest⟩ := List.forall_mem_cons.mp hentries
    simp only [inferFields] at h ⊢
    obtain ⟨name, labelled, hname, h⟩ := on_bind_eq_ok h
    obtain ⟨s, inferred, hs, h⟩ := on_bind_eq_ok h
    obtain ⟨others, after, hothers, h⟩ := on_bind_eq_ok h
    simp only [on_bind, hname, he hle hs, ih hrest hothers, h]

theorem keepsRun (v : Value) : v.KeepsRun := by
  induction v using nodeInduction with
  | list items ih =>
    intro room larger merges reached s hle h
    obtain _ | room := room
    · simp [infer] at h
    obtain _ | larger := larger
    · exact absurd hle (Nat.not_succ_le_zero room)
    simp only [infer] at h ⊢
    obtain ⟨item, inferred, hitem, h⟩ := on_bind_eq_ok h
    simp only [on_bind, on_inferOnto_of_le ih (Nat.le_of_succ_le_succ hle) hitem, h]
  | dict entries ih =>
    intro room larger merges reached s hle h
    obtain _ | room := room
    · simp [infer] at h
    obtain _ | larger := larger
    · exact absurd hle (Nat.not_succ_le_zero room)
    simp only [infer] at h ⊢
    obtain ⟨fields, inferred, hfields, h⟩ := on_bind_eq_ok h
    simp only [on_bind, on_inferFields_of_le ih (Nat.le_of_succ_le_succ hle) hfields, h]
  | _ =>
    intro room larger merges reached s _ h
    simpa only [infer] using h

end Value

/-- Inference finds the shape around JSON values whose integers can be written, or one of them is
too deep. -/
theorem on_inferMany_of_isWritable {vs : List Value} (hjson : ∀ v ∈ vs, v.isJson = true)
    (hwritable : ∀ v ∈ vs, v.isWritable = true) (merges : Nat) :
    (∀ v ∈ vs, v.InLimits Value.nestingRoom) ∨
      (∃ v ∈ vs, Value.nestingRoom < v.depth) ∧
        ∃ reached, (inferMany vs).on merges = (.error .tooDeep, reached) := by
  obtain ⟨reached, hrun⟩ := Value.exists_on_inferOnto le_rfl vs (Shape.fitsLevels_unknown _) merges
  rw [findSome?_congr fun v hv => Value.fault?_of_isJson le_rfl (hjson v hv) (hwritable v hv),
    findSome?_ite] at hrun
  by_cases hall : ∀ v ∈ vs, v.depth ≤ Value.nestingRoom
  · exact .inl fun v hv => ⟨hjson v hv, hall v hv, hwritable v hv⟩
  · rw [if_neg hall] at hrun
    push Not at hall
    exact .inr ⟨hall, reached, hrun⟩

end JsonShape
