import JsonShape.Proofs.Shape.Narrow

/-!
Runs of counting computations, one equation for each way to build one. A counted merge of two flat
shapes yields their merge, unless this takes more than the room for nesting, or an integer of more
than 64 bits is too large to widen.
-/

set_option autoImplicit false

namespace JsonShape

namespace Tally

variable {α β : Type}

@[simp] theorem on_pure (a : α) (merges : Nat) : (pure a : Tally α).on merges = (.ok a, merges) :=
  rfl

theorem on_pure_eq_ok {a b : α} {merges reached : Nat} :
    (pure a : Tally α).on merges = (.ok b, reached) ↔ a = b ∧ merges = reached := by
  simp

theorem eq_of_on_pure {a b : α} {merges reached : Nat}
    (h : (pure a : Tally α).on merges = (.ok b, reached)) : b = a :=
  (on_pure_eq_ok.mp h).1.symm

@[simp] theorem on_throw (fault : InferenceFault) (merges : Nat) :
    (throw fault : Tally α).on merges = (.error fault, merges) := rfl

@[simp] theorem on_count (n merges : Nat) : (count n).on merges = (.ok (), merges + n) := rfl

theorem on_bind (t : Tally α) (f : α → Tally β) (merges : Nat) :
    (t >>= f).on merges =
      match t.on merges with
      | (.ok a, reached) => (f a).on reached
      | (.error fault, reached) => (.error fault, reached) := by
  change (ExceptT.bindCont f (t.on merges).1) (t.on merges).2 = _
  rcases t.on merges with ⟨_ | _, _⟩ <;> rfl

/-- A computation in two parts yields a result if the first part does and the second one on it. -/
theorem on_bind_eq_ok {t : Tally α} {f : α → Tally β} {b : β} {merges reached : Nat}
    (h : (t >>= f).on merges = (.ok b, reached)) :
    ∃ a between, t.on merges = (.ok a, between) ∧ (f a).on between = (.ok b, reached) := by
  rw [on_bind] at h
  rcases ht : t.on merges with ⟨fault | a, between⟩
  · simp [ht] at h
  · exact ⟨a, between, rfl, by simpa [ht] using h⟩

theorem on_ofDocument (t : Tally α) (merges : Nat) :
    (ofDocument t).on merges =
      match t.on merges with
      | (.error .tooDeep, reached) => (.error .documentTooDeep, reached)
      | outcome => outcome := by
  unfold on ExceptT.run StateT.run ofDocument
  change ExceptT.tryCatch t _ merges = _
  simp only [ExceptT.tryCatch, ExceptT.mk, bind, StateT.bind]
  rcases t merges with ⟨fault | a, reached⟩
  · cases fault <;> rfl
  · rfl

/-- A computation does not look at the count: a run from some count is that from none, shifted. -/
def Shifts (t : Tally α) : Prop :=
  ∀ merges, t.on merges = ((t.on 0).1, merges + (t.on 0).2)

theorem shifts_pure (a : α) : Shifts (pure a) := fun _ => rfl

theorem shifts_throw (fault : InferenceFault) : Shifts (throw fault : Tally α) := fun _ => rfl

theorem shifts_count (n : Nat) : Shifts (count n) := by
  intro merges
  rw [on_count, on_count, Nat.zero_add]

theorem Shifts.bind {t : Tally α} {f : α → Tally β} (ht : Shifts t) (hf : ∀ a, Shifts (f a)) :
    Shifts (t >>= f) := by
  intro merges
  rw [on_bind, on_bind, ht merges]
  rcases t.on 0 with ⟨fault | a, n⟩
  · rfl
  · simp only [hf a (merges + n), hf a n, Nat.add_assoc]

theorem Shifts.ofDocument {t : Tally α} (h : Shifts t) : Shifts (ofDocument t) := by
  intro merges
  rw [on_ofDocument, on_ofDocument, h merges]
  rcases t.on 0 with ⟨fault | a, n⟩
  · cases fault <;> rfl
  · rfl

/-- A fault of the first part is the document's, and so is one of the second part on its result. -/
theorem on_ofDocument_bind (t : Tally α) (f : α → Tally β) (merges : Nat) :
    (ofDocument (t >>= f)).on merges =
      match (ofDocument t).on merges with
      | (.ok a, reached) => (ofDocument (f a)).on reached
      | (.error fault, reached) => (.error fault, reached) := by
  rw [on_ofDocument, on_ofDocument, on_bind]
  rcases t.on merges with ⟨fault | a, reached⟩
  · cases fault <;> rfl
  · exact (on_ofDocument (f a) reached).symm

end Tally

namespace Shape

theorem on_unify (a b : Shape) (merges : Nat) :
    (a.unify b).on merges =
      (match (Progress.ofMerge nestingRoom a b).fault with
        | some fault => .error fault.toInferenceFault
        | none => .ok (a.merge b),
      merges + (Progress.ofMerge nestingRoom a b).merges) := by
  simp only [unify, Tally.on_bind, Tally.on_count]
  cases (Progress.ofMerge nestingRoom a b).fault <;> rfl

theorem shifts_unify (a b : Shape) : Tally.Shifts (a.unify b) := by
  refine (Tally.shifts_count _).bind fun _ => ?_
  cases (Progress.ofMerge nestingRoom a b).fault with
  | some fault => exact Tally.shifts_throw _
  | none => exact Tally.shifts_pure _

theorem fault_eq_none_of_on_unify {a b s : Shape} {merges reached : Nat}
    (h : (a.unify b).on merges = (.ok s, reached)) :
    (Progress.ofMerge nestingRoom a b).fault = none := by
  rw [on_unify] at h
  cases hfault : (Progress.ofMerge nestingRoom a b).fault with
  | some fault => simp [hfault] at h
  | none => rfl

theorem eq_merge_of_on_unify {a b s : Shape} {merges reached : Nat}
    (h : (a.unify b).on merges = (.ok s, reached)) : s = a.merge b := by
  have hnone := fault_eq_none_of_on_unify h
  rw [on_unify, hnone] at h
  exact (Except.ok.inj (congrArg Prod.fst h)).symm

theorem on_unify_of_fault_eq_none {a b : Shape}
    (h : (Progress.ofMerge nestingRoom a b).fault = none) (merges : Nat) :
    (a.unify b).on merges =
      (.ok (a.merge b), merges + (Progress.ofMerge nestingRoom a b).merges) := by
  rw [on_unify, h]

theorem on_unify_of_fault {a b : Shape} {fault : MergeFault}
    (h : (Progress.ofMerge nestingRoom a b).fault = some fault) (merges : Nat) :
    (a.unify b).on merges =
      (.error fault.toInferenceFault, merges + (Progress.ofMerge nestingRoom a b).merges) := by
  rw [on_unify, h]

/-- A counted merge that takes no more than the room for nesting is given up only if an integer is
too large to widen. -/
theorem on_unify_of_fits {a b : Shape} {needed : Nat}
    (h : (Progress.ofMerge nestingRoom a b).Fits nestingRoom needed) (merges : Nat) :
    (∃ reached, (a.unify b).on merges = (.ok (a.merge b), reached)) ∨
      nestingRoom < needed ∧ (∃ reached, (a.unify b).on merges = (.error .tooDeep, reached)) ∨
      ¬ (a.isNarrow = true ∧ b.isNarrow = true) ∧
        ∃ reached, (a.unify b).on merges = (.error .overflow, reached) := by
  rcases h with hfault | hfault | ⟨hfault, hlt⟩
  · exact .inl ⟨_, on_unify_of_fault_eq_none hfault merges⟩
  · refine .inr (.inr ⟨fun hnarrow => ?_, _, on_unify_of_fault hfault merges⟩)
    exact Progress.fault_ofMerge_ne_overflow nestingRoom hnarrow.1 hnarrow.2 hfault
  · exact .inr (.inl ⟨hlt, _, on_unify_of_fault hfault merges⟩)

/-- Flat shapes have a counted merge, unless it takes more than the room for nesting, or an integer
of more than 64 bits is too large to widen. -/
theorem on_unify_of_isFlat {a b : Shape} (ha : a.isFlat = true) (hb : b.isFlat = true)
    (merges : Nat) :
    (∃ reached, (a.unify b).on merges = (.ok (a.merge b), reached)) ∨
      nestingRoom < a.mergeRoom b ∧
        (∃ reached, (a.unify b).on merges = (.error .tooDeep, reached)) ∨
      ¬ (a.isNarrow = true ∧ b.isNarrow = true) ∧
        ∃ reached, (a.unify b).on merges = (.error .overflow, reached) :=
  on_unify_of_fits (Progress.fits_ofMerge nestingRoom ha hb) merges

theorem on_unify_of_isTidy {a b : Shape} (ha : a.isTidy = true) (hb : b.isTidy = true)
    (merges : Nat) :
    (∃ reached, (a.unify b).on merges = (.ok (a.merge b), reached)) ∨
      nestingRoom < a.mergeRoom b ∧
        (∃ reached, (a.unify b).on merges = (.error .tooDeep, reached)) ∨
      ¬ (a.isNarrow = true ∧ b.isNarrow = true) ∧
        ∃ reached, (a.unify b).on merges = (.error .overflow, reached) :=
  on_unify_of_isFlat (isFlat_of_isTidy ha) (isFlat_of_isTidy hb) merges

/-- Well-formed shapes have a counted merge, which lies above both and below every tidy shape above
both, unless it takes more than the room for nesting, or an integer of more than 64 bits is too
large to widen. -/
theorem on_unify_least {a b : Shape} (ha : a.WellFormed) (hb : b.WellFormed) (merges : Nat) :
    (∃ s reached, (a.unify b).on merges = (.ok s, reached) ∧ a ≤ s ∧ b ≤ s ∧
      ∀ c : Shape, c.isTidy = true → a ≤ c → b ≤ c → s ≤ c) ∨
      nestingRoom < a.mergeRoom b ∧
        (∃ reached, (a.unify b).on merges = (.error .tooDeep, reached)) ∨
      ¬ (a.isNarrow = true ∧ b.isNarrow = true) ∧
        ∃ reached, (a.unify b).on merges = (.error .overflow, reached) := by
  obtain ⟨hleft, hright⟩ := le_merge ha hb
  refine (on_unify_of_isTidy ha.tidy hb.tidy merges).imp_left ?_
  rintro ⟨reached, hok⟩
  refine ⟨a.merge b, reached, hok, hleft, hright, fun c hc hac hbc => ?_⟩
  exact merge_le ha.tidy hb.tidy hc hac hbc

/-- A record with a marked list of integers. -/
def leftRecord : Shape :=
  record [("x", optional (list ⟨1, 2⟩ (int ⟨-3, 2 ^ 53 + 1⟩))), ("y", unknown), ("z", bool)]

/-- A record with a list of floats. -/
def rightRecord : Shape :=
  record [("w", any), ("x", list ⟨0, 1⟩ (optional (float ⟨.ofInt 0, .ofInt 7⟩))),
    ("y", record [("y", text ⟨4, 4⟩)])]

theorem on_unify_least_records :
    leftRecord.WellFormed ∧ rightRecord.WellFormed ∧
      ∃ s reached, (leftRecord.unify rightRecord).on 0 = (.ok s, reached) ∧
        leftRecord ≤ s ∧ rightRecord ≤ s ∧
          ∀ c : Shape, c.isTidy = true → leftRecord ≤ c → rightRecord ≤ c → s ≤ c := by
  have hleft : leftRecord.WellFormed := ⟨by decide, by decide⟩
  have hright : rightRecord.WellFormed := ⟨by decide, by decide⟩
  have hroom : ¬ nestingRoom < leftRecord.mergeRoom rightRecord := by decide
  have hnarrow : leftRecord.isNarrow = true ∧ rightRecord.isNarrow = true := by decide
  refine ⟨hleft, hright, (on_unify_least hleft hright 0).resolve_right ?_⟩
  exact fun h => h.elim (fun hdeep => hroom hdeep.1) fun hwide => hwide.1 hnarrow

end Shape

end JsonShape
