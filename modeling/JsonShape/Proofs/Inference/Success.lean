import JsonShape.Proofs.Inference.Outcome

/-!
What a run of inference comes to. It does not look at the count, so a value of which it finds a
shape once it finds the shape of always. That shape is flat and has no more levels than the room,
whatever keys repeat in the value. So the shapes of such values merge, and a run fails just when one
of its values does, with the fault of the first one that does.
-/

set_option autoImplicit false

namespace JsonShape

open Tally

namespace Shape

/-- A flat shape of some number of levels at most, with integers of 64 bits. -/
structure FitsLevels (n : Nat) (s : Shape) : Prop where
  flat : s.isFlat = true
  narrow : s.isNarrow = true
  levels_le : s.levels ≤ n

theorem FitsLevels.merge {n : Nat} {a b : Shape} (ha : a.FitsLevels n) (hb : b.FitsLevels n) :
    (a.merge b).FitsLevels n :=
  ⟨isFlat_merge ha.flat hb.flat, isNarrow_merge ha.narrow hb.narrow,
    (levels_merge_le ha.flat hb.flat).trans (max_le ha.levels_le hb.levels_le)⟩

theorem FitsLevels.mono {n larger : Nat} {s : Shape} (h : s.FitsLevels n) (hle : n ≤ larger) :
    s.FitsLevels larger :=
  ⟨h.flat, h.narrow, h.levels_le.trans hle⟩

theorem fitsLevels_unknown (n : Nat) : unknown.FitsLevels n := ⟨rfl, rfl, Nat.zero_le n⟩

theorem FitsLevels.around {n : Nat} {shapes : List Shape} (h : ∀ t ∈ shapes, t.FitsLevels n) :
    (around shapes).FitsLevels n :=
  around_of_merge (fitsLevels_unknown n) FitsLevels.merge h

theorem on_unify_of_fitsLevels {n : Nat} {a b : Shape} (ha : a.FitsLevels Value.nestingRoom)
    (hb : b.FitsLevels n) (merges : Nat) :
    ∃ reached, (a.unify b).on merges = (.ok (a.merge b), reached) := by
  rcases on_unify_of_isFlat ha.flat hb.flat merges with hok | ⟨hroom, -⟩ | ⟨hwide, -⟩
  · exact hok
  · have hneeded := mergeRoom_le a b
    have hlevels := ha.levels_le
    have hfits := nestingRoom_fits
    omega
  · exact absurd ⟨ha.narrow, hb.narrow⟩ hwide

end Shape

theorem shifts_intText (n : Int) : Shifts (intText n) := by
  unfold intText
  cases digits? n with
  | none => exact shifts_throw _
  | some digits => exact shifts_pure _

theorem Key.shifts_label (key : Key) : Shifts key.label := by
  cases key with
  | int n => exact shifts_intText n
  | _ => exact shifts_pure _

namespace Value

theorem shifts_inferOnto {vs : List Value} {room : Nat} (h : ∀ v ∈ vs, Shifts (v.infer room))
    (s : Shape) : Shifts (inferOnto room s vs) := by
  induction vs generalizing s with
  | nil => exact shifts_pure s
  | cons v rest ih =>
    obtain ⟨hv, hrest⟩ := List.forall_mem_cons.mp h
    simp only [inferOnto]
    exact hv.bind fun next => (Shape.shifts_unify s next).bind fun merged => ih hrest merged

theorem shifts_inferFields {entries : List (Key × Value)} {room : Nat}
    (h : ∀ e ∈ entries, Shifts (e.2.infer room)) : Shifts (inferFields room entries) := by
  induction entries with
  | nil => exact shifts_pure []
  | cons e rest ih =>
    obtain ⟨he, hrest⟩ := List.forall_mem_cons.mp h
    simp only [inferFields]
    exact e.1.shifts_label.bind fun _ => he.bind fun _ => (ih hrest).bind fun _ => shifts_pure _

theorem shifts_infer (v : Value) (room : Nat) : Shifts (v.infer room) := by
  induction v using nodeInduction generalizing room with
  | int n =>
    simp only [infer]
    split_ifs
    · exact shifts_pure _
    · exact (shifts_intText n).bind fun _ => shifts_pure _
  | decimal d =>
    simp only [infer]
    cases d.toBinary64? with
    | none => exact shifts_throw _
    | some x => exact shifts_pure _
  | list items ih =>
    cases room with
    | zero => exact shifts_throw _
    | succ room =>
      simp only [infer]
      exact (shifts_inferOnto (fun v hv => ih v hv room) _).bind fun _ => shifts_pure _
  | dict entries ih =>
    cases room with
    | zero => exact shifts_throw _
    | succ room =>
      simp only [infer]
      exact (shifts_inferFields fun e he => ih e he room).bind fun _ => shifts_pure _
  | illFormedText _ | foreign _ => exact shifts_throw _
  | _ => exact shifts_pure _

end Value

theorem shifts_inferMany (vs : List Value) : Shifts (inferMany vs) :=
  Value.shifts_inferOnto (fun v _ => v.shifts_infer Value.nestingRoom) .unknown

namespace Value

/-! ### Success -/

/-- Inference finds some shape of a value in some room, after some count. -/
def Succeeds (room : Nat) (v : Value) : Prop :=
  ∃ merges s reached, (v.infer room).on merges = (.ok s, reached)

theorem succeeds_of_on_inferOnto {vs : List Value} {room merges reached : Nat} {s t : Shape}
    (h : (inferOnto room s vs).on merges = (.ok t, reached)) : ∀ v ∈ vs, v.Succeeds room := by
  induction vs generalizing s merges with
  | nil => simp
  | cons v rest ih =>
    simp only [inferOnto] at h
    obtain ⟨next, inferred, hnext, h⟩ := on_bind_eq_ok h
    obtain ⟨merged, unified, -, h⟩ := on_bind_eq_ok h
    exact List.forall_mem_cons.mpr ⟨⟨merges, next, inferred, hnext⟩, ih h⟩

theorem succeeds_of_on_inferFields {entries : List (Key × Value)} {room merges reached : Nat}
    {fields : List Field} (h : (inferFields room entries).on merges = (.ok fields, reached)) :
    ∀ e ∈ entries, e.2.Succeeds room := by
  induction entries generalizing fields merges reached with
  | nil => simp
  | cons e rest ih =>
    simp only [inferFields] at h
    obtain ⟨name, labelled, -, h⟩ := on_bind_eq_ok h
    obtain ⟨s, inferred, hs, h⟩ := on_bind_eq_ok h
    obtain ⟨others, _, hothers, -⟩ := on_bind_eq_ok h
    exact List.forall_mem_cons.mpr ⟨⟨labelled, s, inferred, hs⟩, ih hothers⟩

/-- Where inference succeeds on a list it succeeds on the elements, in less room. -/
theorem Succeeds.items {room : Nat} {items : List Value} (h : (list items).Succeeds room) :
    ∃ inner, room = inner + 1 ∧ ∀ v ∈ items, v.Succeeds inner := by
  obtain ⟨merges, s, reached, h⟩ := h
  cases room with
  | zero => simp [infer] at h
  | succ inner =>
    simp only [infer] at h
    obtain ⟨item, _, hitem, -⟩ := on_bind_eq_ok h
    exact ⟨inner, rfl, succeeds_of_on_inferOnto hitem⟩

/-- Where inference succeeds on a dictionary it succeeds on the values, in less room. -/
theorem Succeeds.entries {room : Nat} {entries : List (Key × Value)}
    (h : (dict entries).Succeeds room) :
    ∃ inner, room = inner + 1 ∧ ∀ e ∈ entries, e.2.Succeeds inner := by
  obtain ⟨merges, s, reached, h⟩ := h
  cases room with
  | zero => simp [infer] at h
  | succ inner =>
    simp only [infer] at h
    obtain ⟨fields, _, hfields, -⟩ := on_bind_eq_ok h
    exact ⟨inner, rfl, succeeds_of_on_inferFields hfields⟩

/-- Inference finds the shape of a value, whatever was counted before. -/
def Finds (room : Nat) (v : Value) : Prop :=
  ∀ merges, ∃ reached, (v.infer room).on merges = (.ok v.shape, reached)

/-- What inference finds the shape of once, it finds the shape of always. -/
theorem Succeeds.finds {room : Nat} {v : Value} (h : v.Succeeds room) : v.Finds room := by
  obtain ⟨before, s, after, h⟩ := h
  intro merges
  obtain rfl := v.settled h
  rw [v.shifts_infer room before, Prod.mk.injEq] at h
  exact ⟨_, by rw [v.shifts_infer room merges, h.1]⟩

/-- The shape that inference finds of a value has no more levels than the room. -/
theorem Succeeds.fitsLevels {room : Nat} {v : Value} (h : v.Succeeds room) :
    v.shape.FitsLevels room := by
  induction v using nodeInduction generalizing room with
  | int n =>
    simp only [shape]
    split_ifs with hfits
    · exact ⟨rfl, Shape.isNarrow_int_iff.mpr ⟨hfits, hfits⟩, Nat.zero_le _⟩
    · exact ⟨rfl, rfl, Nat.zero_le _⟩
  | decimal d =>
    simp only [shape]
    cases d.toBinary64? with
    | none => exact ⟨rfl, rfl, Nat.zero_le _⟩
    | some x => exact ⟨rfl, rfl, Nat.zero_le _⟩
  | list items ih =>
    obtain ⟨room, rfl, hitems⟩ := h.items
    have haround := Shape.FitsLevels.around
      (List.forall_mem_map.mpr fun v hmem => ih v hmem (hitems v hmem))
    rw [shape_list]
    exact ⟨haround.flat, haround.narrow, Nat.succ_le_succ haround.levels_le⟩
  | dict entries ih =>
    obtain ⟨room, rfl, hentries⟩ := h.entries
    have hshapes : ∀ f ∈ entryFields entries, f.2.FitsLevels room :=
      forall_mem_entryFields.mpr fun e he => ih e he (hentries e he)
    rw [shape_dict]
    exact ⟨Shape.isFlat_record_iff.mpr fun f hf => (hshapes f hf).flat,
      Shape.isNarrow_record_iff.mpr fun f hf => (hshapes f hf).narrow,
      Nat.succ_le_succ (Shape.fieldsLevels_le_iff.mpr fun f hf => (hshapes f hf).levels_le)⟩
  | _ => exact ⟨rfl, rfl, Nat.zero_le _⟩

end Value

/-! ### Faults -/

/-- A key has a fault if it is an integer of too many digits. -/
def Key.fault? : Key → Option InferenceFault
  | int n => if Nat.pow 10 digitLimit ≤ n.natAbs then some .tooManyDigits else none
  | _ => none

theorem Key.on_label (key : Key) (merges : Nat) :
    key.label.on merges = (key.fault?.elim (.ok key.name) .error, merges) := by
  cases key with
  | int n =>
    simp only [label, fault?, Nat.pow_eq]
    by_cases hlong : 10 ^ digitLimit ≤ n.natAbs
    · rw [if_pos hlong, intText_of_le hlong]
      rfl
    · rw [if_neg hlong, intText_of_lt (Nat.not_le.mp hlong)]
      rfl
  | _ => rfl

theorem findSome?_congr {α β : Type} {f g : α → Option β} {l : List α}
    (h : ∀ a ∈ l, f a = g a) : l.findSome? f = l.findSome? g := by
  induction l with
  | nil => rfl
  | cons a rest ih =>
    obtain ⟨ha, hrest⟩ := List.forall_mem_cons.mp h
    rw [List.findSome?_cons, List.findSome?_cons, ha, ih hrest]

theorem findSome?_ite {α β : Type} {l : List α} {p : α → Prop} [DecidablePred p] (b : β) :
    (l.findSome? fun a => if p a then none else some b) =
      if ∀ a ∈ l, p a then none else some b := by
  induction l with
  | nil => simp
  | cons a rest ih =>
    rw [List.findSome?_cons, ih]
    by_cases ha : p a
    · simp [ha]
    · simp [ha]

/-- Why a computation fails, if it does. -/
def Tally.fault? {α : Type} (t : Tally α) : Option InferenceFault :=
  match (t.on 0).1 with
  | .error fault => some fault
  | .ok _ => none

theorem Tally.fault?_eq_of_on {α : Type} {t : Tally α} {a : α} {o : Option InferenceFault}
    (h : ∃ reached, t.on 0 = (o.elim (.ok a) .error, reached)) : t.fault? = o := by
  obtain ⟨reached, h⟩ := h
  simp only [fault?, h]
  cases o <;> rfl

namespace Value

/-- Why inference finds no shape of a value within some room, if it finds none. -/
def fault? (room : Nat) (v : Value) : Option InferenceFault := (v.infer room).fault?

theorem exists_on_infer (room : Nat) (v : Value) (merges : Nat) :
    ∃ reached, (v.infer room).on merges = ((v.fault? room).elim (.ok v.shape) .error, reached) := by
  rw [v.shifts_infer room merges]
  refine ⟨merges + ((v.infer room).on 0).2, ?_⟩
  simp only [fault?, Tally.fault?]
  rcases hrun : (v.infer room).on 0 with ⟨fault | s, reached⟩
  · rfl
  · rw [v.settled hrun]
    rfl

theorem succeeds_of_fault?_eq_none {room : Nat} {v : Value} (h : v.fault? room = none) :
    v.Succeeds room := by
  obtain ⟨reached, hrun⟩ := v.exists_on_infer room 0
  rw [h] at hrun
  exact ⟨0, v.shape, reached, hrun⟩

theorem Succeeds.fault?_eq_none {room : Nat} {v : Value} (h : v.Succeeds room) :
    v.fault? room = none := by
  obtain ⟨reached, hrun⟩ := h.finds 0
  exact fault?_eq_of_on (a := v.shape) ⟨reached, hrun⟩

/-- A run over some values has a fault if one of them has, and that of the first one that has. -/
theorem exists_on_inferOnto {room : Nat} (hroom : room ≤ nestingRoom) (vs : List Value)
    {s : Shape} (hs : s.FitsLevels nestingRoom) (merges : Nat) :
    ∃ reached, (inferOnto room s vs).on merges =
      ((vs.findSome? (fault? room)).elim (.ok ((vs.map shape).foldl Shape.merge s)) .error,
        reached) := by
  induction vs generalizing s merges with
  | nil => exact ⟨merges, rfl⟩
  | cons v rest ih =>
    obtain ⟨inferred, hinfer⟩ := v.exists_on_infer room merges
    cases hfault : v.fault? room with
    | some fault =>
      rw [hfault] at hinfer
      exact ⟨inferred, by simp only [inferOnto, on_bind, hinfer, List.findSome?_cons, hfault,
        Option.elim]⟩
    | none =>
      rw [hfault] at hinfer
      -- The next shape has no more levels than the room, so the merge with it does not fail.
      have hnext := (succeeds_of_fault?_eq_none hfault).fitsLevels.mono hroom
      obtain ⟨unified, hunify⟩ := Shape.on_unify_of_fitsLevels hs hnext inferred
      obtain ⟨reached, hrest⟩ := ih (hs.merge hnext) unified
      exact ⟨reached, by simp only [inferOnto, on_bind, hinfer, Option.elim_none, hunify, hrest,
        List.findSome?_cons, hfault, List.map_cons, List.foldl_cons]⟩

theorem on_inferOnto_of_succeeds {room : Nat} (hroom : room ≤ nestingRoom) {vs : List Value}
    (h : ∀ v ∈ vs, v.Succeeds room) {s : Shape} (hs : s.FitsLevels nestingRoom) (merges : Nat) :
    ∃ reached, (inferOnto room s vs).on merges =
      (.ok ((vs.map shape).foldl Shape.merge s), reached) := by
  obtain ⟨reached, hrun⟩ := exists_on_inferOnto hroom vs hs merges
  rw [List.findSome?_eq_none_iff.mpr fun v hv => (h v hv).fault?_eq_none] at hrun
  exact ⟨reached, hrun⟩

theorem fault?_list {room : Nat} (hroom : room ≤ nestingRoom) (items : List Value) :
    (list items).fault? (room + 1) = items.findSome? (fault? room) := by
  obtain ⟨reached, hrun⟩ := exists_on_inferOnto hroom items (Shape.fitsLevels_unknown _) 0
  refine fault?_eq_of_on (a := .list (.point items.length) (Shape.around (items.map shape)))
    ⟨reached, ?_⟩
  simp only [infer, on_bind, hrun]
  cases items.findSome? (fault? room) <;> rfl

/-- A run over some entries has the fault of the first key or value that has one. -/
theorem exists_on_inferFields (room : Nat) (entries : List (Key × Value)) (merges : Nat) :
    ∃ reached, (inferFields room entries).on merges =
      ((entries.findSome? fun e => e.1.fault?.or (e.2.fault? room)).elim
        (.ok (entryFields entries)) .error, reached) := by
  induction entries generalizing merges with
  | nil => exact ⟨merges, rfl⟩
  | cons e rest ih =>
    have hlabel := e.1.on_label merges
    cases hkey : e.1.fault? with
    | some fault =>
      rw [hkey] at hlabel
      exact ⟨merges, by simp only [inferFields, on_bind, hlabel, List.findSome?_cons, hkey,
        Option.some_or, Option.elim]⟩
    | none =>
      rw [hkey] at hlabel
      obtain ⟨inferred, hinfer⟩ := e.2.exists_on_infer room merges
      cases hfault : e.2.fault? room with
      | some fault =>
        rw [hfault] at hinfer
        exact ⟨inferred, by simp only [inferFields, on_bind, hlabel, hinfer, List.findSome?_cons,
          hkey, hfault, Option.none_or, Option.elim]⟩
      | none =>
        rw [hfault] at hinfer
        obtain ⟨reached, hrest⟩ := ih inferred
        refine ⟨reached, ?_⟩
        simp only [inferFields, on_bind, hlabel, hinfer, Option.elim_none, hrest,
          List.findSome?_cons, hkey, hfault, Option.none_or]
        cases rest.findSome? fun e => e.1.fault?.or (e.2.fault? room) <;> rfl

theorem fault?_dict (room : Nat) (entries : List (Key × Value)) :
    (dict entries).fault? (room + 1) =
      entries.findSome? fun e => e.1.fault?.or (e.2.fault? room) := by
  obtain ⟨reached, hrun⟩ := exists_on_inferFields room entries 0
  refine fault?_eq_of_on (a := .record (entryFields entries)) ⟨reached, ?_⟩
  simp only [infer, on_bind, hrun]
  cases entries.findSome? fun e => e.1.fault?.or (e.2.fault? room) <;> rfl

end Value

/-- If inference finds the shape of each value, it finds the shape around them all. -/
theorem on_inferMany_of_succeeds {vs : List Value}
    (h : ∀ v ∈ vs, v.Succeeds Value.nestingRoom) (merges : Nat) :
    ∃ reached, (inferMany vs).on merges = (.ok (Shape.around (vs.map Value.shape)), reached) :=
  Value.on_inferOnto_of_succeeds le_rfl h (Shape.fitsLevels_unknown _) merges

end JsonShape
