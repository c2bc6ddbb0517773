import JsonShape.Proofs.Inference.Success

/-!
Values that inference has room for: JSON values that are nested no deeper than the room, with no
integer too long to be written out. Inference never fails on them, for the shapes of such values
have room to be merged.
-/

set_option autoImplicit false

namespace JsonShape

namespace Value

mutual

/-- The number of lists and dictionaries on the longest way down a value. -/
def depth : Value → Nat
  | list items => itemsDepth items + 1
  | dict entries => entriesDepth entries + 1
  | _ => 0

/-- The greatest depth of an element. -/
def itemsDepth : List Value → Nat
  | [] => 0
  | v :: rest => max v.depth (itemsDepth rest)

/-- The greatest depth of the value of an entry. -/
def entriesDepth : List (Key × Value) → Nat
  | [] => 0
  | (_, v) :: rest => max v.depth (entriesDepth rest)

end

theorem itemsDepth_le_iff {items : List Value} {n : Nat} :
    itemsDepth items ≤ n ↔ ∀ v ∈ items, v.depth ≤ n := by
  induction items with
  | nil => simp [itemsDepth]
  | cons v rest ih => simp [itemsDepth, ih]

theorem entriesDepth_le_iff {entries : List (Key × Value)} {n : Nat} :
    entriesDepth entries ≤ n ↔ ∀ e ∈ entries, e.2.depth ≤ n := by
  induction entries with
  | nil => simp [entriesDepth]
  | cons e rest ih => simp [entriesDepth, ih]

theorem depth_le_itemsDepth {items : List Value} {v : Value} (h : v ∈ items) :
    v.depth ≤ itemsDepth items :=
  itemsDepth_le_iff.mp le_rfl v h

theorem depth_le_entriesDepth {entries : List (Key × Value)} {e : Key × Value} (h : e ∈ entries) :
    e.2.depth ≤ entriesDepth entries :=
  entriesDepth_le_iff.mp le_rfl e h

/-- A node that is no integer too long to be written out. -/
def isWritableNode : Value → Bool
  | int n => fitsInt64 n || n.natAbs < 10 ^ digitLimit
  | _ => true

/-- Every integer in a value tree is short enough to be written out where its digits count. -/
def isWritable (v : Value) : Bool := v.everywhere isWritableNode

/-- A JSON value that inference can take in within some room for nesting. -/
structure InLimits (room : Nat) (v : Value) : Prop where
  json : v.isJson = true
  depth_le : v.depth ≤ room
  writable : v.isWritable = true

theorem InLimits.item {room : Nat} {items : List Value} (h : (list items).InLimits (room + 1))
    {v : Value} (hv : v ∈ items) : v.InLimits room := by
  refine ⟨isJson_list_iff.mp h.json v hv, ?_, ?_⟩
  · have hdepth := h.depth_le
    simp only [depth] at hdepth
    exact (depth_le_itemsDepth hv).trans (Nat.le_of_succ_le_succ hdepth)
  · have hwritable := h.writable
    simp only [isWritable, everywhere, Bool.and_eq_true, everywhereItems_iff] at hwritable
    exact hwritable.2 v hv

theorem InLimits.entry {room : Nat} {entries : List (Key × Value)}
    (h : (dict entries).InLimits (room + 1)) {e : Key × Value} (he : e ∈ entries) :
    e.1.isText = true ∧ e.2.InLimits room := by
  obtain ⟨⟨htext, -⟩, hvalues⟩ := isJson_dict_iff.mp h.json
  refine ⟨htext e he, hvalues e he, ?_, ?_⟩
  · have hdepth := h.depth_le
    simp only [depth] at hdepth
    exact (depth_le_entriesDepth he).trans (Nat.le_of_succ_le_succ hdepth)
  · have hwritable := h.writable
    simp only [isWritable, everywhere, Bool.and_eq_true, everywhereEntries_iff] at hwritable
    exact hwritable.2 e he

theorem InLimits.items {room : Nat} {items : List Value} (h : (Value.list items).InLimits room) :
    ∃ inner, room = inner + 1 ∧ ∀ v ∈ items, v.InLimits inner := by
  cases room with
  | zero => exact absurd h.depth_le (Nat.not_succ_le_zero _)
  | succ inner => exact ⟨inner, rfl, fun v hv => h.item hv⟩

theorem InLimits.entries {room : Nat} {entries : List (Key × Value)}
    (h : (Value.dict entries).InLimits room) :
    ∃ inner, room = inner + 1 ∧ ∀ e ∈ entries, e.2.InLimits inner := by
  cases room with
  | zero => exact absurd h.depth_le (Nat.not_succ_le_zero _)
  | succ inner => exact ⟨inner, rfl, fun e he => (h.entry he).2⟩

theorem InLimits.list {room : Nat} {items : List Value} (h : ∀ v ∈ items, v.InLimits room) :
    (list items).InLimits (room + 1) := by
  refine ⟨isJson_list_iff.mpr fun v hv => (h v hv).json, ?_, ?_⟩
  · exact Nat.succ_le_succ (itemsDepth_le_iff.mpr fun v hv => (h v hv).depth_le)
  · simp only [isWritable, everywhere, isWritableNode, Bool.true_and, everywhereItems_iff]
    exact fun v hv => (h v hv).writable

theorem InLimits.dict {room : Nat} {entries : List (Key × Value)}
    (hjson : (dict entries).isJson = true) (h : ∀ e ∈ entries, e.2.InLimits room) :
    (dict entries).InLimits (room + 1) := by
  refine ⟨hjson, ?_, ?_⟩
  · exact Nat.succ_le_succ (entriesDepth_le_iff.mpr fun e he => (h e he).depth_le)
  · simp only [isWritable, everywhere, isWritableNode, Bool.true_and, everywhereEntries_iff]
    exact fun e he => (h e he).writable

theorem InLimits.mono {room larger : Nat} {v : Value} (h : v.InLimits room)
    (hle : room ≤ larger) : v.InLimits larger :=
  ⟨h.json, h.depth_le.trans hle, h.writable⟩

/-- Inference fails on a JSON value whose integers can be written only if the value is too deep. -/
theorem fault?_of_isJson {v : Value} {room : Nat} (hroom : room ≤ nestingRoom)
    (hv : v.isJson = true) (hw : v.isWritable = true) :
    v.fault? room = if v.depth ≤ room then none else some .tooDeep := by
  induction v using nodeInduction generalizing room with
  | int n =>
    refine Eq.trans ?_ (if_pos (Nat.zero_le room)).symm
    simp only [fault?, infer]
    split_ifs with hfits
    · rfl
    · have hshort : n.natAbs < 10 ^ digitLimit := by
        simpa [isWritable, everywhere, isWritableNode, hfits] using hw
      rw [intText_of_lt hshort]
      rfl
  | decimal d =>
    obtain ⟨x, hx⟩ := exists_toBinary64? hv
    refine Eq.trans ?_ (if_pos (Nat.zero_le room)).symm
    simp only [fault?, infer, hx]
    rfl
  | list items ih =>
    cases room with
    | zero => rfl
    | succ room =>
      have hle : room ≤ nestingRoom := Nat.le_of_succ_le hroom
      simp only [isWritable, everywhere, isWritableNode, Bool.true_and, everywhereItems_iff] at hw
      rw [fault?_list hle, findSome?_congr fun v hmem =>
        ih v hmem hle (isJson_list_iff.mp hv v hmem) (hw v hmem), findSome?_ite]
      simp only [depth, Nat.add_le_add_iff_right, itemsDepth_le_iff]
  | dict entries ih =>
    cases room with
    | zero => rfl
    | succ room =>
      have hle : room ≤ nestingRoom := Nat.le_of_succ_le hroom
      obtain ⟨⟨htext, -⟩, hvalues⟩ := isJson_dict_iff.mp hv
      simp only [isWritable, everywhere, isWritableNode, Bool.true_and, everywhereEntries_iff] at hw
      have hentries (e : Key × Value) (he : e ∈ entries) : e.1.fault?.or (e.2.fault? room) =
          if e.2.depth ≤ room then none else some .tooDeep := by
        rw [Key.eq_text_name (htext e he), ← ih e he hle (hvalues e he) (hw e he)]
        rfl
      rw [fault?_dict, findSome?_congr hentries, findSome?_ite]
      simp only [depth, Nat.add_le_add_iff_right, entriesDepth_le_iff]
  | illFormedText _ | foreign _ => exact absurd hv Bool.false_ne_true
  | _ => exact (if_pos (Nat.zero_le room)).symm

/-- Within the limits inference finds the shape of a value. -/
theorem InLimits.finds {v : Value} {room : Nat} (hroom : room ≤ nestingRoom)
    (hv : v.InLimits room) : v.Finds room := by
  have hnone := fault?_of_isJson hroom hv.json hv.writable
  rw [if_pos hv.depth_le] at hnone
  exact (succeeds_of_fault?_eq_none hnone).finds

theorem InLimits.succeeds {v : Value} {room : Nat} (hroom : room ≤ nestingRoom)
    (hv : v.InLimits room) : v.Succeeds room := by
  obtain ⟨reached, hrun⟩ := hv.finds hroom 0
  exact ⟨0, v.shape, reached, hrun⟩

end Value

/-- Inference succeeds on values within its limits. -/
theorem on_inferMany_of_inLimits {vs : List Value}
    (h : ∀ v ∈ vs, v.InLimits Value.nestingRoom) (merges : Nat) :
    ∃ reached, (inferMany vs).on merges = (.ok (Shape.around (vs.map Value.shape)), reached) :=
  on_inferMany_of_succeeds (fun v hv => (h v hv).succeeds le_rfl) merges

end JsonShape
