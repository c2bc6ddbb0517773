import JsonShape.Proofs.Inference.Unknowns
import JsonShape.Proofs.Shape.Widening

/-!
Where inference fails. A value that is not too deep has a shape unless one of its keys and nodes has
a fault of its own, and the fault reported is the first one in the order of the document. Merges
have no part in it: what is merged holds no foreign node, and all its integers have 64 bits.
-/

set_option autoImplicit false

namespace JsonShape

/-! ### Faults of keys and nodes -/

/-- What inference comes by on its way through a value. -/
inductive Visit
  | key (k : Key)
  | node (v : Value)

namespace Value

mutual

/-- The nodes of a value in the order of the document, each key in front of its value. -/
def visits : Value → List Visit
  | list items => .node (list items) :: itemVisits items
  | dict entries => .node (dict entries) :: entryVisits entries
  | v => [.node v]

/-- The nodes of the elements of a list. -/
def itemVisits : List Value → List Visit
  | [] => []
  | v :: rest => v.visits ++ itemVisits rest

/-- The keys of a dictionary and the nodes of their values. -/
def entryVisits : List (Key × Value) → List Visit
  | [] => []
  | (key, v) :: rest => .key key :: (v.visits ++ entryVisits rest)

end

/-- The fault that a node has of its own, whatever stands below it. -/
def nodeFault? : Value → Option InferenceFault
  | int n =>
    if !fitsInt64 n && decide (Nat.pow 10 digitLimit ≤ n.natAbs) then some .tooManyDigits else none
  | decimal .signalingNaN => some .signalingNaN
  | illFormedText _ => some .illFormedText
  | foreign kind => some (.unsupported kind)
  | _ => none

end Value

/-- The fault of a key or of a node. -/
def Visit.fault? : Visit → Option InferenceFault
  | key k => k.fault?
  | node v => v.nodeFault?

namespace Value

theorem findSome?_itemVisits (items : List Value) :
    (itemVisits items).findSome? Visit.fault? =
      items.findSome? fun v => v.visits.findSome? Visit.fault? := by
  induction items with
  | nil => rfl
  | cons v rest ih =>
    rw [itemVisits, List.findSome?_append, ih, List.findSome?_cons]
    cases v.visits.findSome? Visit.fault? <;> rfl

theorem findSome?_entryVisits (entries : List (Key × Value)) :
    (entryVisits entries).findSome? Visit.fault? =
      entries.findSome? fun e => e.1.fault?.or (e.2.visits.findSome? Visit.fault?) := by
  induction entries with
  | nil => rfl
  | cons e rest ih =>
    rw [entryVisits, List.findSome?_cons, List.findSome?_append, ih, List.findSome?_cons]
    simp only [Visit.fault?]
    cases e.1.fault? with
    | some fault => rfl
    | none => cases e.2.visits.findSome? Visit.fault? <;> rfl

/-- The fault of a value that is not too deep is that of the first key or node that has one. -/
theorem fault?_eq_findSome? {room : Nat} (hroom : room ≤ nestingRoom) {v : Value}
    (hv : v.depth ≤ room) : v.fault? room = v.visits.findSome? Visit.fault? := by
  induction v using nodeInduction generalizing room with
  | int n =>
    simp only [fault?, Tally.fault?, infer, visits, List.findSome?_cons, Visit.fault?, nodeFault?,
      Nat.pow_eq]
    by_cases hlong : 10 ^ digitLimit ≤ n.natAbs
    · simp only [intText_of_le hlong, decide_eq_true hlong]
      cases fitsInt64 n <;> rfl
    · simp only [intText_of_lt (Nat.not_le.mp hlong), decide_eq_false hlong]
      cases fitsInt64 n <;> rfl
  | decimal d => cases d <;> rfl
  | list items ih =>
    cases room with
    | zero => exact absurd hv (Nat.not_succ_le_zero _)
    | succ room =>
      have hle : room ≤ nestingRoom := Nat.le_of_succ_le hroom
      have hitems := itemsDepth_le_iff.mp (Nat.le_of_succ_le_succ hv)
      rw [fault?_list hle, visits, List.findSome?_cons, findSome?_itemVisits]
      exact findSome?_congr fun v hmem => ih v hmem hle (hitems v hmem)
  | dict entries ih =>
    cases room with
    | zero => exact absurd hv (Nat.not_succ_le_zero _)
    | succ room =>
      have hle : room ≤ nestingRoom := Nat.le_of_succ_le hroom
      have hentries := entriesDepth_le_iff.mp (Nat.le_of_succ_le_succ hv)
      rw [fault?_dict, visits, List.findSome?_cons, findSome?_entryVisits]
      exact findSome?_congr fun e he => congrArg e.1.fault?.or (ih e he hle (hentries e he))
  | _ => rfl

end Value

/-! ### What is merged -/

namespace Shape

/-- A shape that holds nothing on which a merge would fail. -/
structure Mergeable (s : Shape) : Prop where
  /-- Every node is a shape. -/
  genuine : ∀ x, ¬ s.IsNode (foreign x)
  /-- Integers have 64 bits, and their bounds stay finite as floats. -/
  finite : ∀ r, s.IsNode (int r) → Value.fitsInt64 r.lo = true ∧ Value.fitsInt64 r.hi = true ∧
    ∃ x, r.toBinary64.toRat? = some x

theorem FitsLevels.mergeable {n : Nat} {s : Shape} (h : s.FitsLevels n) : s.Mergeable := by
  refine ⟨fun x hx => ?_, fun r hr => ?_⟩
  · exact Bool.false_ne_true (everywhere_of_isNode h.flat hx)
  · obtain ⟨hlo, hhi⟩ := isNarrow_int_iff.mp (everywhere_of_isNode h.narrow hr)
    obtain ⟨a, ha⟩ := Binary64.exists_rounds (natAbs_le_of_fitsInt64 hlo)
    obtain ⟨b, hb⟩ := Binary64.exists_rounds (natAbs_le_of_fitsInt64 hhi)
    exact ⟨hlo, hhi, ⟨a, b⟩, Range.toRat?_eq_some_iff.mpr ⟨ha.toRat?_ofInt, hb.toRat?_ofInt⟩⟩

end Shape

namespace Value

/-- Two shapes that inference merges within some room, at some count: that around the values up to
some place of a list, and that of the value there. -/
def Meet (room : Nat) (a b : Shape) (merges : Nat) : Prop :=
  ∃ vs v before between, (inferOnto room .unknown vs).on before = (.ok a, between) ∧
    (infer room v).on between = (.ok b, merges)

/-- Inference merges nothing on which a merge would fail. -/
theorem Meet.mergeable {room merges : Nat} {a b : Shape} (hroom : room ≤ nestingRoom)
    (h : Meet room a b merges) :
    a.Mergeable ∧ b.Mergeable ∧ ∃ reached, (a.unify b).on merges = (.ok (a.merge b), reached) := by
  obtain ⟨vs, v, before, between, hvs, hv⟩ := h
  obtain rfl := eq_foldl_of_on_inferOnto (fun w _ => w.settled) hvs
  obtain rfl := v.settled hv
  have haround : (Shape.around (vs.map shape)).FitsLevels nestingRoom :=
    Shape.FitsLevels.around (List.forall_mem_map.mpr fun w hw =>
      (succeeds_of_on_inferOnto hvs w hw).fitsLevels.mono hroom)
  have hsucceeds : v.Succeeds room := ⟨between, v.shape, merges, hv⟩
  have hshape := hsucceeds.fitsLevels
  exact ⟨haround.mergeable, hshape.mergeable, Shape.on_unify_of_fitsLevels haround hshape merges⟩

end Value

/-- Inference of a value that is not too deep fails with the fault of the first key or node that has
one and finds the shape of the value if there is none, for no merge fails on the way. -/
theorem on_infer_findSome? {v : Value} (hv : v.depth ≤ Value.nestingRoom) (merges : Nat) :
    (∃ reached, (infer v).on merges =
      ((v.visits.findSome? Visit.fault?).elim (.ok v.shape) .error, reached)) ∧
        ∀ room a b counted, room ≤ Value.nestingRoom → Value.Meet room a b counted →
          a.Mergeable ∧ b.Mergeable ∧
            ∃ reached, (a.unify b).on counted = (.ok (a.merge b), reached) := by
  refine ⟨?_, fun _ _ _ _ hroom hmeet => hmeet.mergeable hroom⟩
  rw [← Value.fault?_eq_findSome? le_rfl hv]
  exact v.exists_on_infer Value.nestingRoom merges

/-- A dictionary with three faults. The signaling NaN stands first. -/
def faultyEntries : Value :=
  .dict [(.int 1, .list [.null, .int 0x10000000000000000, .text "é"]),
    (.null, .dict [(.text "a", .list [.float (.ofInt 2), .decimal .signalingNaN,
      .foreign "object"])]),
    (.bool true, .illFormedText [0xD800])]

theorem on_infer_faultyEntries :
    faultyEntries.depth ≤ Value.nestingRoom ∧
      (∃ reached, (infer faultyEntries).on 0 = (.error .signalingNaN, reached)) ∧
        ∀ room a b counted, room ≤ Value.nestingRoom → Value.Meet room a b counted →
          a.Mergeable ∧ b.Mergeable ∧
            ∃ reached, (a.unify b).on counted = (.ok (a.merge b), reached) := by
  have hdepth : faultyEntries.depth ≤ Value.nestingRoom := by decide
  have hfirst : faultyEntries.visits.findSome? Visit.fault? = some .signalingNaN := by
    decide +kernel
  have hrun := on_infer_findSome? hdepth 0
  rw [hfirst] at hrun
  exact ⟨hdepth, hrun⟩

end JsonShape
