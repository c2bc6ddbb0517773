import JsonShape.Proofs.Shape.Genuine
import JsonShape.Proofs.Shape.Placement

/-!
The merge of two records puts every field of either where it belongs. Matched fields share one
place, those of the left record keep their order, and each other field of the right one stands
behind its nearest matched predecessor, or behind all else.
-/

set_option autoImplicit false

namespace JsonShape

/-- A list of origins has the order in which the merge of two records lists their fields. -/
structure Placed (fields others : List Field) (origins : List Origin) : Prop where
  nodup : origins.Nodup
  ordered : origins.filterMap Origin.left? = List.range fields.length
  mem_both : ∀ i j, .both i j ∈ origins ↔ Matched fields others i j
  mem_left : ∀ i, .left i ∈ origins ↔ i < fields.length ∧ ∀ j, ¬ Matched fields others i j
  mem_right : ∀ j, .right j ∈ origins ↔ j < others.length ∧ ∀ i, ¬ Matched fields others i j
  /-- Behind a matched field stand the others that follow it in the right record. -/
  spliced : ∀ i k j, Matched fields others i k → k < j → j < others.length →
    (∀ m, k < m → m ≤ j → ∀ i', ¬ Matched fields others i' m) →
      (.both i k :: (List.range' (k + 1) (j - k)).map .right) <:+: origins
  /-- At the end stand those in front of the first matched field of the right record. -/
  appended : ∃ p, (List.range p).map .right <:+ origins ∧
    (∀ m < p, ∀ i, ¬ Matched fields others i m) ∧
      (p = others.length ∨ ∃ i, Matched fields others i p)

namespace Origin

/-- An origin in both records counts for each of them, any other for one. -/
theorem length_lefts_add_length_rights (origins : List Origin) :
    (origins.filterMap left?).length + (origins.filterMap right?).length =
      origins.length + (origins.filterMap both?).length := by
  induction origins with
  | nil => rfl
  | cons o rest ih =>
    cases o <;> simp only [List.filterMap_cons, left?, right?, both?, List.length_cons] <;> omega

theorem mem_filterMap_both {origins : List Origin} {i j : Nat} :
    (i, j) ∈ origins.filterMap both? ↔ .both i j ∈ origins := by
  rw [List.mem_filterMap]
  constructor
  · rintro ⟨o, ho, hboth⟩
    cases o with
    | both i' j' =>
      obtain ⟨rfl, rfl⟩ := Prod.mk.inj (Option.some.inj hboth)
      exact ho
    | left i' => cases hboth
    | right j' => cases hboth
  · exact fun h => ⟨_, h, rfl⟩

theorem nodup_filterMap_both {origins : List Origin} (h : origins.Nodup) :
    (origins.filterMap both?).Nodup := by
  refine h.filterMap fun o o' pair ho ho' => ?_
  cases o <;> cases o' <;> cases ho <;> cases ho'
  rfl

end Origin

theorem Interleaves.length_add_length {fields others : List Field} {origins : List Origin}
    (h : Interleaves fields others origins) :
    origins.length + (origins.filterMap Origin.both?).length = fields.length + others.length := by
  rw [← Origin.length_lefts_add_length_rights, h.lefts, h.rights.length_eq, List.length_range,
    List.length_range]

namespace Shape

theorem placed_origins (fields others : List Field) :
    Placed fields others (origins fields others) where
  nodup := (interleaves_origins fields others).nodup
  ordered := (interleaves_origins fields others).lefts
  mem_both := (interleaves_origins fields others).mem_both
  mem_left := (interleaves_origins fields others).mem_left
  mem_right := (interleaves_origins fields others).mem_right
  spliced _ _ _ h _ hj hbetween := infix_origins h hj hbetween
  appended := suffix_origins fields others

/-- Two records without foreign nodes have a merge, unless they are together higher than the room
for nesting, or an integer of more than 64 bits is too large to widen. Every field of it stems from
its origin, the origins stand in their order, and matched fields count once. -/
theorem on_unify_records {fields others : List Field} (hfields : ∀ f ∈ fields, f.2.isGenuine = true)
    (hothers : ∀ g ∈ others, g.2.isGenuine = true) (merges : Nat) :
    (∃ (merged : List Field) (origins : List Origin) (pairs : List (Nat × Nat)) (reached : Nat),
      ((record fields).unify (record others)).on merges = (.ok (record merged), reached) ∧
        Placed fields others origins ∧ List.Forall₂ (Stems fields others) origins merged ∧
          pairs.Nodup ∧ (∀ i j, (i, j) ∈ pairs ↔ Matched fields others i j) ∧
            merged.length + pairs.length = fields.length + others.length) ∨
      nestingRoom ≤ (record fields).height + (record others).height ∧
        (∃ reached, ((record fields).unify (record others)).on merges =
          (.error .tooDeep, reached)) ∨
      ¬ ((record fields).isNarrow = true ∧ (record others).isNarrow = true) ∧
        ∃ reached, ((record fields).unify (record others)).on merges =
          (.error .overflow, reached) := by
  rcases on_unify_of_isGenuine (isGenuine_record_iff.mpr hfields)
    (isGenuine_record_iff.mpr hothers) merges with ⟨reached, hon⟩ | hfails
  · rw [merge_record_record] at hon
    have horigins := interleaves_origins fields others
    have hstems := stems_origins fields others
    refine .inl ⟨_, origins fields others, _, reached, hon, placed_origins fields others, hstems,
      Origin.nodup_filterMap_both horigins.nodup, fun i j => ?_, ?_⟩
    · exact Origin.mem_filterMap_both.trans (horigins.mem_both i j)
    · rw [← hstems.length_eq]
      exact horigins.length_add_length
  · exact .inr hfails

/-- A row with a repeated name. -/
def echoRow : List Field :=
  [("a", bool), ("b", int ⟨1, 2⟩), ("a", text ⟨3, 3⟩), ("c", any)]

/-- A row in which another name is repeated, with further names in front and in between. -/
def crossedRow : List Field :=
  [("x", unknown), ("b", int ⟨-1, 0⟩), ("y", optional bool), ("b", unknown), ("a", optional bool)]

/-- The merge of the two rows. -/
def reconciledRow : List Field :=
  [("a", optional bool), ("b", int ⟨-1, 2⟩), ("y", optional bool), ("b", optional unknown),
    ("a", optional (text ⟨3, 3⟩)), ("c", optional any), ("x", optional unknown)]

theorem on_unify_records_crossedRow :
    (∀ f ∈ echoRow, f.2.isGenuine = true) ∧ (∀ g ∈ crossedRow, g.2.isGenuine = true) ∧
      ∃ (origins : List Origin) (pairs : List (Nat × Nat)) (reached : Nat),
        ((record echoRow).unify (record crossedRow)).on 0 =
          (.ok (record reconciledRow), reached) ∧
          Placed echoRow crossedRow origins ∧
            List.Forall₂ (Stems echoRow crossedRow) origins reconciledRow ∧
              pairs.Nodup ∧ (∀ i j, (i, j) ∈ pairs ↔ Matched echoRow crossedRow i j) ∧
                reconciledRow.length + pairs.length = echoRow.length + crossedRow.length := by
  have hleft : ∀ f ∈ echoRow, f.2.isGenuine = true := by decide
  have hright : ∀ g ∈ crossedRow, g.2.isGenuine = true := by decide
  have hroom : ¬ nestingRoom ≤ (record echoRow).height + (record crossedRow).height := by decide
  have hnarrow : (record echoRow).isNarrow = true ∧ (record crossedRow).isNarrow = true := by decide
  obtain ⟨merged, origins, pairs, reached, hon, hplaced⟩ :=
    (on_unify_records hleft hright 0).resolve_right fun h =>
      h.elim (fun hdeep => hroom hdeep.1) fun hwide => hwide.1 hnarrow
  have hrun : (((record echoRow).unify (record crossedRow)).on 0).1 =
      .ok (record reconciledRow) := rfl
  obtain rfl : merged = reconciledRow := by
    rw [hon] at hrun
    exact Shape.record.inj (Except.ok.inj hrun)
  exact ⟨hleft, hright, origins, pairs, reached, hon, hplaced⟩

/-- A row with an integer beyond all doubles. -/
def hugeRow : List Field := [("x", int (.point ((10 ^ 200) ^ 2)))]

/-- A row with a float under the same name. -/
def floatRow : List Field := [("x", float (.point (.ofInt 0)))]

/-- Not all records have a merge, even where there is room: an integer may be too large to widen. -/
theorem not_on_unify_records_ok :
    ¬ ∀ fields others : List Field, (∀ f ∈ fields, f.2.isGenuine = true) →
      (∀ g ∈ others, g.2.isGenuine = true) →
        (record fields).height + (record others).height < nestingRoom →
          ∃ merged reached, ((record fields).unify (record others)).on 0 =
            (.ok (record merged), reached) := by
  intro h
  obtain ⟨merged, reached, hrun⟩ := h hugeRow floatRow (by decide) (by decide) (by decide)
  have hhuge : Binary64.holdsInt ((10 ^ 200) ^ 2) = false := by decide +kernel
  have hfits : (Range.point ((10 ^ 200) ^ 2 : Int)).fitsBinary64 = false := by
    rw [Range.fitsBinary64, Range.point, hhuge]
    rfl
  have hwidening : Progress.ofWidening (Range.point ((10 ^ 200) ^ 2 : Int)) =
      ⟨0, some .overflow⟩ := by
    rw [Progress.ofWidening, hfits]
    rfl
  have hprogress : Progress.ofMerge nestingRoom (record hugeRow) (record floatRow) =
      ((Progress.ofWidening (Range.point ((10 ^ 200) ^ 2))).step.andThen fun _ =>
        Progress.done).step := rfl
  have hfault : (Progress.ofMerge nestingRoom (record hugeRow) (record floatRow)).fault =
      some .overflow := by
    rw [hprogress, hwidening]
    rfl
  cases hrun.symm.trans (on_unify_of_fault hfault 0)

end Shape

end JsonShape
