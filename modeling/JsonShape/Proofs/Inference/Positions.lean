import JsonShape.Proofs.Inference.Records
import JsonShape.Proofs.Shape.Skeleton

/-!
Places in an inferred shape and the values that occur there. A field that some dictionary at a place
lacks admits null there: it bears an optional mark, unless it is an any shape that came out of the
merge of two lists, where an any shape absorbs the mark.
-/

set_option autoImplicit false

namespace JsonShape

/-- A way down by one node: to the elements of a list, below an optional mark, or to a field. -/
inductive Descent
  | item
  | child
  | field (name : String)
  deriving DecidableEq

/-- The shape at a place. -/
def Shape.at? : Shape → List Descent → Option Shape
  | s, [] => some s
  | list _ item, .item :: p => item.at? p
  | optional child, .child :: p => child.at? p
  | record fields, .field name :: p => ((record fields).get? name).bind (·.at? p)
  | _, _ :: _ => none

/-- The values that occur at a place. Null has nothing below its mark. -/
def Value.valuesAt : Value → List Descent → List Value
  | v, [] => [v]
  | list items, .item :: p => items.flatMap (·.valuesAt p)
  | null, .child :: _ => []
  | v, .child :: p => v.valuesAt p
  | v, .field name :: p => (v.get? name).elim [] (·.valuesAt p)
  | _, _ :: _ => []

namespace Shape

theorem at?_item {c s : Shape} {p : List Descent} (h : c.at? (.item :: p) = some s) :
    ∃ r item, c = list r item ∧ item.at? p = some s := by
  cases c with
  | list r item => exact ⟨r, item, rfl, h⟩
  | _ => exact absurd h (Option.some_ne_none s).symm

theorem at?_child {c s : Shape} {p : List Descent} (h : c.at? (.child :: p) = some s) :
    ∃ child, c = optional child ∧ child.at? p = some s := by
  cases c with
  | optional child => exact ⟨child, rfl, h⟩
  | _ => exact absurd h (Option.some_ne_none s).symm

theorem at?_field {c s : Shape} {name : String} {p : List Descent}
    (h : c.at? (.field name :: p) = some s) :
    ∃ fields f, c = record fields ∧ f ∈ fields ∧ f.1 = name ∧ f.2.at? p = some s := by
  cases c with
  | record fields =>
    change ((record fields).get? name).bind (·.at? p) = some s at h
    obtain ⟨_, hget, h⟩ := Option.bind_eq_some_iff.mp h
    obtain ⟨f, hfind, rfl⟩ := Option.map_eq_some_iff.mp hget
    have hname := List.find?_some hfind
    exact ⟨fields, f, rfl, List.mem_of_find?_eq_some hfind, by simpa using hname, h⟩
  | _ => exact absurd h (Option.some_ne_none s).symm

theorem get?_skeleton (s : Shape) (name : String) :
    s.skeleton.get? name = (s.get? name).map skeleton := by
  cases s with
  | record fields =>
    rw [skeleton_record]
    simp only [get?, List.find?_map, Option.map_map]
    rfl
  | _ => rfl

theorem at?_skeleton (s : Shape) (p : List Descent) :
    s.skeleton.at? p = (s.at? p).map skeleton := by
  induction p generalizing s with
  | nil => rfl
  | cons step p ih =>
    cases s with
    | record fields =>
      cases step with
      | field name =>
        change ((record fields).skeleton.get? name).bind (·.at? p) =
          (((record fields).get? name).bind (·.at? p)).map skeleton
        rw [get?_skeleton]
        cases (record fields).get? name with
        | none => rfl
        | some c => exact ih c
      | _ => rfl
    | list r item =>
      cases step with
      | item => exact ih item
      | _ => rfl
    | optional child =>
      cases step with
      | child => exact ih child
      | _ => rfl
    | _ => cases step <;> rfl

end Shape

namespace Value

theorem mem_valuesAt_item {v w : Value} {p : List Descent} (h : w ∈ v.valuesAt (.item :: p)) :
    ∃ items u, v = list items ∧ u ∈ items ∧ w ∈ u.valuesAt p := by
  cases v with
  | list items =>
    obtain ⟨u, hu, hw⟩ := List.mem_flatMap.mp h
    exact ⟨items, u, rfl, hu, hw⟩
  | _ => exact absurd h List.not_mem_nil

theorem mem_valuesAt_child {v w : Value} {p : List Descent} (h : w ∈ v.valuesAt (.child :: p)) :
    v ≠ null ∧ w ∈ v.valuesAt p := by
  cases v with
  | null => exact absurd h List.not_mem_nil
  | _ => exact ⟨by simp, h⟩

theorem mem_valuesAt_field {v w : Value} {name : String} {p : List Descent}
    (h : w ∈ v.valuesAt (.field name :: p)) : ∃ u, v.get? name = some u ∧ w ∈ u.valuesAt p := by
  change w ∈ (v.get? name).elim [] (·.valuesAt p) at h
  cases hu : v.get? name with
  | none => simp [hu] at h
  | some u => exact ⟨u, rfl, by simpa [hu] using h⟩

theorem isJson_of_mem_valuesAt {v w : Value} {p : List Descent} (hv : v.isJson = true)
    (hw : w ∈ v.valuesAt p) : w.isJson = true := by
  induction p generalizing v with
  | nil =>
    rw [List.mem_singleton.mp hw]
    exact hv
  | cons step p ih =>
    cases step with
    | item =>
      obtain ⟨items, u, rfl, hu, hw⟩ := mem_valuesAt_item hw
      exact ih (isJson_list_iff.mp hv u hu) hw
    | child => exact ih hv (mem_valuesAt_child hw).2
    | field name =>
      obtain ⟨u, hu, hw⟩ := mem_valuesAt_field hw
      exact ih (isJson_of_get? hv hu) hw

theorem wellFormed_skeletons {vs : List Value} (hvs : ∀ v ∈ vs, v.isJson = true) :
    ∀ s ∈ (vs.map shape).map Shape.skeleton, s.WellFormed :=
  List.forall_mem_map.mpr fun s hs => Shape.wellFormed_skeleton (isTidy_shapes hvs s hs)

/-- What lies above the skeleton of a value lies, at every place, above those of the values
there. -/
theorem skeleton_le_of_mem_valuesAt {v w : Value} {c s : Shape} {p : List Descent}
    (hv : v.isJson = true) (hc : c.isTidy = true) (hle : v.shape.skeleton ≤ c)
    (hs : c.at? p = some s) (hw : w ∈ v.valuesAt p) : w.shape.skeleton ≤ s := by
  induction p generalizing v c with
  | nil =>
    rw [List.mem_singleton.mp hw, ← Option.some.inj hs]
    exact hle
  | cons step p ih =>
    cases step with
    | item =>
      obtain ⟨r, item, rfl, hs⟩ := Shape.at?_item hs
      obtain ⟨items, u, rfl, hu, hw⟩ := mem_valuesAt_item hw
      have hjson := isJson_list_iff.mp hv
      rw [shape_list, Shape.skeleton, Shape.list_le_list, Shape.skeleton_around,
        Shape.around_le_iff (wellFormed_skeletons hjson) (by simpa using hc)] at hle
      refine ih (hjson u hu) (by simpa using hc) (hle.2 _ ?_) hs hw
      exact List.mem_map_of_mem (List.mem_map_of_mem hu)
    | child =>
      obtain ⟨child, rfl, hs⟩ := Shape.at?_child hs
      obtain ⟨hnull, hw⟩ := mem_valuesAt_child hw
      rw [Shape.isTidy_optional_iff] at hc
      have hmark : v.shape.skeleton.isOptional = false := by
        -- Only null has a mark of its own, and nothing is below it.
        rw [Shape.isOptional_skeleton, isOptional_shape hv hnull]
      exact ih hv hc.2 ((Shape.le_optional hmark).mp hle) hs hw
    | field name =>
      obtain ⟨fields, f, rfl, hf, rfl, hfs⟩ := Shape.at?_field hs
      obtain ⟨u, hu, hw⟩ := mem_valuesAt_field hw
      obtain ⟨hnames, hfields⟩ := Shape.isTidy_record_iff.mp hc
      have hcell : v.shape.skeleton.get? f.1 = some u.shape.skeleton := by
        rw [Shape.get?_skeleton, get?_shape hv, hu]
        rfl
      exact ih (isJson_of_get? hv hu) (hfields f hf) (Shape.le_of_get? hnames hle hf hcell) hfs hw

/-- A list, whatever its elements are. -/
def isList : Value → Bool
  | list _ => true
  | _ => false

/-- On the way to a place two lists or more have their elements merged. -/
def ListsMeet (vs : List Value) (p : List Descent) : Prop :=
  ∃ q r, p = q ++ .item :: r ∧ 1 < (vs.flatMap (·.valuesAt q)).countP isList

theorem flatMap_valuesAt_nil (vs : List Value) : vs.flatMap (·.valuesAt []) = vs :=
  List.flatMap_singleton' vs

/-- Null takes part in nothing that lies below it. -/
theorem flatMap_valuesAt_nonNull (vs : List Value) (step : Descent) (q : List Descent) :
    vs.flatMap (·.valuesAt (step :: q)) = (nonNull vs).flatMap (·.valuesAt (step :: q)) := by
  induction vs with
  | nil => rfl
  | cons v rest ih =>
    by_cases hnull : v = null
    · subst hnull
      have hnone : null.valuesAt (step :: q) = [] := by
        cases step <;> rfl
      rw [List.flatMap_cons, hnone, ih]
      rfl
    · have hkept : nonNull (v :: rest) = v :: nonNull rest := by
        cases v <;> simp_all [nonNull, isNull]
      rw [hkept, List.flatMap_cons, List.flatMap_cons, ih]

theorem valuesAt_child {v : Value} (hnull : v ≠ null) (q : List Descent) :
    v.valuesAt (.child :: q) = v.valuesAt q := by
  cases v with
  | null => exact absurd rfl hnull
  | _ => rfl

theorem flatMap_valuesAt_field (vs : List Value) (name : String) (q : List Descent) :
    vs.flatMap (·.valuesAt (.field name :: q)) =
      (vs.filterMap (·.get? name)).flatMap (·.valuesAt q) := by
  induction vs with
  | nil => rfl
  | cons v rest ih =>
    rw [List.flatMap_cons, ih]
    change (v.get? name).elim [] (·.valuesAt q) ++ _ = _
    cases hv : v.get? name with
    | none => simp [hv]
    | some u => simp [hv]

/-- Values that merge into a list are lists, and if lists do not meet there is only one. -/
theorem eq_singleton_of_around_list {vs : List Value} (hvs : ∀ v ∈ vs, v.isJson = true)
    {r : Range Int} {item : Shape} (h : Shape.around (vs.map shape) = .list r item)
    (hcount : ¬ 1 < vs.countP isList) :
    ∃ items, vs = [list items] ∧ item = Shape.around (items.map shape) := by
  have hkind := kind?_shape_of_around hvs (by rw [h]; rfl)
  have hlist : ∀ v ∈ vs, v.isList = true := by
    intro v hv
    have hv' := hkind v hv
    cases v, hvs v hv using jsonInduction <;> simp_all [shape, Shape.kind?, isList]
  rw [List.countP_eq_length.mpr hlist] at hcount
  rcases vs with _ | ⟨v, _ | ⟨w, rest⟩⟩
  · simp [Shape.around] at h
  · cases v with
    | list items =>
      simp only [List.map_singleton, Shape.around, List.foldl_cons, List.foldl_nil,
        Shape.merge_unknown_left] at h
      rw [shape_list] at h
      cases h
      exact ⟨items, rfl, rfl⟩
    | _ => simp [isList] at hlist
  · simp at hcount

/-- Some values are those that others have below one step. -/
structure Below (vs : List Value) (step : Descent) (below : List Value) : Prop where
  json : ∀ v ∈ below, v.isJson = true
  values : ∀ q, vs.flatMap (·.valuesAt (step :: q)) = below.flatMap (·.valuesAt q)

/-- Where lists meet below one step they meet on the way from above it. -/
theorem Below.listsMeet {vs below : List Value} {step : Descent} (h : Below vs step below)
    {p : List Descent} (hmeet : ListsMeet below p) : ListsMeet vs (step :: p) := by
  obtain ⟨q, r, rfl, hcount⟩ := hmeet
  exact ⟨step :: q, r, rfl, by rwa [h.values q]⟩

theorem isJson_of_mem_nonNull {vs : List Value} (hvs : ∀ v ∈ vs, v.isJson = true) :
    ∀ v ∈ nonNull vs, v.isJson = true :=
  fun v hv => hvs v (mem_nonNull.mp hv).1

theorem below_child {vs : List Value} (hvs : ∀ v ∈ vs, v.isJson = true) {child : Shape}
    (hs : (Shape.optional child).UpToMark (Shape.around (vs.map shape))) :
    Below vs .child (nonNull vs) ∧ child = Shape.around ((nonNull vs).map shape) := by
  refine ⟨⟨isJson_of_mem_nonNull hvs, fun q => ?_⟩, ?_⟩
  · rw [flatMap_valuesAt_nonNull]
    exact List.flatMap_congr fun v hv => valuesAt_child (mem_nonNull.mp hv).2 q
  · exact (hs.trans (upToMark_around vs)).eq_of_optional (isOptional_around_nonNull hvs)

/-- If lists do not meet, the elements have the merge of a single list's. -/
theorem exists_below_item {vs : List Value} (hvs : ∀ v ∈ vs, v.isJson = true)
    (hcount : ¬ 1 < vs.countP isList) {r : Range Int} {item : Shape}
    (hs : (Shape.list r item).UpToMark (Shape.around (vs.map shape))) :
    ∃ items, Below vs .item items ∧ item = Shape.around (items.map shape) := by
  have hsublist : (nonNull vs).Sublist vs := List.filter_sublist
  obtain ⟨items, hsingle, hitem⟩ := eq_singleton_of_around_list (isJson_of_mem_nonNull hvs)
    ((hs.trans (upToMark_around vs)).eq_of_isOptional rfl).symm
    fun hmeet => hcount (hmeet.trans_le hsublist.countP_le)
  have hlist : list items ∈ nonNull vs := by
    rw [hsingle]
    exact List.mem_singleton_self _
  refine ⟨items, ⟨isJson_list_iff.mp (isJson_of_mem_nonNull hvs _ hlist), fun q => ?_⟩, hitem⟩
  rw [flatMap_valuesAt_nonNull, hsingle, List.flatMap_singleton]
  rfl

/-- The dictionaries whose merge is a record have, under a name, the values of one column. -/
theorem below_field {vs : List Value} (hvs : ∀ v ∈ vs, v.isJson = true) {fields : List Field}
    (hs : (Shape.record fields).UpToMark (Shape.around (vs.map shape))) {f : Field}
    (hf : f ∈ fields) :
    Below vs (.field f.1) ((nonNull vs).filterMap (·.get? f.1)) ∧
      f.2.UpToMark (Shape.around (((nonNull vs).filterMap (·.get? f.1)).map shape)) := by
  have hjson := isJson_of_mem_nonNull hvs
  obtain ⟨dicts, hdicts, htable⟩ := isTable_of_around hjson
    ((hs.trans (upToMark_around vs)).eq_of_isOptional rfl).symm
  refine ⟨⟨fun c hc => ?_, fun q => ?_⟩, ?_⟩
  · obtain ⟨d, hd, hc⟩ := List.mem_filterMap.mp hc
    exact isJson_of_get? (hjson d hd) hc
  · rw [flatMap_valuesAt_nonNull, flatMap_valuesAt_field]
  · rw [hdicts] at hjson ⊢
    rw [htable.shapes f hf, ← column_entryFields (List.forall_mem_map.mp hjson)]
    exact Shape.upToMark_columnShape _ _

private theorem isOptional_of_lacks_here {vs : List Value} (hvs : ∀ v ∈ vs, v.isJson = true)
    {fields : List Field} (hs : (Shape.record fields).UpToMark (Shape.around (vs.map shape)))
    {entries : List (Key × Value)} (hentries : dict entries ∈ vs) {f : Field} (hf : f ∈ fields)
    (hlacks : .text f.1 ∉ entries.map Prod.fst) : f.2.isOptional = true := by
  obtain ⟨dicts, hdicts, htable⟩ := isTable_of_around (isJson_of_mem_nonNull hvs)
    ((hs.trans (upToMark_around vs)).eq_of_isOptional rfl).symm
  have hmem : dict entries ∈ nonNull vs := mem_nonNull.mpr ⟨hentries, by simp⟩
  rw [hdicts] at hmem
  obtain ⟨d, hd, heq⟩ := List.mem_map.mp hmem
  cases heq
  have htext := (isJson_dict_iff.mp (hvs _ hentries)).1.1
  rw [htable.shapes f hf]
  refine Shape.isOptional_columnShape (List.mem_map_of_mem hd) ?_
  rwa [mem_names_entryFields htext]

/-- Where no lists have met, a field that some dictionary lacks bears a mark. -/
theorem isOptional_of_lacks {p : List Descent} {vs : List Value} (hp : ¬ ListsMeet vs p)
    (hvs : ∀ v ∈ vs, v.isJson = true) {s : Shape}
    (hs : s.UpToMark (Shape.around (vs.map shape))) {fields : List Field}
    (hat : s.at? p = some (.record fields)) {entries : List (Key × Value)}
    (hentries : dict entries ∈ vs.flatMap (·.valuesAt p)) {f : Field} (hf : f ∈ fields)
    (hlacks : .text f.1 ∉ entries.map Prod.fst) : f.2.isOptional = true := by
  -- Every step leads from a merge of values to the merge of the values below, up to a mark.
  induction p generalizing vs s with
  | nil =>
    obtain rfl := Option.some.inj hat
    rw [flatMap_valuesAt_nil] at hentries
    exact isOptional_of_lacks_here hvs hs hentries hf hlacks
  | cons step p ih =>
    cases step with
    | item =>
      obtain ⟨r, item, rfl, hat⟩ := Shape.at?_item hat
      have hcount : ¬ 1 < vs.countP isList := fun hmeet =>
        hp ⟨[], p, rfl, by rwa [flatMap_valuesAt_nil]⟩
      obtain ⟨items, hbelow, hitem⟩ := exists_below_item hvs hcount hs
      rw [hbelow.values] at hentries
      exact ih (fun hmeet => hp (hbelow.listsMeet hmeet)) hbelow.json (.inl hitem) hat hentries
    | child =>
      obtain ⟨child, rfl, hat⟩ := Shape.at?_child hat
      obtain ⟨hbelow, hchild⟩ := below_child hvs hs
      rw [hbelow.values] at hentries
      exact ih (fun hmeet => hp (hbelow.listsMeet hmeet)) hbelow.json (.inl hchild) hat hentries
    | field name =>
      obtain ⟨own, g, rfl, hg, rfl, hgat⟩ := Shape.at?_field hat
      obtain ⟨hbelow, hcell⟩ := below_field hvs hs hg
      rw [hbelow.values] at hentries
      exact ih (fun hmeet => hp (hbelow.listsMeet hmeet)) hbelow.json hcell hgat hentries

/-- At a place of the shape around some values lies what lies there above each value there. The
values may hold NaN, which lies below nothing, so that this is about skeletons. -/
theorem skeleton_le_of_at? {p : List Descent} {vs : List Value} (hvs : ∀ v ∈ vs, v.isJson = true)
    {s : Shape} (hat : (Shape.around (vs.map shape)).at? p = some s) {w : Value}
    (hw : w ∈ vs.flatMap (·.valuesAt p)) : w.shape.skeleton ≤ s.skeleton := by
  obtain ⟨v, hv, hw⟩ := List.mem_flatMap.mp hw
  have hbound : v.shape.skeleton ≤ (Shape.around (vs.map shape)).skeleton := by
    rw [Shape.skeleton_around]
    exact Shape.le_around (wellFormed_skeletons hvs) (List.mem_map_of_mem (List.mem_map_of_mem hv))
  have hplace : (Shape.around (vs.map shape)).skeleton.at? p = some s.skeleton := by
    rw [Shape.at?_skeleton, hat]
    rfl
  exact skeleton_le_of_mem_valuesAt (hvs v hv)
    (Shape.isTidy_skeleton (Shape.isTidy_around (isTidy_shapes hvs))) hbound hplace hw

/-- A field that some dictionary lacks admits null, whatever has been merged. -/
theorem isNullable_of_lacks {p : List Descent} {vs : List Value} (hvs : ∀ v ∈ vs, v.isJson = true)
    {fields : List Field} (hat : (Shape.around (vs.map shape)).at? p = some (.record fields))
    {entries : List (Key × Value)} (hentries : dict entries ∈ vs.flatMap (·.valuesAt p))
    {f : Field} (hf : f ∈ fields) (hlacks : .text f.1 ∉ entries.map Prod.fst) :
    f.2.isNullable = true := by
  have hle := skeleton_le_of_at? hvs hat hentries
  rw [shape_dict, Shape.skeleton_record, Shape.skeleton_record, Shape.record_le_record] at hle
  obtain ⟨v, hv, hw⟩ := List.mem_flatMap.mp hentries
  have htext := (isJson_dict_iff.mp (isJson_of_mem_valuesAt (hvs v hv) hw)).1.1
  have hnullable := hle.2 _ (List.mem_map_of_mem hf) (by
    rw [List.map_map]
    exact fun hmem => hlacks ((mem_names_entryFields htext).mp hmem))
  rwa [Prod.map_snd, Shape.isNullable_skeleton] at hnullable

end Value

/-- A field of the inferred shape that some dictionary at its place lacks bears a mark, or it is an
any shape where lists have met. -/
theorem isOptional_or_any_of_lacks {vs : List Value} (hvs : ∀ v ∈ vs, v.isJson = true)
    {merges reached : Nat} {s : Shape} (h : (inferMany vs).on merges = (.ok s, reached))
    {p : List Descent} {fields : List Field} (hat : s.at? p = some (.record fields))
    {entries : List (Key × Value)} (hentries : .dict entries ∈ vs.flatMap (·.valuesAt p))
    {f : Field} (hf : f ∈ fields) (hlacks : .text f.1 ∉ entries.map Prod.fst) :
    f.2.isOptional = true ∨ f.2 = .any ∧ Value.ListsMeet vs p := by
  obtain rfl := eq_around_of_on_inferMany h
  by_cases hp : Value.ListsMeet vs p
  · have hnullable := Value.isNullable_of_lacks hvs hat hentries hf hlacks
    cases hshape : f.2 with
    | any => exact .inr ⟨rfl, hp⟩
    | optional c => exact .inl rfl
    | _ => simp [hshape, Shape.isNullable] at hnullable
  · exact .inl (Value.isOptional_of_lacks hp hvs (.inl rfl) hat hentries hf hlacks)

/-- A list of dictionaries, one without a field, beside a null and a dictionary without the list. -/
def sparseRows : List Value :=
  [.dict [(.text "a", .list [.dict [(.text "x", .int 1)], .dict []])], .dict [(.text "a", .null)],
    .dict []]

/-- The shape around these dictionaries. -/
def sparseShape : Shape :=
  .record [("a", .optional (.list (.point 2) (.record [("x", .optional (.int (.point 1)))])))]

theorem isOptional_of_sparseRows :
    (∀ v ∈ sparseRows, v.isJson = true) ∧
      (inferMany sparseRows).on 0 = (.ok sparseShape, 7) ∧
      sparseShape.at? [.field "a", .child, .item] =
        some (.record [("x", .optional (.int (.point 1)))]) ∧
      .dict [] ∈ sparseRows.flatMap (·.valuesAt [.field "a", .child, .item]) ∧
      .text "x" ∉ ([] : List (Key × Value)).map Prod.fst ∧
      (Shape.optional (.int (.point 1))).isOptional = true := by
  have hjson : ∀ v ∈ sparseRows, v.isJson = true := by decide
  have hrun : (inferMany sparseRows).on 0 = (.ok sparseShape, 7) := rfl
  have hlacking : .dict [] ∈ sparseRows.flatMap (·.valuesAt [.field "a", .child, .item]) := by
    simp [sparseRows, Value.valuesAt, Value.get?]
  refine ⟨hjson, hrun, rfl, hlacking, by simp, ?_⟩
  have hlacks := isOptional_or_any_of_lacks hjson hrun rfl hlacking (f := ("x", _))
    List.mem_cons_self (by simp)
  exact hlacks.resolve_right (by simp)

/-- Two lists: in one of them a dictionary lacks a field, in the other the field has two kinds. -/
def pairedLists : List Value :=
  [.list [.dict [(.text "x", .int 1)], .dict []],
    .list [.dict [(.text "x", .int 1)], .dict [(.text "x", .text "s")]]]

theorem on_inferMany_pairedLists :
    (inferMany pairedLists).on 0 = (.ok (.list (.point 2) (.record [("x", .any)])), 9) := rfl

/-- A field that some dictionary lacks need not bear a mark. -/
theorem not_isOptional_of_lacks :
    ¬ ∀ vs : List Value, (∀ v ∈ vs, v.isJson = true) →
      ∀ s reached, (inferMany vs).on 0 = (.ok s, reached) →
        ∀ p fields, s.at? p = some (.record fields) →
          ∀ entries, .dict entries ∈ vs.flatMap (·.valuesAt p) →
            ∀ f ∈ fields, .text f.1 ∉ entries.map Prod.fst → f.2.isOptional = true := by
  intro h
  have hlacking : Value.dict [] ∈ pairedLists.flatMap (·.valuesAt [.item]) := by
    simp [pairedLists, Value.valuesAt]
  have hmark := h pairedLists (by decide) _ _ on_inferMany_pairedLists [.item] _ rfl [] hlacking
    ("x", .any) (by simp) (by simp)
  simp [Shape.isOptional] at hmark

end JsonShape
