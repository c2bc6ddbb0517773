import JsonShape.Proofs.Json.Written

/-!
What a reading has completed. The open frames hold the values of written trees, and the completed
values are those inside these trees, in order. One token keeps it so, and with it a whole run: an
accepted text is that of a written tree, all values of which are completed.
-/

set_option autoImplicit false

namespace JsonShape.Json

open Written

/-- The place of the next value in some open frames. -/
def placeOn (stack : List Frame) : Place := Reading.place ⟨stack, .value, []⟩

/-- The values completed, latest first, are those inside the trees that the frames hold. -/
inductive Traced : List Frame → List (Place × Value) → Prop
  | top : Traced [] []
  | list {rest : List Frame} {completed : List (Place × Value)} (items : List Written)
      (h : Traced rest completed) :
      Traced (.list (placeOn rest) (items.map value).reverse :: rest)
        (((list items).inside (placeOn rest)).reverse ++ completed)
  | dict {rest : List Frame} {completed : List (Place × Value)}
      (entries : List (String × Written)) (key : String) (h : Traced rest completed) :
      Traced (.dict (placeOn rest) (entries.map (Prod.map id value)).reverse key :: rest)
        (((dict entries).inside (placeOn rest)).reverse ++ completed)

/-- A reading that is underway, or has completed all values of one tree. -/
inductive Faithful : Reading → Prop
  | underway {stack : List Frame} {expected : Expected} {completed : List (Place × Value)}
      (hexpected : expected ≠ .nothing) (h : Traced stack completed) :
      Faithful ⟨stack, expected, completed⟩
  | finished (w : Written) : Faithful ⟨[], .nothing, (w.completions .top).reverse⟩

/-- A tree is completed after the values inside it. -/
theorem faithful_complete {stack : List Frame} {completed : List (Place × Value)}
    (h : Traced stack completed) (expected : Expected) (w : Written) :
    Faithful (Reading.complete
      ⟨stack, expected, (w.inside (placeOn stack)).reverse ++ completed⟩ w.value) := by
  cases h with
  | top =>
    have hdone := Faithful.finished w
    rw [completions, List.reverse_append] at hdone
    simpa [Reading.complete, placeOn, Reading.place] using hdone
  | list items h =>
    refine .underway (by simp) ?_
    have hnext := h.list (items ++ [w])
    rw [inside_list, List.flatMap_append, List.map_append, ← inside_list] at hnext
    simpa [completions, placeOn, Reading.place] using hnext
  | dict entries key h =>
    refine .underway (by simp) ?_
    have hnext := h.dict (entries ++ [(key, w)]) key
    rw [inside_dict, List.flatMap_append, List.map_append, ← inside_dict] at hnext
    simpa [completions, placeOn, Reading.place] using hnext

theorem faithful_close {frame : Frame} {rest : List Frame} {completed : List (Place × Value)}
    (h : Traced (frame :: rest) completed) (expected : Expected) :
    Faithful (Reading.close ⟨frame :: rest, expected, completed⟩ frame rest) := by
  cases h with
  | list items h =>
    have hclosed := faithful_complete h expected (.list items)
    rw [value_list] at hclosed
    simpa [Reading.close, Reading.closed] using hclosed
  | dict entries key h =>
    have hclosed := faithful_complete h expected (.dict entries)
    rw [value_dict] at hclosed
    simpa [Reading.close, Reading.closed, keptEntries] using hclosed

theorem exists_scalar_of_value? {n : NumberToken} {v : Value} (h : n.value? = .ok v) :
    ∃ s : Scalar, v = s.value := by
  unfold NumberToken.value? at h
  split at h
  · simp only at h
    split at h
    · cases h
    · cases h
      exact ⟨.int _, rfl⟩
  · simp only at h
    split at h
    · cases h
      exact ⟨.decimal _ _ _, rfl⟩
    · cases h

theorem faithful_takeValue {stack : List Frame} {expected : Expected}
    {completed : List (Place × Value)} (h : Traced stack completed) {token : Token}
    {next : Reading} (htake : Reading.takeValue ⟨stack, expected, completed⟩ token = .ok next) :
    Faithful next := by
  have hscalar (s : Scalar) := faithful_complete h expected (.scalar s)
  simp only [inside, value, List.reverse_nil, List.nil_append] at hscalar
  cases token with
  | null =>
    cases htake
    exact hscalar .null
  | bool b =>
    cases htake
    exact hscalar (.bool b)
  | number n =>
    simp only [Reading.takeValue] at htake
    cases hn : n.value? with
    | error fault => simp [hn, Except.map] at htake
    | ok v =>
      obtain ⟨s, rfl⟩ := exists_scalar_of_value? hn
      rw [hn] at htake
      cases htake
      exact hscalar s
  | text s =>
    cases s with
    | ok s =>
      cases htake
      exact hscalar (.text s)
    | error f => cases htake
  | openList =>
    cases htake
    exact .underway (by simp) (h.list [])
  | openDict =>
    cases htake
    exact .underway (by simp) (h.dict [] "")
  | _ => cases htake

theorem faithful_takeKey {stack : List Frame} {expected : Expected}
    {completed : List (Place × Value)} (h : Traced stack completed) {token : Token}
    {next : Reading} (htake : Reading.takeKey ⟨stack, expected, completed⟩ token = .ok next) :
    Faithful next := by
  unfold Reading.takeKey at htake
  split at htake
  · next key p entries previous rest heq =>
    cases htake
    simp only at heq
    subst heq
    cases h with
    | dict entries _ h => exact .underway (by simp) (h.dict entries key)
  · cases htake
  · cases htake

theorem faithful_take {stack : List Frame} {expected : Expected}
    {completed : List (Place × Value)} (h : Traced stack completed) {token : Token}
    {next : Reading} (htake : Reading.take ⟨stack, expected, completed⟩ token = .ok next) :
    Faithful next := by
  cases expected with
  | value => exact faithful_takeValue h htake
  | valueOrClose =>
    simp only [Reading.take] at htake
    split at htake
    · cases htake
      exact faithful_close h _
    · exact faithful_takeValue h htake
  | key => exact faithful_takeKey h htake
  | keyOrClose =>
    simp only [Reading.take] at htake
    split at htake
    · cases htake
      exact faithful_close h _
    · exact faithful_takeKey h htake
  | colon =>
    simp only [Reading.take] at htake
    split at htake
    · cases htake
      exact .underway (by simp) h
    · cases htake
  | commaOrClose =>
    simp only [Reading.take] at htake
    split at htake
    · cases htake
      exact .underway (by simp) h
    · cases htake
      exact .underway (by simp) h
    · cases htake
      exact faithful_close h _
    · cases htake
      exact faithful_close h _
    · cases htake
  | nothing => cases htake

theorem exists_written_of_run {r last : Reading} (h : Faithful r) {tokens : List Token}
    (hrun : r.run tokens = (last, none)) :
    ∃ w : Written, last = ⟨[], .nothing, (w.completions .top).reverse⟩ := by
  induction tokens generalizing r with
  | nil =>
    cases h with
    | underway hexpected h => simp [Reading.run, hexpected] at hrun
    | finished w =>
      cases hrun
      exact ⟨w, rfl⟩
  | cons token rest ih =>
    simp only [Reading.run] at hrun
    cases h with
    | underway hexpected h =>
      split at hrun
      · next next htake => exact ih (faithful_take h htake) hrun
      · cases hrun
    | finished w => cases hrun

/-- An accepted text is that of a written tree: the document is its value, and the items are the
values inside it that stand at an item. -/
theorem exists_written_of_document? {bytes : List UInt8} {v : Value}
    (h : document? bytes = .ok v) :
    ∃ w : Written, v = w.value ∧ items bytes = (itemsOf (w.inside .top), none) := by
  rcases hread : read bytes with ⟨last, fault | fault⟩
  · obtain ⟨w, rfl⟩ := exists_written_of_run (.underway (by simp) .top) hread
    have hitems : itemsOf (w.completions .top) = itemsOf (w.inside .top) := by
      rw [completions, itemsOf_append]
      exact List.append_nil _
    refine ⟨w, ?_, ?_⟩
    · simp only [document?, hread, completions, List.reverse_append, List.reverse_singleton,
        List.singleton_append, Except.ok.injEq] at h
      exact h.symm
    · simp only [items, hread, List.reverse_reverse]
      exact congrArg (·, none) hitems
  · simp [document?, hread] at h

theorem isJson_of_document? {bytes : List UInt8} {v : Value} (h : document? bytes = .ok v) :
    v.isJson = true := by
  obtain ⟨w, rfl, -⟩ := exists_written_of_document? h
  exact isJson_value w

theorem isNumeric_of_document? {bytes : List UInt8} {v : Value} (h : document? bytes = .ok v) :
    v.isNumeric = true := by
  obtain ⟨w, rfl, -⟩ := exists_written_of_document? h
  exact isNumeric_value w

theorem items_of_document?_list {bytes : List UInt8} {elements : List Value}
    (h : document? bytes = .ok (.list elements)) : items bytes = (elements, none) := by
  obtain ⟨w, hw, hitems⟩ := exists_written_of_document? h
  cases w with
  | scalar s => cases s <;> cases hw
  | list written =>
    rw [value_list] at hw
    cases hw
    rw [hitems, itemsOf_inside_list]
  | dict entries => simp [value] at hw

end JsonShape.Json
