import JsonShape.Proofs.Inference.Records
import JsonShape.Proofs.Json.Reading
import JsonShape.Source

/-!
Documents against their items. The items of a list are its elements, and a scalar has none. A
dictionary has items nevertheless if one of its keys is the step to an element, for the reader does
not tell a key from a step.
-/

set_option autoImplicit false

namespace JsonShape

open Json (Written itemsOf)

/-- The elements of a list; nothing else has elements. -/
def Value.elements : Value → List Value
  | list items => items
  | _ => []

namespace Feed

theorem exists_document_of_ofInput {name : String} {input : Input} {vs : List Value}
    (h : ofInput .documents name input = (vs, none)) :
    ∃ bytes v, input = .bytes bytes ∧ Json.document? bytes = .ok v ∧ vs = [v] := by
  cases input with
  | bytes bytes =>
    simp only [ofInput] at h
    cases hdocument : Json.document? bytes with
    | error fault => simp [hdocument] at h
    | ok v =>
      simp only [hdocument, Prod.mk.injEq, and_true] at h
      exact ⟨bytes, v, rfl, hdocument, h.symm⟩
  | failing reason => cases h
  | interrupted => cases h

/-- The items of a document are its elements, unless it is a dictionary with the key of an element
or an empty key; what stands under the key of an element is an item. -/
theorem ofInput_items {name : String} {bytes : List UInt8} {v : Value}
    (h : ofInput .documents name (.bytes bytes) = ([v], none)) :
    ∃ items, ofInput .items name (.bytes bytes) = (items, none) ∧
      ((∀ entries, v = .dict entries →
        .text "item" ∉ entries.map Prod.fst ∧ .text "" ∉ entries.map Prod.fst) →
          items = v.elements) ∧
      ∀ u, v.get? "item" = some u → u ∈ items := by
  obtain ⟨_, _, hbytes, hdocument, hv⟩ := exists_document_of_ofInput h
  cases hbytes
  cases hv
  obtain ⟨w, rfl, hitems⟩ := Json.exists_written_of_document? hdocument
  refine ⟨itemsOf (w.inside .top), by simp [ofInput, hitems], ?_⟩
  cases w with
  | scalar s => cases s <;> exact ⟨fun _ => rfl, by simp [Written.value, Json.Scalar.value,
      Value.get?]⟩
  | list written =>
    rw [Written.value_list, Written.itemsOf_inside_list]
    exact ⟨fun _ => rfl, by simp [Value.get?]⟩
  | dict entries =>
    rw [Written.value_dict]
    refine ⟨fun hkeys => ?_, fun u hu => ?_⟩
    · obtain ⟨hitem, hempty⟩ := hkeys _ rfl
      rw [Written.mem_names_keptEntries] at hitem hempty
      exact Written.itemsOf_inside_dict_eq_nil hitem hempty
    · simp only [Value.get?, Option.map_eq_some_iff] at hu
      obtain ⟨e, he, rfl⟩ := hu
      have hkey : e.1 = .text "item" := by simpa using List.find?_some he
      obtain ⟨d, hd, rfl⟩ := Written.mem_of_mem_keptEntries (List.mem_of_find?_eq_some he)
      obtain ⟨key, w⟩ := d
      cases hkey
      exact Written.mem_itemsOf_inside_dict hd

/-- The bytes of `{"item": 1}`, a dictionary with the key of an element. -/
def itemDict : List UInt8 := [123, 34, 105, 116, 101, 109, 34, 58, 32, 49, 125]

theorem ofInput_documents_itemDict :
    ofInput .documents "a.json" (.bytes itemDict) =
      ([.dict [(.text "item", .int 1)]], none) := rfl

theorem ofInput_items_itemDict :
    ofInput .documents "a.json" (.bytes itemDict) = ([.dict [(.text "item", .int 1)]], none) ∧
      ∃ items, ofInput .items "a.json" (.bytes itemDict) = (items, none) ∧ .int 1 ∈ items := by
  obtain ⟨items, hitems, -, hkey⟩ := ofInput_items ofInput_documents_itemDict
  exact ⟨ofInput_documents_itemDict, items, hitems, hkey _ rfl⟩

/-- Not every document yields its elements and nothing else. -/
theorem not_ofInput_items_eq_elements :
    ¬ ∀ (name : String) (bytes : List UInt8) (v : Value),
      ofInput .documents name (.bytes bytes) = ([v], none) →
        ofInput .items name (.bytes bytes) = (v.elements, none) := by
  intro h
  have hnone := h _ _ _ ofInput_documents_itemDict
  have hone : ofInput .items "a.json" (.bytes itemDict) = ([.int 1], none) := rfl
  rw [hone] at hnone
  simp [Value.elements] at hnone

theorem values_ofInputs_cons {mode : Mode} {name : String} {input : Input} {vs : List Value}
    (h : ofInput mode name input = (vs, none)) (rest : List (String × Input)) :
    (ofInputs mode ((name, input) :: rest)).values = vs ++ (ofInputs mode rest).values ∧
      (ofInputs mode ((name, input) :: rest)).fault = (ofInputs mode rest).fault := by
  simp [ofInputs, h, values, List.filterMap_append]

/-- Inputs that bring lists as documents bring the elements of all these lists as items. -/
theorem ofInputs_items {inputs : List (String × Input)} {lists : List (List Value)}
    (hvalues : (ofInputs .documents inputs).values = lists.map .list)
    (hfault : (ofInputs .documents inputs).fault = none) :
    (ofInputs .items inputs).values = lists.flatten ∧ (ofInputs .items inputs).fault = none ∧
      ∀ l ∈ lists, (Value.list l).isJson = true ∧ (Value.list l).isNumeric = true := by
  induction inputs generalizing lists with
  | nil =>
    obtain rfl : lists = [] := List.map_eq_nil_iff.mp hvalues.symm
    exact ⟨rfl, rfl, by simp⟩
  | cons input rest ih =>
    obtain ⟨name, input⟩ := input
    rcases hfirst : ofInput .documents name input with ⟨vs, fault | fault⟩
    · obtain ⟨bytes, v, rfl, hdocument, rfl⟩ := exists_document_of_ofInput hfirst
      obtain ⟨hcons, hrest⟩ := values_ofInputs_cons hfirst rest
      rw [hcons] at hvalues
      rw [hrest] at hfault
      cases lists with
      | nil => simp at hvalues
      | cons l lists =>
        obtain ⟨rfl, hlater⟩ := List.cons.inj hvalues
        obtain ⟨hitems, hnone, hlists⟩ := ih hlater hfault
        have hread : ofInput .items name (.bytes bytes) = (l, none) := by
          simp [ofInput, Json.items_of_document?_list hdocument]
        obtain ⟨hcons, hrest⟩ := values_ofInputs_cons hread rest
        refine ⟨by rw [hcons, hitems, List.flatten_cons], hrest.trans hnone, ?_⟩
        exact List.forall_mem_cons.mpr
          ⟨⟨Json.isJson_of_document? hdocument, Json.isNumeric_of_document? hdocument⟩, hlists⟩
    · simp [ofInputs, hfirst] at hfault

end Feed

/-- A source of documents that are lists has the elements of all these lists as items. -/
theorem Source.feed_items {s : Source} {files : FileTree} {input : Input}
    {lists : List (List Value)}
    (hvalues : (s.feed files input .documents).values = lists.map .list)
    (hfault : (s.feed files input .documents).fault = none) :
    (s.feed files input .items).values = lists.flatten ∧
      (s.feed files input .items).fault = none ∧
        ∀ l ∈ lists, (Value.list l).isJson = true ∧ (Value.list l).isNumeric = true := by
  unfold feed at *
  cases hinputs : s.inputs files input with
  | error fault => simp [hinputs] at hfault
  | ok inputs =>
    simp only [hinputs] at hvalues hfault
    exact Feed.ofInputs_items hvalues hfault

end JsonShape
