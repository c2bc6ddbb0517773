import JsonShape.Json.Reading
import JsonShape.Proofs.Entries
import JsonShape.Proofs.Value

/-!
Values as they are written. A written dictionary may repeat its keys, of which its value keeps the
first place and the last content, and each of its entries is completed nevertheless. The value of a
written tree is a JSON value without NaN.
-/

set_option autoImplicit false

namespace JsonShape.Json

/-- A written value that holds no other one. -/
inductive Scalar
  | null
  | bool (b : Bool)
  | int (n : Int)
  | decimal (negative : Bool) (coefficient : Nat) (exponent : Int)
  | text (s : String)

/-- The value of a written scalar. -/
def Scalar.value : Scalar → Value
  | null => .null
  | bool b => .bool b
  | int n => .int n
  | decimal negative coefficient exponent => .decimal (.finite negative coefficient exponent)
  | text s => .text s

/-- A value tree as it is written. -/
inductive Written
  | scalar (s : Scalar)
  | list (items : List Written)
  | dict (entries : List (String × Written))

namespace Written

/-- Induction over a written tree that reaches every element and every entry. -/
theorem nodeInduction {motive : Written → Prop} (scalar : ∀ s, motive (.scalar s))
    (list : ∀ items, (∀ w ∈ items, motive w) → motive (.list items))
    (dict : ∀ entries, (∀ e ∈ entries, motive e.2) → motive (.dict entries)) (w : Written) :
    motive w := by
  refine @Written.rec motive (fun items => ∀ w ∈ items, motive w)
    (fun entries => ∀ e ∈ entries, motive e.2) (fun e => motive e.2) scalar list dict ?_ ?_ ?_ ?_
    ?_ w
  · simp
  · exact fun _ _ hw hrest => List.forall_mem_cons.mpr ⟨hw, hrest⟩
  · simp
  · exact fun _ _ he hrest => List.forall_mem_cons.mpr ⟨he, hrest⟩
  · exact fun _ _ h => h

mutual

/-- The value of a written tree. -/
def value : Written → Value
  | scalar s => s.value
  | list items => .list (values items)
  | dict entries =>
    .dict ((Entries.ofList (entryValues entries)).map fun (key, v) => (.text key, v))

/-- The values of written elements. -/
def values : List Written → List Value
  | [] => []
  | w :: rest => w.value :: values rest

/-- The values of written entries. -/
def entryValues : List (String × Written) → List (String × Value)
  | [] => []
  | (key, w) :: rest => (key, w.value) :: entryValues rest

end

mutual

/-- The values inside a tree at some place, as they are completed. -/
def inside : Place → Written → List (Place × Value)
  | _, scalar _ => []
  | place, list items => insideItems (place.under Place.element) items
  | place, dict entries => insideEntries place entries

/-- The values of elements at some place, each after those inside it. -/
def insideItems : Place → List Written → List (Place × Value)
  | _, [] => []
  | place, w :: rest => w.inside place ++ (place, w.value) :: insideItems place rest

/-- The values of the entries of a dictionary at some place, each after those inside it. -/
def insideEntries : Place → List (String × Written) → List (Place × Value)
  | _, [] => []
  | place, (key, w) :: rest =>
    w.inside (place.under key) ++ (place.under key, w.value) :: insideEntries place rest

end

/-- All values of a tree, as they are completed. -/
def completions (place : Place) (w : Written) : List (Place × Value) :=
  w.inside place ++ [(place, w.value)]

theorem values_eq_map (items : List Written) : values items = items.map value := by
  induction items with
  | nil => rfl
  | cons w rest ih => simp only [values, ih, List.map_cons]

theorem entryValues_eq_map (entries : List (String × Written)) :
    entryValues entries = entries.map (Prod.map id value) := by
  induction entries with
  | nil => rfl
  | cons e rest ih => simp only [entryValues, ih, List.map_cons, Prod.map, id_eq]

theorem insideItems_eq_flatMap (place : Place) (items : List Written) :
    insideItems place items = items.flatMap (completions place) := by
  induction items with
  | nil => rfl
  | cons w rest ih =>
    simp only [insideItems, ih, List.flatMap_cons, completions, List.append_assoc,
      List.singleton_append]

theorem insideEntries_eq_flatMap (place : Place) (entries : List (String × Written)) :
    insideEntries place entries = entries.flatMap fun e => e.2.completions (place.under e.1) := by
  induction entries with
  | nil => rfl
  | cons e rest ih =>
    simp only [insideEntries, ih, List.flatMap_cons, completions, List.append_assoc,
      List.singleton_append]

theorem value_list (items : List Written) : (list items).value = .list (items.map value) := by
  simp only [value, values_eq_map]

theorem inside_list (place : Place) (items : List Written) :
    (list items).inside place = items.flatMap (completions (place.under Place.element)) := by
  simp only [inside, insideItems_eq_flatMap]

theorem inside_dict (place : Place) (entries : List (String × Written)) :
    (dict entries).inside place =
      entries.flatMap fun e => e.2.completions (place.under e.1) := by
  simp only [inside, insideEntries_eq_flatMap]

/-- The entries of the value of a written dictionary. -/
def keptEntries (entries : List (String × Written)) : List (Key × Value) :=
  (Entries.ofList (entries.map (Prod.map id value))).map fun e => (.text e.1, e.2)

theorem value_dict (entries : List (String × Written)) :
    (dict entries).value = .dict (keptEntries entries) := by
  simp only [value, entryValues_eq_map, keptEntries]

theorem mem_of_mem_keptEntries {entries : List (String × Written)} {e : Key × Value}
    (h : e ∈ keptEntries entries) : ∃ d ∈ entries, e = (.text d.1, d.2.value) := by
  obtain ⟨kept, hkept, rfl⟩ := List.mem_map.mp h
  obtain ⟨d, hd, rfl⟩ := List.mem_map.mp (Entries.mem_of_mem_ofList hkept)
  exact ⟨d, hd, rfl⟩

theorem names_keptEntries (entries : List (String × Written)) :
    (keptEntries entries).map Prod.fst =
      ((Entries.ofList (entries.map (Prod.map id value))).map Prod.fst).map Key.text := by
  simp only [keptEntries, List.map_map, Function.comp_def]

theorem mem_names_keptEntries {entries : List (String × Written)} {name : String} :
    .text name ∈ (keptEntries entries).map Prod.fst ↔ name ∈ entries.map Prod.fst := by
  have hnames : (entries.map (Prod.map id value)).map Prod.fst = entries.map Prod.fst := by
    simp [List.map_map, Function.comp_def]
  rw [names_keptEntries, List.mem_map_of_injective (fun _ _ => Key.text.inj),
    Entries.mem_names_ofList, hnames]

theorem isJson_value (w : Written) : w.value.isJson = true := by
  induction w using nodeInduction with
  | scalar s => cases s <;> rfl
  | list items ih =>
    rw [value_list, Value.isJson_list_iff, List.forall_mem_map]
    exact ih
  | dict entries ih =>
    rw [value_dict, Value.isJson_dict_iff]
    refine ⟨⟨fun e he => ?_, ?_⟩, fun e he => ?_⟩
    · obtain ⟨d, -, rfl⟩ := mem_of_mem_keptEntries he
      rfl
    · rw [names_keptEntries]
      exact (Entries.nodup_names_ofList _).map fun _ _ => Key.text.inj
    · obtain ⟨d, hd, rfl⟩ := mem_of_mem_keptEntries he
      exact ih d hd

theorem isNumeric_value (w : Written) : w.value.isNumeric = true := by
  induction w using nodeInduction with
  | scalar s => cases s <;> rfl
  | list items ih =>
    rw [value_list, Value.isNumeric_list_iff, List.forall_mem_map]
    exact ih
  | dict entries ih =>
    rw [value_dict, Value.isNumeric_dict_iff]
    intro e he
    obtain ⟨d, hd, rfl⟩ := mem_of_mem_keptEntries he
    exact ih d hd

end Written

/-- The values among some completions that stand at an item, in order. -/
def itemsOf (completed : List (Place × Value)) : List Value :=
  (completed.filter (·.1 = .item)).map Prod.snd

theorem itemsOf_append (completed others : List (Place × Value)) :
    itemsOf (completed ++ others) = itemsOf completed ++ itemsOf others := by
  simp only [itemsOf, List.filter_append, List.map_append]

theorem itemsOf_flatMap {α : Type} (completions : α → List (Place × Value)) (l : List α) :
    itemsOf (l.flatMap completions) = l.flatMap fun a => itemsOf (completions a) := by
  induction l with
  | nil => rfl
  | cons a rest ih => simp only [List.flatMap_cons, itemsOf_append, ih]

theorem Place.under_of_ne_top {place : Place} (h : place ≠ .top) (name : String) :
    place.under name = .inner := by
  cases place with
  | top => exact absurd rfl h
  | _ => rfl

namespace Written

/-- Below the top no step leads to an item. -/
theorem itemsOf_inside {place : Place} (h : place ≠ .top) (w : Written) :
    itemsOf (w.inside place) = [] := by
  have hinner : ∀ c ∈ w.inside place, c.1 = .inner := by
    induction w using nodeInduction generalizing place with
    | scalar s => simp [inside]
    | list items ih =>
      rw [inside_list, Place.under_of_ne_top h]
      simp only [List.forall_mem_flatMap, completions, List.forall_mem_append,
        List.forall_mem_singleton]
      exact fun w hw => ⟨ih w hw (by simp), trivial⟩
    | dict entries ih =>
      simp only [inside_dict, Place.under_of_ne_top h, List.forall_mem_flatMap, completions,
        List.forall_mem_append, List.forall_mem_singleton]
      exact fun e he => ⟨ih e he (by simp), trivial⟩
  simp only [itemsOf, List.map_eq_nil_iff, List.filter_eq_nil_iff, decide_eq_true_eq]
  intro c hc heq
  simp [hinner c hc] at heq

theorem itemsOf_completions_item (w : Written) : itemsOf (w.completions .item) = [w.value] := by
  rw [completions, itemsOf_append, itemsOf_inside (by simp)]
  rfl

theorem itemsOf_completions_inner (w : Written) : itemsOf (w.completions .inner) = [] := by
  rw [completions, itemsOf_append, itemsOf_inside (by simp)]
  rfl

theorem itemsOf_inside_list (items : List Written) :
    itemsOf ((list items).inside .top) = items.map value := by
  rw [inside_list, itemsOf_flatMap]
  change items.flatMap (fun w => itemsOf (w.completions .item)) = _
  simp only [itemsOf_completions_item]
  exact List.flatMap_pure_eq_map value items

/-- The items of a written dictionary stand under keys that are a step to an item or no step. -/
theorem itemsOf_inside_dict (entries : List (String × Written)) :
    itemsOf ((dict entries).inside .top) =
      entries.flatMap fun e => itemsOf (e.2.completions (Place.top.under e.1)) := by
  rw [inside_dict, itemsOf_flatMap]

theorem itemsOf_inside_dict_eq_nil {entries : List (String × Written)}
    (hitem : "item" ∉ entries.map Prod.fst) (hempty : "" ∉ entries.map Prod.fst) :
    itemsOf ((dict entries).inside .top) = [] := by
  rw [itemsOf_inside_dict, List.flatMap_eq_nil_iff]
  intro e he
  have hne : e.1 ≠ "" := fun h => hempty (h ▸ List.mem_map_of_mem he)
  have hne' : e.1 ≠ "item" := fun h => hitem (h ▸ List.mem_map_of_mem he)
  have hplace : Place.top.under e.1 = .inner := by
    simp only [Place.under, hne, Place.element, hne', if_false]
  rw [hplace, itemsOf_completions_inner]

theorem mem_itemsOf_inside_dict {entries : List (String × Written)} {w : Written}
    (h : ("item", w) ∈ entries) : w.value ∈ itemsOf ((dict entries).inside .top) := by
  rw [itemsOf_inside_dict, List.mem_flatMap]
  refine ⟨_, h, ?_⟩
  change w.value ∈ itemsOf (w.completions .item)
  rw [itemsOf_completions_item]
  exact List.mem_singleton_self _

end Written

end JsonShape.Json
