import JsonShape.Proofs.Binary64.Order
import JsonShape.Inference

/-!
What holds at every node of a value tree. A JSON value is made of the kinds that documents hold,
and its dictionaries have distinct text keys; a numeric value holds no NaN.
-/

set_option autoImplicit false

namespace JsonShape

namespace Value

/-- Induction over a value that reaches every element of a list and every entry of a dictionary. -/
theorem nodeInduction {motive : Value → Prop} (null : motive .null) (bool : ∀ b, motive (.bool b))
    (int : ∀ n, motive (.int n)) (float : ∀ x, motive (.float x))
    (decimal : ∀ d, motive (.decimal d)) (text : ∀ s, motive (.text s))
    (illFormedText : ∀ codePoints, motive (.illFormedText codePoints))
    (list : ∀ items, (∀ v ∈ items, motive v) → motive (.list items))
    (dict : ∀ entries, (∀ e ∈ entries, motive e.2) → motive (.dict entries))
    (foreign : ∀ kind, motive (.foreign kind)) (v : Value) : motive v := by
  refine @Value.rec motive (fun items => ∀ v ∈ items, motive v)
    (fun entries => ∀ e ∈ entries, motive e.2) (fun e => motive e.2)
    null bool int float decimal text illFormedText list dict foreign ?_ ?_ ?_ ?_ ?_ v
  · simp
  · intro w rest hw hrest v hv
    rcases List.mem_cons.mp hv with rfl | hv
    · exact hw
    · exact hrest v hv
  · simp
  · intro d rest hd hrest e he
    rcases List.mem_cons.mp he with rfl | he
    · exact hd
    · exact hrest e he
  · exact fun _ _ h => h

mutual

/-- A property holds at every node of a value tree. -/
def everywhere (p : Value → Bool) : Value → Bool
  | list items => p (list items) && everywhereItems p items
  | dict entries => p (dict entries) && everywhereEntries p entries
  | v => p v

/-- A property holds at every node of each element. -/
def everywhereItems (p : Value → Bool) : List Value → Bool
  | [] => true
  | v :: rest => v.everywhere p && everywhereItems p rest

/-- A property holds at every node of the value of each entry. -/
def everywhereEntries (p : Value → Bool) : List (Key × Value) → Bool
  | [] => true
  | (_, v) :: rest => v.everywhere p && everywhereEntries p rest

end

theorem everywhereItems_iff {p : Value → Bool} {items : List Value} :
    everywhereItems p items = true ↔ ∀ v ∈ items, v.everywhere p = true := by
  induction items with
  | nil => simp [everywhereItems]
  | cons v rest ih => simp [everywhereItems, ih]

theorem everywhereEntries_iff {p : Value → Bool} {entries : List (Key × Value)} :
    everywhereEntries p entries = true ↔ ∀ e ∈ entries, e.2.everywhere p = true := by
  induction entries with
  | nil => simp [everywhereEntries]
  | cons e rest ih => simp [everywhereEntries, ih]

end Value

/-- A key that is text. -/
def Key.isText : Key → Bool
  | .text _ => true
  | _ => false

namespace Value

/-- A node of a kind that documents hold; the keys of a dictionary are distinct texts. -/
def isJsonNode : Value → Bool
  | decimal d => d ≠ .signalingNaN
  | illFormedText _ | foreign _ => false
  | dict entries => entries.all (·.1.isText) && (entries.map Prod.fst).Nodup
  | _ => true

/-- A value tree of the kinds that documents hold, its dictionaries with distinct text keys. -/
def isJson (v : Value) : Bool := v.everywhere isJsonNode

/-- A node that is not NaN. -/
def isNumericNode : Value → Bool
  | float x => x.isNumber
  | decimal d => d.toBinary64?.all Binary64.isNumber
  | _ => true

/-- No number in a value tree is NaN. -/
def isNumeric (v : Value) : Bool := v.everywhere isNumericNode

/-- The keys of a dictionary are distinct texts. -/
def isKeyedNode : Value → Bool
  | dict entries => entries.all (·.1.isText) && (entries.map Prod.fst).Nodup
  | _ => true

/-- Every dictionary in a value tree has distinct text keys; its leaves are of any kind. -/
def isKeyed (v : Value) : Bool := v.everywhere isKeyedNode

theorem isKeyed_list_iff {items : List Value} :
    (list items).isKeyed = true ↔ ∀ v ∈ items, v.isKeyed = true := by
  simp [isKeyed, everywhere, isKeyedNode, everywhereItems_iff]

theorem isKeyed_dict_iff {entries : List (Key × Value)} :
    (dict entries).isKeyed = true ↔
      ((∀ e ∈ entries, e.1.isText = true) ∧ (entries.map Prod.fst).Nodup) ∧
        ∀ e ∈ entries, e.2.isKeyed = true := by
  simp only [isKeyed, everywhere, isKeyedNode, Bool.and_eq_true, List.all_eq_true,
    decide_eq_true_eq, everywhereEntries_iff]

theorem isJson_list_iff {items : List Value} :
    (list items).isJson = true ↔ ∀ v ∈ items, v.isJson = true := by
  simp [isJson, everywhere, isJsonNode, everywhereItems_iff]

theorem isJson_dict_iff {entries : List (Key × Value)} :
    (dict entries).isJson = true ↔
      ((∀ e ∈ entries, e.1.isText = true) ∧ (entries.map Prod.fst).Nodup) ∧
        ∀ e ∈ entries, e.2.isJson = true := by
  simp only [isJson, everywhere, isJsonNode, Bool.and_eq_true, List.all_eq_true, decide_eq_true_eq,
    everywhereEntries_iff]

theorem isNumeric_list_iff {items : List Value} :
    (list items).isNumeric = true ↔ ∀ v ∈ items, v.isNumeric = true := by
  simp [isNumeric, everywhere, isNumericNode, everywhereItems_iff]

theorem isNumeric_dict_iff {entries : List (Key × Value)} :
    (dict entries).isNumeric = true ↔ ∀ e ∈ entries, e.2.isNumeric = true := by
  simp [isNumeric, everywhere, isNumericNode, everywhereEntries_iff]

theorem exists_toBinary64? {d : Decimal} (hd : (decimal d).isJson = true) :
    ∃ x, d.toBinary64? = some x := by
  cases d with
  | signalingNaN => exact absurd hd (by decide)
  | _ => exact ⟨_, rfl⟩

/-- The double that a number stands for; integers of more than 64 bits stand for none. -/
def toBinary64? : Value → Option Binary64
  | int n => if fitsInt64 n then some (.ofInt n) else none
  | float x => some x
  | decimal d => d.toBinary64?
  | _ => none

/-- The length of a text; integers of more than 64 bits are the text of their digits. -/
def textLength? : Value → Option Nat
  | int n => if fitsInt64 n then none else some (toString n).length
  | text s => some s.utf8ByteSize
  | _ => none

/-- Induction over a JSON value. Integers are told apart by their width, and decimals have a
double. -/
theorem jsonInduction {motive : (v : Value) → v.isJson = true → Prop} (null : motive .null rfl)
    (bool : ∀ b, motive (.bool b) rfl)
    (narrow : ∀ n, fitsInt64 n = true → motive (.int n) rfl)
    (wide : ∀ n, fitsInt64 n = false → motive (.int n) rfl)
    (float : ∀ x, motive (.float x) rfl)
    (decimal : ∀ d hd x, d.toBinary64? = some x → motive (.decimal d) hd)
    (text : ∀ s, motive (.text s) rfl)
    (list : ∀ items hitems, (∀ v hv, motive v (isJson_list_iff.mp hitems v hv)) →
      motive (.list items) hitems)
    (dict : ∀ entries hentries,
      (∀ e he, motive e.2 ((isJson_dict_iff.mp hentries).2 e he)) → motive (.dict entries) hentries)
    (v : Value) (hv : v.isJson = true) : motive v hv := by
  induction v using nodeInduction with
  | null => exact null
  | bool b => exact bool b
  | int n =>
    by_cases hn : fitsInt64 n = true
    · exact narrow n hn
    · exact wide n (by simpa using hn)
  | float x => exact float x
  | decimal d =>
    obtain ⟨x, hx⟩ := exists_toBinary64? hv
    exact decimal d hv x hx
  | text s => exact text s
  | list items ih => exact list items hv fun v hmem => ih v hmem _
  | dict entries ih => exact dict entries hv fun e he => ih e he _
  | illFormedText _ | foreign _ => exact absurd hv Bool.false_ne_true

end Value

end JsonShape
