import JsonShape.Entries
import JsonShape.Message

/-!
Schemas: a shape with all its ranges as a tree of texts, numbers and entries under names, ready to
be written in a data format. Each node names its kind under `type`.
-/

set_option autoImplicit false

namespace JsonShape

/-- A tree of texts, numbers and entries under names. -/
inductive Schema
  | text (s : String)
  | int (n : Int)
  | float (x : Binary64)
  | entries (items : List (String × Schema))

/-- Why a shape has no schema. -/
inductive SchemaFault
  | foreign (shown : String)
  | tooManyDigits
  | tooDeep
  deriving DecidableEq

/-- A foreign node has no schema. The complaint shows it, if it can be shown. -/
def SchemaFault.ofForeign (node : Foreign) : SchemaFault :=
  node.shown?.elim .tooManyDigits .foreign

/-- The wording of a shape without a schema. -/
def SchemaFault.message : SchemaFault → String
  | foreign shown => foreignMessage shown
  | tooManyDigits => tooManyDigitsMessage
  | tooDeep => "maximum recursion depth exceeded"

namespace Schema

/-- A node of a kind with further entries. -/
def node (kind : String) (rest : List (String × Schema)) : Schema :=
  entries (("type", text kind) :: rest)

mutual

/-- A property holds at every node of a schema. -/
def everywhere (p : Schema → Bool) : Schema → Bool
  | entries items => p (entries items) && everywhereEntries p items
  | s => p s

/-- A property holds at every node of each entry. -/
def everywhereEntries (p : Schema → Bool) : List (String × Schema) → Bool
  | [] => true
  | (_, s) :: rest => s.everywhere p && everywhereEntries p rest

end

/-- A node that is no integer of too many digits. -/
def isLegibleNode : Schema → Bool
  | int n => (digits? n).isSome
  | _ => true

/-- Every integer in a schema can be written out. -/
def isLegible (s : Schema) : Bool := s.everywhere isLegibleNode

mutual

/-- The schema of a shape within some room for nesting. -/
def ofShape? : Nat → Shape → Except SchemaFault Schema
  | 0, _ => .error .tooDeep
  | _ + 1, .unknown => .ok (node "unknown" [])
  | _ + 1, .any => .ok (node "any" [])
  | _ + 1, .bool => .ok (node "bool" [])
  | _ + 1, .int r => .ok (node "integer" [("min", int r.lo), ("max", int r.hi)])
  | _ + 1, .float r => .ok (node "float" [("min", float r.lo), ("max", float r.hi)])
  | _ + 1, .text r => .ok (node "string" [("min_len", int r.lo), ("max_len", int r.hi)])
  | room + 1, .list r item => do
    let items ← ofShape? room item
    return node "array" [("min_len", int r.lo), ("max_len", int r.hi), ("items", items)]
  | room + 1, .record fields => do
    let items ← ofFields? room fields
    return node "object" [("fields", entries (Entries.ofList items))]
  | room + 1, .optional child => do
    let child ← ofShape? room child
    return node "optional" [("child", child)]
  | _ + 1, .foreign node => .error (.ofForeign node)

/-- The schemas of a record's fields. -/
def ofFields? : Nat → List (String × Shape) → Except SchemaFault (List (String × Schema))
  | _, [] => .ok []
  | room, (name, shape) :: rest => do
    let schema ← ofShape? room shape
    return (name, schema) :: (← ofFields? room rest)

end

end Schema

/-- The schema of a shape. -/
def Shape.schema? (shape : Shape) : Except SchemaFault Schema :=
  Schema.ofShape? Shape.nestingRoom shape

end JsonShape
