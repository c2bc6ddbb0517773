/-!
Entries under distinct names, in order: a repeated name keeps its first place and takes its last
value.
-/

set_option autoImplicit false

namespace JsonShape.Entries

variable {α : Type}

/-- Sets the value of a name, in its place if the name is there and at the end otherwise. -/
def put : List (String × α) → String → α → List (String × α)
  | [], name, a => [(name, a)]
  | (n, b) :: rest, name, a => if n = name then (n, a) :: rest else (n, b) :: put rest name a

/-- The entries that are left when a repeated name keeps its first place and last value. -/
def ofList (entries : List (String × α)) : List (String × α) :=
  entries.foldl (fun kept entry => put kept entry.1 entry.2) []

end JsonShape.Entries
