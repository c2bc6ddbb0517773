import JsonShape.Nesting
import JsonShape.Shape.Merge

/-!
Computations that count merges and may fail. The count made before a failure stays.
-/

set_option autoImplicit false

namespace JsonShape

/-- Why no shape is found. -/
inductive InferenceFault
  | unsupported (kind : String)
  | illFormedText
  | tooManyDigits
  | signalingNaN
  | foreign (shown : String)
  | overflow
  | tooDeep
  | documentTooDeep
  deriving DecidableEq

/-- A computation that counts merges as it goes and may fail. -/
abbrev Tally := ExceptT InferenceFault (StateM Nat)

namespace Tally

variable {α : Type}

/-- Runs a computation on a count; the new count is that of all merges so far. -/
def on (t : Tally α) (merges : Nat) : Except InferenceFault α × Nat :=
  StateT.run (ExceptT.run t) merges

/-- Counts some merges. -/
def count (n : Nat) : Tally Unit := modify (· + n)

/-- Reports nesting that leaves no room as a fault of the whole document. -/
def ofDocument (t : Tally α) : Tally α :=
  tryCatch t fun
    | .tooDeep => throw .documentTooDeep
    | fault => throw fault

end Tally

/-- A merge fault as a reason for which no shape is found. The complaint about a foreign node shows
it, so that one of too many digits is the fault instead. -/
def MergeFault.toInferenceFault : MergeFault → InferenceFault
  | foreign node => node.shown?.elim .tooManyDigits .foreign
  | overflow => .overflow
  | tooDeep => .tooDeep

/-- Merges two shapes and counts the merges of nodes that this takes. -/
def Shape.unify (a b : Shape) : Tally Shape := do
  let progress := Progress.ofMerge nestingRoom a b
  Tally.count progress.merges
  match progress.fault with
  | some fault => throw fault.toInferenceFault
  | none => return a.merge b

end JsonShape
