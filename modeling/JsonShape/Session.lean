import JsonShape.Inference

/-!
Sessions: steps that share one count of merges, where later steps may use the shapes that earlier
ones found. A failed step leaves its merges in the count.
-/

set_option autoImplicit false

namespace JsonShape

/-- A shape given outright or found by an earlier step, counted from zero. -/
inductive Operand
  | given (s : Shape)
  | result (step : Nat)

/-- One step of a session. -/
inductive Step
  | infer (v : Value)
  | parse (v : Value)
  | inferMany (vs : List Value)
  | parseMany (vs : List Value)
  | unify (a b : Operand)
  | makeOptional (a : Operand)

/-- What a step that parses documents hands back. -/
def Step.parsed? : Step → Option (Tally Parsed)
  | .parse v => some (Parsed.ofTally (JsonShape.parse v))
  | .parseMany vs => some (Parsed.ofTally (JsonShape.parseMany vs))
  | _ => none

/-- The outcome of a step, with the count of all merges up to then. -/
structure StepReport where
  outcome : Except InferenceFault Shape
  merges : Nat

/-- A session: the reports of its steps so far. -/
structure Session where
  reports : List StepReport
  merges : Nat

namespace Session

/-- A session without steps. -/
def fresh : Session := ⟨[], 0⟩

/-- The shape that an operand stands for; the result of a failed or missing step is unknown. -/
def shapeOf (s : Session) : Operand → Shape
  | .given shape => shape
  | .result i =>
    match s.reports[i]? with
    | some ⟨.ok shape, _⟩ => shape
    | _ => .unknown

/-- What a step computes. -/
def tally (s : Session) : Step → Tally Shape
  | .infer v => JsonShape.infer v
  | .parse v => JsonShape.parse v
  | .inferMany vs => JsonShape.inferMany vs
  | .parseMany vs => JsonShape.parseMany vs
  | .unify a b => (s.shapeOf a).unify (s.shapeOf b)
  | .makeOptional a => return (s.shapeOf a).makeOptional

/-- A session after one more step. -/
def take (s : Session) (step : Step) : Session :=
  let (outcome, merges) := (s.tally step).on s.merges
  ⟨s.reports ++ [⟨outcome, merges⟩], merges⟩

/-- The session of some steps. -/
def run (steps : List Step) : Session := steps.foldl take fresh

end Session

end JsonShape
