import JsonShape.Message
import JsonShape.Source

/-!
A feed as one shape. The values are taken as they come, so that a value without a shape ends the
survey before any later source is begun.
-/

set_option autoImplicit false

namespace JsonShape

/-- Why a survey finds no shape. -/
inductive SurveyFault
  | source (fault : SourceFault)
  | inference (fault : InferenceFault)
  deriving DecidableEq

/-- The wording of a fault of a survey. -/
def SurveyFault.message : SurveyFault → String
  | source fault => fault.message
  | inference fault => fault.message

/-- What a survey finds: the sources begun, the values taken, the merges made, and the shape. -/
structure Survey where
  began : List String
  values : Nat
  merges : Nat
  outcome : Except SurveyFault Shape

namespace Survey

/-- The shape around a shape and one more value of a document. -/
def widen (shape : Shape) (v : Value) : Tally Shape :=
  Tally.ofDocument do
    let next ← infer v
    shape.unify next

/-- The survey before the first event. -/
def start : Survey := ⟨[], 0, 0, .ok .unknown⟩

/-- The survey after one more event; one that has failed takes no more. -/
def take (s : Survey) (event : Event) : Survey :=
  match s.outcome with
  | .error _ => s
  | .ok shape =>
    match event with
    | .began name => { s with began := s.began ++ [name] }
    | .value v =>
      let (outcome, merges) := (widen shape v).on s.merges
      { s with values := s.values + 1, merges, outcome := outcome.mapError .inference }

/-- The survey of a feed: the fault of the feed, if any, comes after its events. -/
def ofFeed (feed : Feed) : Survey :=
  let s := feed.events.foldl take start
  match s.outcome, feed.fault with
  | .ok _, some fault => { s with outcome := .error (.source fault) }
  | _, _ => s

end Survey

end JsonShape
