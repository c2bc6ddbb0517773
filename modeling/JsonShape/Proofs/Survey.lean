import JsonShape.Proofs.Tally
import JsonShape.Survey

/-!
A survey against inference on all values at once. The events of a feed widen one shape, value by
value, which makes the same merges and finds the same shape or fault.
-/

set_option autoImplicit false

namespace JsonShape.Survey

open Value (inferOnto nestingRoom)

theorem foldl_take_of_error {s : Survey} {fault : SurveyFault} (h : s.outcome = .error fault)
    (events : List Event) : events.foldl take s = s := by
  induction events with
  | nil => rfl
  | cons event rest ih =>
    have hstays : s.take event = s := by simp only [take, h]
    rw [List.foldl_cons, hstays, ih]

theorem inferOnto_cons (shape : Shape) (v : Value) (rest : List Value) :
    inferOnto nestingRoom shape (v :: rest) =
      (infer v >>= shape.unify) >>= (inferOnto nestingRoom · rest) := by
  rw [bind_assoc]
  rfl

/-- The survey after some events is that of inference on their values, from the same count on. -/
theorem foldl_take (events : List Event) {s : Survey} {shape : Shape} (h : s.outcome = .ok shape) :
    (events.foldl take s).outcome = Except.mapError .inference
        ((inferOnto nestingRoom shape (Feed.values ⟨events, none⟩)).ofDocument.on s.merges).1 ∧
      (events.foldl take s).merges =
        ((inferOnto nestingRoom shape (Feed.values ⟨events, none⟩)).ofDocument.on s.merges).2 := by
  induction events generalizing s shape with
  | nil => exact ⟨h, rfl⟩
  | cons event rest ih =>
    cases event with
    | began name =>
      have hbegan : s.take (.began name) = { s with began := s.began ++ [name] } := by
        simp only [take, h]
      rw [List.foldl_cons, hbegan]
      exact @ih { s with began := s.began ++ [name] } shape h
    | value v =>
      have hvalues : Feed.values ⟨.value v :: rest, none⟩ = v :: Feed.values ⟨rest, none⟩ := rfl
      rw [List.foldl_cons, hvalues, inferOnto_cons, Tally.on_ofDocument_bind]
      have hwiden : widen shape v = (infer v >>= shape.unify).ofDocument := rfl
      rcases hrun : (widen shape v).on s.merges with ⟨fault | widened, reached⟩
      · have herror : (s.take (.value v)).outcome = .error (.inference fault) := by
          simp only [take, h, hrun, Except.mapError]
        rw [foldl_take_of_error herror, ← hwiden, hrun]
        simp only [take, h, hrun, Except.mapError, and_self]
      · have hok : (s.take (.value v)).outcome = .ok widened := by
          simp only [take, h, hrun, Except.mapError]
        have hmerges : (s.take (.value v)).merges = reached := by
          simp only [take, h, hrun]
        rw [← hwiden, hrun, ← hmerges]
        exact ih hok

/-- The survey of a feed without a fault is that of inference on its values. -/
theorem ofFeed_of_fault_eq_none {feed : Feed} (h : feed.fault = none) :
    (ofFeed feed).outcome = ((parseMany feed.values).on 0).1.mapError .inference ∧
      (ofFeed feed).merges = ((parseMany feed.values).on 0).2 := by
  have hfeed : ofFeed feed = feed.events.foldl take start := by
    simp only [ofFeed, h]
    split <;> simp_all
  rw [hfeed]
  exact foldl_take feed.events rfl

end JsonShape.Survey
