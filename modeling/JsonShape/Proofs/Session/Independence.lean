import JsonShape.Proofs.Inference.Success
import JsonShape.Session

/-!
Sessions step by step. A step finds the shape or fault that it finds in a session of its own, on the
shapes that its operands stand for, and its merges are added to the count, also those that it began
before it failed. So nothing but the count passes from step to step.
-/

set_option autoImplicit false

namespace JsonShape

theorem Parsed.on_ofTally (t : Tally Shape) (merges : Nat) :
    (ofTally t).on merges =
      ((t.on merges).1.map (Parsed.mk · (t.on merges).2), (t.on merges).2) := by
  rw [ofTally, Tally.on_bind]
  rcases t.on merges with ⟨fault | root, reached⟩
  · rfl
  · rfl

/-- A step on the shapes that its operands stand for in a session. -/
def Step.settle (s : Session) : Step → Step
  | .unify a b => .unify (.given (s.shapeOf a)) (.given (s.shapeOf b))
  | .makeOptional a => .makeOptional (.given (s.shapeOf a))
  | step => step

/-- A report as it stands if some merges were counted before. -/
def StepReport.after (merges : Nat) (r : StepReport) : StepReport := ⟨r.outcome, merges + r.merges⟩

namespace Session

/-- What a step reports in a session of its own. -/
def alone (s : Session) (step : Step) : StepReport :=
  ⟨((s.tally step).on 0).1, ((s.tally step).on 0).2⟩

theorem run_settle (s : Session) (step : Step) :
    run [step.settle s] = ⟨[s.alone step], (s.alone step).merges⟩ := by
  cases step <;> rfl

theorem shifts_tally (s : Session) (step : Step) : Tally.Shifts (s.tally step) := by
  cases step with
  | infer v => exact v.shifts_infer Value.nestingRoom
  | parse v => exact (v.shifts_infer Value.nestingRoom).ofDocument
  | inferMany vs => exact shifts_inferMany vs
  | parseMany vs => exact (shifts_inferMany vs).ofDocument
  | unify a b => exact Shape.shifts_unify _ _
  | makeOptional a => exact Tally.shifts_pure _

/-- One more step adds the report that it makes alone, with the merges counted before, and its
merges to the count. -/
theorem take_eq (s : Session) (step : Step) :
    s.take step =
      ⟨s.reports ++ [(s.alone step).after s.merges], s.merges + (s.alone step).merges⟩ := by
  simp only [take, s.shifts_tally step s.merges]
  rfl

theorem run_append (earlier later : List Step) :
    run (earlier ++ later) = later.foldl take (run earlier) :=
  List.foldl_append

/-- Later steps leave the reports of earlier ones as they are. -/
theorem reports_isPrefix_foldl_take (steps : List Step) (s : Session) :
    s.reports <+: (steps.foldl take s).reports := by
  induction steps generalizing s with
  | nil => exact List.prefix_rfl
  | cons step rest ih =>
    have hstep : s.reports <+: (s.take step).reports := by
      rw [take_eq]
      exact List.prefix_append _ _
    exact hstep.trans (ih (s.take step))

theorem length_reports_foldl_take (steps : List Step) (s : Session) :
    (steps.foldl take s).reports.length = s.reports.length + steps.length := by
  induction steps generalizing s with
  | nil => rfl
  | cons step rest ih =>
    rw [List.foldl_cons, ih, take_eq, List.length_append, List.length_singleton, List.length_cons]
    omega

/-- Whatever steps come before and after, a step finds what it finds in a session of its own, and
the count goes on by what it counts there; a parse hands back its shape with the count so far. -/
theorem run_append_cons (earlier later : List Step) (step : Step) :
    ∃ report : StepReport,
      run [step.settle (run earlier)] = ⟨[report], report.merges⟩ ∧
      run (earlier ++ [step]) =
        ⟨(run earlier).reports ++ [report.after (run earlier).merges],
          (run earlier).merges + report.merges⟩ ∧
      (run (earlier ++ step :: later)).reports[earlier.length]? =
        some (report.after (run earlier).merges) ∧
      ∀ t ∈ step.parsed?, t.on (run earlier).merges =
        (report.outcome.map (Parsed.mk · ((run earlier).merges + report.merges)),
          (run earlier).merges + report.merges) := by
  have hnext : (run earlier).take step = _ := take_eq (run earlier) step
  have hlength : (run earlier).reports.length = earlier.length := by
    rw [run, length_reports_foldl_take]
    exact Nat.zero_add _
  refine ⟨(run earlier).alone step, run_settle _ _, ?_, ?_, fun t ht => ?_⟩
  · rw [run_append]
    exact hnext
  · obtain ⟨more, hmore⟩ := reports_isPrefix_foldl_take later ((run earlier).take step)
    rw [run_append, List.foldl_cons, ← hmore, hnext, List.append_assoc, ← hlength,
      List.getElem?_append_right le_rfl, Nat.sub_self]
    rfl
  · have htally : t = Parsed.ofTally ((run earlier).tally step) := by
      cases step with
      | parse v | parseMany vs => exact (Option.mem_some_iff.mp ht).symm
      | _ => cases ht
    rw [htally, Parsed.on_ofTally, shifts_tally]
    rfl

/-- A step that fails at the last element of a list, after two merges. -/
def brokenStep : Step := .inferMany [.list [.int 1, .int 2, .foreign "set"]]

/-- Two rows, one without the second column. -/
def plainRows : List Value :=
  [.dict [(.text "a", .int 1), (.text "b", .null)], .dict [(.text "a", .float (.ofInt 4))]]

theorem run_append_cons_brokenStep :
    (run [brokenStep]).reports.map StepReport.outcome = [.error (.unsupported "set")] ∧
      (run [brokenStep]).merges = 2 ∧
        ∃ report : StepReport,
          run [.parseMany plainRows] = ⟨[report], 3⟩ ∧
            (run ([brokenStep] ++ .parseMany plainRows :: [brokenStep])).reports[1]? =
              some ⟨report.outcome, 5⟩ ∧
            (Parsed.ofTally (parseMany plainRows)).on 2 =
              (report.outcome.map (Parsed.mk · 5), 5) := by
  obtain ⟨report, halone, -, hlater, hparsed⟩ :=
    run_append_cons [brokenStep] [brokenStep] (.parseMany plainRows)
  have hbroken : (run [brokenStep]).merges = 2 := rfl
  have hcount : report.merges = 3 := (congrArg Session.merges halone).symm
  have hback := hparsed _ rfl
  rw [hbroken, hcount] at hback
  rw [hbroken, StepReport.after, hcount] at hlater
  rw [hcount] at halone
  exact ⟨rfl, hbroken, report, halone, hlater, hback⟩

end Session

end JsonShape
