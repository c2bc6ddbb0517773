import JsonShape.Proofs.Command.Intake
import JsonShape.Proofs.FileTree

/-!
What a run leaves behind. A run that ends well delivers the whole text of the shape it finds, to the
one place that the command line names. A run that fails leaves its complaint and nothing else, but
for one case: a text with a half in it has no encoding, which shows only after the file for it has
been emptied.
-/

set_option autoImplicit false

namespace JsonShape.Command

namespace Outcome

/-- Nothing is on the standard output, and no file is changed or made. -/
def Traceless (o : Outcome) (files : FileTree) : Prop := o.stdout = "" ∧ o.files = files

/-- A text is all that is delivered: as the standard output, or as the content of a file. -/
def Delivers (o : Outcome) (files : FileTree) (text : String) : Target → Prop
  | .standard => o.stdout = text ∧ o.files = files
  | .file none => False
  | .file (some path) => o.stdout = "" ∧ files.Written o.files path text.toUTF8.toList

/-- A text without an encoding leaves the file for it empty, be it new or not. -/
def Empties (o : Outcome) (files : FileTree) (text : Loose) : Target → Prop
  | .file (some path) => ¬text.IsPlain ∧ o.stdout = "" ∧ files.Written o.files path []
  | _ => False

theorem ofFault_code (files : FileTree) (reported : String) (fault : RunFault) :
    (ofFault files reported fault).code = 1 ∨ (ofFault files reported fault).code = 130 := by
  unfold ofFault
  split
  · exact .inr rfl
  · exact .inl rfl

/-- Only the reading of sources is interrupted. -/
theorem ofFault_code_of_ne (files : FileTree) (reported : String) {fault : RunFault}
    (h : fault ≠ .survey (.source .interrupted)) : (ofFault files reported fault).code = 1 := by
  unfold ofFault
  split
  · exact absurd rfl h
  · rfl

theorem ofFault_traceless (files : FileTree) (reported : String) (fault : RunFault) :
    (ofFault files reported fault).Traceless files := by
  unfold ofFault
  split <;> exact ⟨rfl, rfl⟩

end Outcome

/-- The standard output takes a text whole, or not at all. -/
theorem Outlet.take_cases (outlet : Outlet) (text : Loose) :
    (∃ plain, text = .ofString plain ∧ outlet.take text = .ok plain) ∨
      ∃ fault, fault ≠ .survey (.source .interrupted) ∧ outlet.take text = .error fault := by
  cases hplain : text.plain? with
  | error stray => exact .inr ⟨.unencodable stray, nofun, by simp [take, hplain]⟩
  | ok plain =>
    cases outlet with
    | ready => exact .inl ⟨plain, Loose.eq_ofString_of_plain? hplain, by simp [take, hplain]⟩
    | failing reason => exact .inr ⟨.unwritten reason, nofun, by simp [take, hplain]⟩

/-- A text is saved whole, or nothing happens, or its file is emptied since it has no encoding. -/
theorem save_cases (files : FileTree) (path : Path) (text : Loose) :
    (∃ plain after, text = .ofString plain ∧ save files path text = (after, none) ∧
        files.Written after path plain.toUTF8.toList) ∨
      (∃ fault, save files path text = (files, some (.unopened path fault))) ∨
      ∃ stray after, text.plain? = .error stray ∧
        save files path text = (after, some (.unencodable stray)) ∧
        files.Written after path [] := by
  cases hplain : text.plain? with
  | error stray =>
    cases hwrite : files.write path [] with
    | error fault =>
      refine .inr (.inl ⟨fault, ?_⟩)
      simp [save, hplain, hwrite, Except.map, Except.toOption]
    | ok after =>
      refine .inr (.inr ⟨stray, after, rfl, ?_, FileTree.written_of_write hwrite⟩)
      simp [save, hplain, hwrite, Except.map, Except.toOption]
  | ok plain =>
    cases hwrite : files.write path plain.toUTF8.toList with
    | error fault =>
      refine .inr (.inl ⟨fault, ?_⟩)
      simp only [save, hplain, Except.map, Except.toOption, Option.getD_some, hwrite]
    | ok after =>
      refine .inl ⟨plain, after, Loose.eq_ofString_of_plain? hplain, ?_,
        FileTree.written_of_write hwrite⟩
      simp only [save, hplain, Except.map, Except.toOption, Option.getD_some, hwrite]

namespace Arguments

section Deliver

variable (a : Arguments) (files : FileTree) (outlet : Outlet) (reported : String) (shape : Shape)

/-- The text of a shape is delivered whole, or not at all, or its file is emptied. -/
theorem deliver_cases :
    let o := a.deliver files outlet reported shape
    (o.code = 0 ∧ ∃ text, a.form.text? shape = .ok (.ofString text) ∧
        o.Delivers files text a.target) ∨
      (o.code = 1 ∧ o.Traceless files) ∨
      o.code = 1 ∧ ∃ text, a.form.text? shape = .ok text ∧ o.Empties files text a.target := by
  intro o
  have hfault : ∀ fault, fault ≠ .survey (.source .interrupted) →
      o = .ofFault files reported fault → o.code = 1 ∧ o.Traceless files := by
    intro fault hne ho
    rw [ho]
    exact ⟨Outcome.ofFault_code_of_ne files reported hne, Outcome.ofFault_traceless ..⟩
  cases htext : a.form.text? shape with
  | error fault =>
    have ho : o = .ofFault files reported (.output fault) := by
      simp only [o, deliver, htext]
    exact .inr (.inl (hfault _ (by simp) ho))
  | ok text =>
    cases htarget : a.target with
    | standard =>
      obtain ⟨plain, rfl, htake⟩ | ⟨fault, hne, htake⟩ := outlet.take_cases text
      · have ho : o = ⟨0, plain, reported, files⟩ := by
          simp only [o, deliver, htext, htarget, htake]
        rw [ho]
        exact .inl ⟨rfl, plain, rfl, rfl, rfl⟩
      · have ho : o = .ofFault files reported fault := by
          simp only [o, deliver, htext, htarget, htake]
        exact .inr (.inl (hfault fault hne ho))
    | file path =>
      cases path with
      | none =>
        have ho : o = .ofFault files reported .pathless := by
          simp only [o, deliver, htext, htarget]
        exact .inr (.inl (hfault _ (by simp) ho))
      | some path =>
        obtain ⟨plain, after, rfl, hsave, hwritten⟩ | ⟨fault, hsave⟩ |
          ⟨stray, after, hstray, hsave, hwritten⟩ := save_cases files path text
        · have ho : o.code = 0 ∧ o.stdout = "" ∧ o.files = after := by
            simp [o, deliver, htext, htarget, hsave]
          exact .inl ⟨ho.1, plain, rfl, ho.2.1, ho.2.2 ▸ hwritten⟩
        · have ho : o = .ofFault files reported (.unopened path fault) := by
            simp only [o, deliver, htext, htarget, hsave]
          exact .inr (.inl (hfault _ (by simp) ho))
        · have ho : o = .ofFault after reported (.unencodable stray) := by
            simp only [o, deliver, htext, htarget, hsave]
          rw [ho]
          refine .inr (.inr ⟨rfl, text, rfl, ?_, rfl, hwritten⟩)
          rintro ⟨plain, rfl⟩
          rw [Loose.plain?_ofString] at hstray
          cases hstray

end Deliver

/-- What is asked for beside the version of the command is delivered, or leaves no trace, or empties
a file for want of an encoding. -/
theorem execute_cases (a : Arguments) (files : FileTree) (input : Input) (outlet : Outlet)
    (h : a.version = false) :
    let o := a.execute files input outlet
    ((o.code = 1 ∨ o.code = 130) ∧ o.Traceless files) ∨
      ∃ shape, (a.survey files input).2 = .ok shape ∧
        ((o.code = 0 ∧ ∃ text, a.form.text? shape = .ok (.ofString text) ∧
            o.Delivers files text a.target) ∨
          o.code = 1 ∧ ∃ text, a.form.text? shape = .ok text ∧
            o.Empties files text a.target) := by
  intro o
  cases hsurvey : a.survey files input with
  | mk reported outcome =>
    cases outcome with
    | error fault =>
      have ho : o = .ofFault files reported (.survey fault) := by
        simp [o, execute, h, hsurvey]
      rw [ho]
      exact .inl ⟨Outcome.ofFault_code .., Outcome.ofFault_traceless ..⟩
    | ok shape =>
      have ho : o = a.deliver files outlet reported shape := by
        simp [o, execute, h, hsurvey]
      rw [ho]
      obtain hdelivers | ⟨hcode, htrace⟩ | hempties :=
        a.deliver_cases files outlet reported shape
      · exact .inr ⟨shape, rfl, .inl hdelivers⟩
      · exact .inl ⟨.inl hcode, htrace⟩
      · exact .inr ⟨shape, rfl, .inr hempties⟩

/-- A command line without halves puts out no text with halves. -/
theorem isPlain_of_text? {a : Arguments} (h : a.IsPlain) {shape : Shape} {text : Loose}
    (htext : a.form.text? shape = .ok text) : text.IsPlain := by
  obtain ⟨output, hform⟩ := h
  rw [hform, Output.text?_loose] at htext
  cases hplain : output.text? shape with
  | error fault => simp [hplain, Except.map] at htext
  | ok plain =>
    simp only [hplain, Except.map, Except.ok.injEq] at htext
    exact ⟨plain, htext.symm⟩

end Arguments

theorem Outcome.Empties.not_isPlain {o : Outcome} {files : FileTree} {text : Loose}
    {target : Target} (h : o.Empties files text target) : ¬text.IsPlain := by
  match target, h with
  | .file (some _), h => exact h.1

section Run

variable (texts : List Loose) (files : FileTree) (input : Input) (outlet : Outlet)

/-- How a run ends: asked of the command itself, without a trace, or with the text of a shape, which
is delivered or has no encoding. -/
theorem run_cases :
    let o := run texts files input outlet
    (o.code = 0 ∧ AsksOfItself texts) ∨
      ((o.code = 1 ∨ o.code = 2 ∨ o.code = 130) ∧ o.Traceless files) ∨
      ∃ a shape, Arguments.ofTexts texts = .ok a ∧ (a.survey files input).2 = .ok shape ∧
        ((o.code = 0 ∧ ∃ text, a.form.text? shape = .ok (.ofString text) ∧
            o.Delivers files text (targetNamed texts)) ∨
          o.code = 1 ∧ ∃ text, a.form.text? shape = .ok text ∧
            o.Empties files text (targetNamed texts)) := by
  intro o
  cases harguments : Arguments.ofTexts texts with
  | error halt =>
    cases halt with
    | help =>
      have ho : o = ⟨0, helpText, "", files⟩ := by simp only [o, run, harguments]
      exact .inl ⟨ho ▸ rfl, Arguments.asksOfItself_of_help harguments⟩
    | misuse fault =>
      have ho : o = ⟨2, "", fault.complaint, files⟩ := by simp only [o, run, harguments]
      rw [ho]
      exact .inr (.inl ⟨.inr (.inl rfl), rfl, rfl⟩)
  | ok a =>
    have ho : o = a.execute files input outlet := by simp only [o, run, harguments]
    rw [ho, ← Arguments.target_of_ofTexts harguments]
    cases hversion : a.version with
    | true =>
      have hcode : (a.execute files input outlet).code = 0 := by
        simp [Arguments.execute, hversion]
      exact .inl ⟨hcode, Arguments.asksOfItself_of_version harguments hversion⟩
    | false =>
      obtain ⟨hcode, htrace⟩ | ⟨shape, hshape, hdone⟩ :=
        a.execute_cases files input outlet hversion
      · exact .inr (.inl ⟨hcode.imp id .inr, htrace⟩)
      · exact .inr (.inr ⟨a, shape, rfl, hshape, hdone⟩)

end Run

/-- A command line that asks for a declaration in a file. -/
def declarationTexts : List Loose :=
  [.ofString "-n", .ofString "Point", .ofString "--out=point.zig", .ofString "-v"]

/-- The text of a dict with one entry. -/
def pointInput : Input := .bytes "\x7b\"x\": 1\x7d".toUTF8.toList

/-- The declaration of the type of that dict. -/
def pointDeclaration : String :=
  "pub const Point = struct \x7b\n    x: i64,\n\x7d;\n"

/-- A command line with a name that has a half in it, as a byte beyond ASCII comes to be. -/
def halvedTexts : List Loose :=
  [.ofString "-n", [.half 0x4ff], .ofString "-o", .ofString "out.zig"]

/-- A file of some content where the output is to go. -/
def keptFiles : FileTree := ⟨[([.ofString "out.zig"], .file "i64".toUTF8.toList)]⟩

end JsonShape.Command
