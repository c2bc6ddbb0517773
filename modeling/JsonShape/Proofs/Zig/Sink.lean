import JsonShape.Proofs.Zig.Emission

/-!
Writing into a sink of limited room. Pieces go into the sink one by one, so the text in front of the
first fault either runs over the room, wherever in it that happens, or it fits, and then the fault
comes out, or the whole text is held if there is none.
-/

set_option autoImplicit false

namespace JsonShape.Zig

open Shape

namespace Sink

/-- One piece of text runs over the room of a sink, or it is held. -/
theorem pour_text (sink : Sink) (t : String) (rest : List (Piece String)) :
    sink.pour (.text t :: rest) =
      if sink.capacity < sink.held.length + t.length then .error .full
      else pour ⟨sink.capacity, sink.held ++ t⟩ rest := by
  rw [pour, String.length_append]

/-- The text in front of the first fault runs over the room of a sink, or all of it is held when the
fault comes. -/
theorem pour_eq (sink : Sink) (hheld : sink.held.length ≤ sink.capacity)
    (ps : List (Piece String)) :
    sink.pour ps =
      if sink.capacity < sink.held.length + (emission ps).1.length then .error .full
      else (emission ps).2.elim
        (.ok ⟨sink.capacity, sink.held ++ String.ofList (emission ps).1⟩) (.error ∘ .write) := by
  induction ps generalizing sink with
  | nil => simp [pour, emission, hheld]
  | cons p rest ih =>
    cases p with
    | fault f => simp [pour, emission, hheld]
    | text t =>
      rw [pour_text]
      by_cases hfull : sink.capacity < sink.held.length + t.length
      · have hover : sink.capacity < sink.held.length + (t.toList ++ (emission rest).1).length := by
          rw [List.length_append, String.length_toList]
          omega
        rw [if_pos hfull, emission, if_pos hover]
      · have hfits : (sink.held ++ t).length ≤ sink.capacity := by
          rw [String.length_append]
          omega
        rw [if_neg hfull, ih ⟨sink.capacity, sink.held ++ t⟩ hfits]
        simp [emission, String.append_assoc, Nat.add_assoc, ← String.length_toList]

end Sink

/-- With room for the nesting, the text of a shape in front of its first flaw either runs over a
sink of some capacity, and the sink is full; or it does not, and this flaw is the fault; or there is
no flaw, and the sink holds the text that is written. If all types have spellings, the flaws are the
foreign nodes. -/
theorem pour_declarationPieces (sp : Spelling) {s : Shape} (hroom : s.height < nestingRoom)
    (name : Option String) (capacity : Nat) :
    (sp.isComplete = true → flaws sp s = s.foreigns.map .ofForeign) ∧
      (flaws sp s = [] → write sp name s = .ok (String.ofList (writtenBefore sp name s))) ∧
      (capacity < (writtenBefore sp name s).length ∧
          (Sink.empty capacity).pour (declarationPieces sp name s) = .error .full ∨
        (writtenBefore sp name s).length ≤ capacity ∧ (∃ flaw later, flaws sp s = flaw :: later ∧
          (Sink.empty capacity).pour (declarationPieces sp name s) = .error (.write flaw)) ∨
        (writtenBefore sp name s).length ≤ capacity ∧ flaws sp s = [] ∧
          ∃ text, write sp name s = .ok text ∧
            (Sink.empty capacity).pour (declarationPieces sp name s) = .ok ⟨capacity, text⟩) := by
  have hemission := (emits_declarationPieces sp s name).resolve_right
    fun hdeep => Nat.not_le.mpr hroom hdeep.1
  have hwrite : flaws sp s = [] →
      write sp name s = .ok (String.ofList (writtenBefore sp name s)) := fun hflaws => by
    rw [write, assemble_eq, hemission, hflaws]
    rfl
  have hpour := (Sink.empty capacity).pour_eq (Nat.zero_le _) (declarationPieces sp name s)
  refine ⟨fun hsp => flaws_of_isComplete hsp s, hwrite, ?_⟩
  simp only [hemission, Sink.empty, String.length_empty, Nat.zero_add] at hpour
  by_cases hfull : capacity < (writtenBefore sp name s).length
  · rw [if_pos hfull] at hpour
    exact .inl ⟨hfull, hpour⟩
  · rw [if_neg hfull] at hpour
    refine .inr ?_
    have hfits := Nat.not_lt.mp hfull
    cases hflaws : flaws sp s with
    | nil =>
      rw [hflaws] at hpour
      refine .inr ⟨hfits, rfl, _, hwrite hflaws, hpour.trans ?_⟩
      simp
    | cons flaw later =>
      rw [hflaws] at hpour
      exact .inl ⟨hfits, flaw, later, rfl, hpour⟩

/-- A record with a foreign node below a mark, behind a name with a quote, and another one later. -/
def brokenRecord : Shape :=
  record [("a\"", list ⟨0, 3⟩ (int ⟨1, 2⟩)), ("while", optional (foreign (.int 5))),
    ("c", foreign .null)]

theorem pour_declarationPieces_brokenRecord :
    brokenRecord.height < nestingRoom ∧
      (writtenBefore {} (some "T") brokenRecord).length = 57 ∧
      (Sink.empty 56).pour (declarationPieces {} (some "T") brokenRecord) = .error .full ∧
      (Sink.empty 57).pour (declarationPieces {} (some "T") brokenRecord) =
        .error (.write (.foreign "5")) := by
  have hroom : brokenRecord.height < nestingRoom := by decide
  have hlength : (writtenBefore {} (some "T") brokenRecord).length = 57 := by decide
  have hnodes : brokenRecord.foreigns.map WriteFault.ofForeign =
      [.foreign "5", .foreign "None"] := by decide +kernel
  obtain ⟨-, -, hsmall⟩ := pour_declarationPieces {} hroom (some "T") 56
  obtain ⟨hflaws, -, hlarge⟩ := pour_declarationPieces {} hroom (some "T") 57
  rw [hlength] at hsmall hlarge
  rw [hflaws rfl, hnodes] at hlarge
  rcases hsmall with ⟨-, hfull⟩ | ⟨hfits, -⟩ | ⟨hfits, -⟩
  · rcases hlarge with ⟨hover, -⟩ | ⟨-, flaw, later, hfirst, hfault⟩ | ⟨-, hnone, -⟩
    · omega
    · obtain ⟨rfl, -⟩ := List.cons.inj hfirst
      exact ⟨hroom, hlength, hfull, hfault⟩
    · cases hnone
  · omega
  · omega

/-- An integer of 4301 digits, where a shape should stand. -/
def longForeign : Foreign := .int ((10 ^ 215) ^ 20)

/-- Spellings of which that of texts is missing. -/
def gappedSpelling : Spelling := { string := none }

/-- Not every flaw is told of as a foreign node: one of too many digits is not, and neither is a
type without a spelling, with no foreign node at all. -/
theorem not_pour_declarationPieces_foreign :
    (¬ ∀ (s : Shape) (capacity : Nat), s.height < nestingRoom →
      (∃ sink, (Sink.empty capacity).pour (declarationPieces {} none s) = .ok sink) ∨
        (Sink.empty capacity).pour (declarationPieces {} none s) = .error .full ∨
          ∃ shown, (Sink.empty capacity).pour (declarationPieces {} none s) =
            .error (.write (.foreign shown))) ∧
      ¬ ∀ (sp : Spelling) (s : Shape) (capacity : Nat), s.height < nestingRoom → s.foreigns = [] →
        (∃ sink, (Sink.empty capacity).pour (declarationPieces sp none s) = .ok sink) ∨
          (Sink.empty capacity).pour (declarationPieces sp none s) = .error .full := by
  constructor
  · intro h
    have hlong : WriteFault.ofForeign longForeign = .tooManyDigits := by decide +kernel
    have hpour : (Sink.empty 0).pour (declarationPieces {} none (foreign longForeign)) =
        .error (.write (.ofForeign longForeign)) := rfl
    rw [hlong] at hpour
    rcases h (foreign longForeign) 0 (by decide) with ⟨sink, hrun⟩ | hrun | ⟨shown, hrun⟩
    · cases hpour.symm.trans hrun
    · cases hpour.symm.trans hrun
    · cases hpour.symm.trans hrun
  · intro h
    have hpour : (Sink.empty 0).pour (declarationPieces gappedSpelling none (text ⟨1, 1⟩)) =
        .error (.write .unspelled) := rfl
    rcases h gappedSpelling (text ⟨1, 1⟩) 0 (by decide) rfl with ⟨sink, hrun⟩ | hrun
    · cases hpour.symm.trans hrun
    · cases hpour.symm.trans hrun

end JsonShape.Zig
