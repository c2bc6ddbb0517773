import JsonShape.Proofs.Inference.Faults
import JsonShape.Proofs.Path
import JsonShape.Proofs.Survey
import Mathlib.Data.List.Forall2

/-!
Which fault of several sources is reported. All paths are looked up before any file is opened, and
all files are opened before the first one is read. From there on documents are read and inferred in
turns, so that a value without a shape comes before what is wrong with any later document.
-/

set_option autoImplicit false

namespace JsonShape

open Tally

/-! ### Paths -/

namespace FileTree

/-- Why a path cannot be a source. One that is too long to be looked up is no absent one. -/
def lookupFault? (t : FileTree) (p : Path) : Option SourceFault :=
  match t.find p with
  | .ok _ => none
  | .error .nameTooLong => some (.unusable p .nameTooLong)
  | .error _ => some (.absent p)

/-- Why the file at a path cannot be opened. -/
def openFault? (t : FileTree) (p : Path) : Option SourceFault :=
  match t.read p with
  | .ok _ => none
  | .error fault => some (.unusable p fault)

end FileTree

/-- Checks that are made one after the other fail as the first one that fails. -/
theorem forM_eq_elim {α ε : Type} {check : α → Except ε Unit} (fault? : α → Option ε)
    (h : ∀ a, check a = (fault? a).elim (.ok ()) .error) (l : List α) :
    l.forM check = (l.findSome? fault?).elim (.ok ()) .error := by
  induction l with
  | nil => rfl
  | cons a rest ih =>
    change (check a >>= fun _ => rest.forM check) = _
    rw [h a, ih, List.findSome?_cons]
    cases fault? a <;> rfl

namespace Source

variable (files : FileTree)

/-- A source is refused for the first path that cannot be looked up. -/
theorem ofTexts_eq_elim (texts : List String) :
    ofTexts files texts = ((texts.map Path.ofString).findSome? files.lookupFault?).elim
      (.ok ⟨texts.map Path.ofString⟩) .error := by
  simp only [ofTexts, ofPaths]
  rw [forM_eq_elim files.lookupFault? fun p => ?_]
  · cases (texts.map Path.ofString).findSome? files.lookupFault? <;> rfl
  · simp only [FileTree.lookupFault?]
    cases files.find p with
    | ok node => rfl
    | error fault => cases fault <;> rfl

/-- A document is the content of the file at a path, under the text of the path. -/
def Opens (p : Path) (d : String × List UInt8) : Prop := d.1 = p.text ∧ files.read p = .ok d.2

theorem rightUnique_opens : Relator.RightUnique (Opens files) :=
  fun _ _ _ hd he => Prod.ext (hd.1.trans he.1.symm) (Except.ok.inj (hd.2.symm.trans he.2))

/-- The files of a source are opened, unless one of the paths cannot be opened. -/
theorem inputs_of_paths_ne_nil {s : Source} (h : s.paths ≠ []) (input : Input) :
    (∃ fault, s.paths.findSome? files.openFault? = some fault ∧
        s.inputs files input = .error fault) ∨
      s.paths.findSome? files.openFault? = none ∧ ∃ docs,
        List.Forall₂ (Opens files) s.paths docs ∧
          s.inputs files input = .ok (docs.map fun d => (d.1, .bytes d.2)) := by
  simp only [inputs, if_neg h]
  generalize s.paths = paths
  induction paths with
  | nil => exact .inr ⟨rfl, [], .nil, rfl⟩
  | cons p rest ih =>
    simp only [List.mapM_cons, List.findSome?_cons, FileTree.openFault?]
    cases hread : files.read p with
    | error fault => exact .inl ⟨_, rfl, rfl⟩
    | ok bytes =>
      rcases ih with ⟨fault, hfault, herror⟩ | ⟨hnone, docs, hdocs, hok⟩
      · exact .inl ⟨fault, hfault, by rw [herror]; rfl⟩
      · exact .inr ⟨hnone, (p.text, bytes) :: docs, .cons ⟨rfl, hread⟩ hdocs, by rw [hok]; rfl⟩

end Source

/-! ### Documents -/

/-- The values of documents in order, up to the first one that is rejected and its fault. -/
inductive Reads : List (String × List UInt8) → List Value → Option SourceFault → Prop
  | done : Reads [] [] none
  | rejected {name : String} {bytes : List UInt8} {fault : Json.ReadFault}
      (h : Json.document? bytes = .error fault) (rest : List (String × List UInt8)) :
      Reads ((name, bytes) :: rest) [] (some (.unreadable name fault))
  | read {name : String} {bytes : List UInt8} {v : Value} {rest : List (String × List UInt8)}
      {values : List Value} {fault : Option SourceFault} (h : Json.document? bytes = .ok v)
      (later : Reads rest values fault) : Reads ((name, bytes) :: rest) (v :: values) fault

/-- The feed of some documents brings their values up to the first one that is rejected. -/
theorem Feed.reads_ofInputs (docs : List (String × List UInt8)) :
    Reads docs (ofInputs .documents (docs.map fun d => (d.1, .bytes d.2))).values
      (ofInputs .documents (docs.map fun d => (d.1, .bytes d.2))).fault := by
  induction docs with
  | nil => exact .done
  | cons d rest ih =>
    simp only [List.map_cons, ofInputs, ofInput]
    cases hread : Json.document? d.2 with
    | error fault => exact .rejected hread rest
    | ok v => exact .read hread ih

/-- Why a document is rejected or, if it is read, why inference finds no shape of its value. -/
def documentFault? (d : String × List UInt8) : Option SurveyFault :=
  match Json.document? d.2 with
  | .error fault => some (.source (.unreadable d.1 fault))
  | .ok v => (parse v).fault?.map .inference

/-- Faults of values come before the fault that ends their reading. -/
theorem Reads.findSome?_documentFault? {docs : List (String × List UInt8)} {values : List Value}
    {fault : Option SourceFault} (h : Reads docs values fault) :
    docs.findSome? documentFault? =
      ((values.findSome? fun v => (parse v).fault?).map .inference).or (fault.map .source) := by
  induction h with
  | done => rfl
  | rejected h rest => simp only [List.findSome?_cons, documentFault?, h]; rfl
  | @read _ _ v _ _ _ h _ ih =>
    simp only [List.findSome?_cons, documentFault?, h, ih]
    cases (parse v).fault? <;> rfl

/-! ### Surveys -/

namespace Tally

/-- Nesting that leaves no room is a fault of the whole document. -/
def inDocument : InferenceFault → InferenceFault
  | .tooDeep => .documentTooDeep
  | fault => fault

theorem fault?_ofDocument {α : Type} (t : Tally α) :
    t.ofDocument.fault? = t.fault?.map inDocument := by
  simp only [fault?, on_ofDocument]
  rcases t.on 0 with ⟨fault | a, reached⟩
  · cases fault <;> rfl
  · rfl

end Tally

/-- Inference on some documents fails as it does on the first one on which it fails. -/
theorem fst_on_parseMany (vs : List Value) (merges : Nat) :
    ((parseMany vs).on merges).1 = (vs.findSome? fun v => (parse v).fault?).elim
      (.ok (Shape.around (vs.map Value.shape))) .error := by
  obtain ⟨reached, hrun⟩ := Value.exists_on_inferOnto le_rfl vs (Shape.fitsLevels_unknown _) merges
  have hparse : (fun v => (parse v).fault?) =
      Option.map Tally.inDocument ∘ Value.fault? Value.nestingRoom :=
    funext fun v => fault?_ofDocument (infer v)
  rw [hparse, ← List.map_findSome?]
  simp only [parseMany, inferMany, on_ofDocument, hrun]
  cases vs.findSome? (Value.fault? Value.nestingRoom) with
  | none => rfl
  | some fault => cases fault <;> rfl

namespace Survey

/-- A survey fails as the first value does that has no shape, else as the feed does. -/
theorem outcome_ofFeed (feed : Feed) :
    (ofFeed feed).outcome =
      (((feed.values.findSome? fun v => (parse v).fault?).map .inference).or
        (feed.fault.map .source)).elim
          (.ok (Shape.around (feed.values.map Value.shape))) .error := by
  have htaken : (feed.events.foldl take start).outcome =
      ((feed.values.findSome? fun v => (parse v).fault?).map .inference).elim
        (.ok (Shape.around (feed.values.map Value.shape))) .error := by
    refine (foldl_take feed.events rfl).1.trans ?_
    change Except.mapError _ ((parseMany feed.values).on 0).1 = _
    rw [fst_on_parseMany]
    cases feed.values.findSome? fun v => (parse v).fault? <;> rfl
  cases hvalues : feed.values.findSome? fun v => (parse v).fault? with
  | some fault =>
    rw [hvalues] at htaken
    simp only [ofFeed, htaken, Option.map_some, Option.elim_some, Option.some_or]
  | none =>
    rw [hvalues] at htaken
    cases hfault : feed.fault with
    | some fault => simp [ofFeed, htaken, hfault]
    | none => simp [ofFeed, htaken, hfault]

end Survey

namespace Source

variable {files : FileTree} {texts : List String}

/-- What a source brings once its files are opened. -/
structure Brings (s : Source) (files : FileTree) (input : Input)
    (docs : List (String × List UInt8)) : Prop where
  /-- There is a document for each path. -/
  opens : List.Forall₂ (Opens files) s.paths docs
  /-- The values come up to the first document that is rejected. -/
  reads : Reads docs (s.feed files input .documents).values (s.feed files input .documents).fault
  /-- A survey reports the first document that is rejected or the value of which has no shape. -/
  outcome : (Survey.ofFeed (s.feed files input .documents)).outcome =
    (docs.findSome? documentFault?).elim
      (.ok (Shape.around ((s.feed files input .documents).values.map Value.shape))) .error

/-- A number, more lists than there is room for, and a list that is not closed. -/
def mixedDocs : List (String × List UInt8) :=
  [("a", [49]), ("b", List.replicate 901 91 ++ List.replicate 901 93), ("c", [91])]

/-- A file for each of the documents. -/
def mixedFiles : FileTree := ⟨mixedDocs.map fun d => ([.ofString d.1], .file d.2)⟩

theorem map_ofString_mixedDocs :
    (mixedDocs.map Prod.fst).map Path.ofString =
      mixedDocs.map fun d => ⟨"", [.ofString d.1]⟩ := by
  have hnames : ∀ d ∈ mixedDocs, .char '/' ∉ Loose.ofString d.1 ∧
      Loose.ofString d.1 ≠ [] ∧ Loose.ofString d.1 ≠ [.char '.'] := by decide +kernel
  rw [List.map_map]
  exact List.map_congr_left fun d hd => Path.ofLoose_of_not_mem (hnames d hd).1 (hnames d hd).2

/-- A text of one more character than a name may have. -/
def longText : String := String.ofList (List.replicate (FileTree.nameLimit + 1) 'a')

theorem ofString_longText :
    Path.ofString longText = ⟨"", [List.replicate (FileTree.nameLimit + 1) (.char 'a')]⟩ := by
  have hloose : Loose.ofString longText =
      List.replicate (FileTree.nameLimit + 1) (.char 'a') := by
    rw [longText, Loose.ofString_ofList, List.map_replicate]
  rw [Path.ofString, hloose]
  exact Path.ofLoose_of_not_mem (by decide +kernel) ⟨by decide +kernel, by decide +kernel⟩

end Source

end JsonShape
