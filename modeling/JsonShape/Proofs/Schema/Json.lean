import JsonShape.Output
import JsonShape.Proofs.Inference.Room
import JsonShape.Proofs.Json.Reading
import JsonShape.Proofs.Json.Telling
import JsonShape.Proofs.Schema
import JsonShape.Proofs.Schema.Text

/-!
Schemas written as JSON and read again. A schema with distinct names is read back as the tree it is,
if its floats are finite; the words for infinities and NaN are not JSON, and a text with one of them
is refused.
-/

set_option autoImplicit false

namespace JsonShape

/-! ### Finite schemas are read back -/

namespace Schema

mutual

/-- A value that a schema is read back as: the same texts and integers, and for every float a
decimal that converts to the same double. -/
inductive ReadsAs : Schema → Value → Prop
  | text (s : String) : ReadsAs (.text s) (.text s)
  | int (n : Int) : ReadsAs (.int n) (.int n)
  | float {x : Binary64} {d : Decimal} (h : d.toBinary64? = some x) :
      ReadsAs (.float x) (.decimal d)
  | entries {items : List (String × Schema)} {values : List (Key × Value)}
      (h : EntriesReadAs items values) : ReadsAs (.entries items) (.dict values)

/-- Entries that schemas are read back as, under the same names in the same order. -/
inductive EntriesReadAs : List (String × Schema) → List (Key × Value) → Prop
  | nil : EntriesReadAs [] []
  | cons {s : Schema} {v : Value} {items : List (String × Schema)} {values : List (Key × Value)}
      (name : String) (h : ReadsAs s v) (hrest : EntriesReadAs items values) :
      EntriesReadAs ((name, s) :: items) ((.text name, v) :: values)

end

end Schema

namespace Json

open Lexer Schema.Json
open Schema (ReadsAs EntriesReadAs)

/-- A text that is read as the tree of a schema. -/
def Recites (cs : List Char) (s : Schema) : Prop :=
  ∃ ts v, Spells cs ts ∧ Tells ts v ∧ ReadsAs s v

/-- A text that is read as further entries of a schema. -/
def RecitesEntries (cs : List Char) (items : List (String × Schema)) : Prop :=
  ∃ ts entries, Spells cs ts ∧ TellsEntries ts entries ∧
    EntriesReadAs items (entries.map fun e => (.text e.1, e.2))

theorem names_of_entriesReadAs {items : List (String × Schema)} {entries : List (String × Value)}
    (h : EntriesReadAs items (entries.map fun e => (.text e.1, e.2))) :
    items.map Prod.fst = entries.map Prod.fst := by
  induction entries generalizing items with
  | nil => cases h; rfl
  | cons e rest ih =>
    cases h with
    | cons name _ hrest => rw [List.map_cons, List.map_cons, ih hrest]

/-- An integer that can be written out has few enough digits to be read. -/
theorem digitCount_le_of_isSome {n : Int} (h : (digits? n).isSome = true) :
    Binary64.digitCount n.natAbs ≤ digitLimit := by
  rcases Nat.eq_zero_or_pos n.natAbs with hzero | hpos
  · rw [hzero]
    decide
  · rw [Binary64.digitCount_le_iff hpos, ← Nat.not_le]
    intro hlong
    rw [digits?_of_le hlong] at h
    cases h

theorem value?_intToken {n : Int} (h : (digits? n).isSome = true) :
    (⟨n < 0, n.natAbs, 0, 0, true⟩ : NumberToken).value? = .ok (.int n) := by
  have hsigned (m : Int) : (if m < 0 then -(m.natAbs : Int) else m.natAbs) = m := by
    split_ifs <;> omega
  have hcount := Nat.not_lt.mpr (digitCount_le_of_isSome h)
  simp only [NumberToken.value?, if_true, if_neg hcount, decide_eq_true_eq, hsigned]

theorem recites_int {n : Int} (h : (digits? n).isSome = true) :
    Recites (toString n).toList (.int n) :=
  ⟨_, _, spells_int n, tells_number (value?_intToken h), .int n⟩

theorem recites_float {x : Binary64} (h : x.isFinite = true) :
    Recites (x.text floatStyle).toList (.float x) := by
  cases x with
  | nan => exact absurd h Bool.false_ne_true
  | number negative code bounded =>
    have hstyle : floatStyle.pointBeforeExponent = false := rfl
    obtain ⟨n, hn, hspells⟩ := exists_spells_float hstyle negative bounded (of_decide_eq_true h)
    have hvalue : n.value? =
        .ok (.decimal (.finite n.negative n.coefficient (n.exponent - n.places))) := by
      simp only [NumberToken.value?, hn.integral, hn.inRange, if_true, Bool.false_eq_true, if_false]
    exact ⟨_, _, hspells, tells_number hvalue, .float (congrArg some hn.rounds)⟩

theorem spells_bodyText {depth : ℕ} {name : String} {value : Schema}
    {rest : List (String × Schema)} {ts us : List Token}
    (hvalue : Spells (textAt depth value).toList ts)
    (hrest : Spells (entriesAt depth rest).toList us) :
    Spells (bodyText depth name value rest) (entryTokens name ts ++ us) :=
  (covers_leadText depth name).append_spells
    (hvalue.append (continues_entriesAt depth rest) hrest)

theorem recites_entriesAt {items : List (String × Schema)} {depth : ℕ}
    (h : ∀ e ∈ items, Recites (textAt depth e.2).toList e.2) :
    RecitesEntries (entriesAt depth items).toList items := by
  induction items with
  | nil => exact ⟨[], [], fun _ _ _ => rfl, .nil, .nil⟩
  | cons e rest ih =>
    obtain ⟨name, value⟩ := e
    obtain ⟨⟨ts, v, hvalue, htells, hreads⟩, hmore⟩ := List.forall_mem_cons.mp h
    obtain ⟨us, entries, hrest, htellsRest, hreadsRest⟩ := ih hmore
    have hcomma : Covers [','] [.comma] := fun _ => rfl
    refine ⟨_, (name, v) :: entries, ?_, .cons name htells htellsRest, .cons name hreads hreadsRest⟩
    rw [toList_entriesAt_cons]
    exact hcomma.append_spells (spells_bodyText hvalue hrest)

theorem recites_entries {name : String} {value : Schema} {rest : List (String × Schema)}
    {depth : ℕ} (hnodup : (((name, value) :: rest).map Prod.fst).Nodup)
    (hvalue : Recites (textAt (depth + 1) value).toList value)
    (hrest : RecitesEntries (entriesAt (depth + 1) rest).toList rest) :
    Recites (textAt depth (.entries ((name, value) :: rest))).toList
      (.entries ((name, value) :: rest)) := by
  obtain ⟨ts, v, hvalue, htells, hreads⟩ := hvalue
  obtain ⟨us, entries, hrest, htellsRest, hreadsRest⟩ := hrest
  have hreadsAll := EntriesReadAs.cons name hreads hreadsRest
  have hnames : ((name, value) :: rest).map Prod.fst = ((name, v) :: entries).map Prod.fst :=
    names_of_entriesReadAs hreadsAll
  have hopen : Covers ['\x7b'] [.openDict] := fun _ => rfl
  have hbrace : Covers ['\x7d'] [.closeDict] := fun _ => rfl
  have hclose := ((covers_newline depth).append hbrace).spells
  refine ⟨_, _, ?_, tells_dict htells htellsRest (hnames ▸ hnodup), .entries hreadsAll⟩
  rw [toList_textAt_entries]
  exact hopen.append_spells
    ((spells_bodyText hvalue hrest).append (continues_newline depth _) hclose)

/-- A legible and finite schema with distinct names is read back. -/
theorem recites_textAt {s : Schema} (hkeyed : s.isKeyed = true) (hlegible : s.isLegible = true)
    (hfinite : s.isFinite = true) (depth : ℕ) : Recites (textAt depth s).toList s := by
  induction s using Schema.nodeInduction generalizing depth with
  | text s =>
    rw [textAt]
    exact ⟨_, _, (covers_string s).spells, tells_text s, .text s⟩
  | int n =>
    rw [textAt]
    exact recites_int hlegible
  | float x =>
    rw [textAt]
    exact recites_float hfinite
  | entries items ih =>
    obtain ⟨hnodup, hkeyed⟩ := Schema.isKeyed_entries_iff.mp hkeyed
    have hlegible := Schema.isLegible_entries_iff.mp hlegible
    have hfinite := Schema.isFinite_entries_iff.mp hfinite
    cases items with
    | nil =>
      have hcovers : Covers ['\x7b', '\x7d'] [.openDict, .closeDict] := fun _ => rfl
      rw [textAt]
      exact ⟨_, _, hcovers.spells, tells_dict_nil, .entries .nil⟩
    | cons e rest =>
      have hall := fun e he => ih e he (hkeyed e he) (hlegible e he) (hfinite e he) (depth + 1)
      obtain ⟨hfirst, hmore⟩ := List.forall_mem_cons.mp hall
      exact recites_entries hnodup hfirst (recites_entriesAt hmore)

/-! ### Other schemas are refused -/

theorem state_takeBytes_of_failed {l : Lexer} (h : l.state = .failed) (bytes : List UInt8) :
    (l.takeBytes bytes).state = .failed := by
  induction bytes generalizing l with
  | nil => exact h
  | cons b rest ih =>
    refine ih ?_
    simp only [take, h]
    rfl

theorem state_takeText_of_failed {l : Lexer} (h : l.state = .failed) (cs : List Char) :
    (l.takeText cs).state = .failed := by
  induction cs generalizing l with
  | nil => exact h
  | cons c rest ih => exact ih (state_takeBytes_of_failed h _)

theorem breaks_of_failed {cs : List Char}
    (h : ∀ read, (takeText ⟨read, .idle⟩ cs).state = .failed) : Breaks cs := by
  intro read rest _
  rw [takeText_append]
  exact state_takeText_of_failed (h read) rest

/-- The words for infinities and NaN begin no number. -/
theorem breaks_float {x : Binary64} (h : x.isFinite = false) :
    Breaks (x.text floatStyle).toList := by
  cases x with
  | nan => exact breaks_of_failed fun _ => rfl
  | number negative code bounded =>
    have hcode : code = Binary64.infinityCode :=
      Nat.le_antisymm bounded (Nat.not_lt.mp (of_decide_eq_false h))
    rw [Binary64.text, Binary64.magnitudeText, if_pos hcode]
    cases negative <;> exact breaks_of_failed fun _ => rfl

theorem isFinite_entries_cons (name : String) (value : Schema) (rest : List (String × Schema)) :
    (Schema.entries ((name, value) :: rest)).isFinite =
      (value.isFinite && (Schema.entries rest).isFinite) := rfl

/-- Of several entries that are not all finite, those before the first such one are read. -/
theorem breaks_bodyText {depth : ℕ} {name : String} {value : Schema}
    {rest : List (String × Schema)} (hkeyed : value.isKeyed = true)
    (hlegible : value.isLegible = true)
    (hvalue : value.isFinite = false → Breaks (textAt depth value).toList)
    (hrest : (Schema.entries rest).isFinite = false → Breaks (entriesAt depth rest).toList)
    (h : (Schema.entries ((name, value) :: rest)).isFinite = false) :
    Breaks (bodyText depth name value rest) := by
  have hcontinues := continues_entriesAt depth rest
  refine (covers_leadText depth name).breaks ?_
  cases hfinite : value.isFinite with
  | false => exact (hvalue hfinite).append hcontinues
  | true =>
    rw [isFinite_entries_cons, hfinite, Bool.true_and] at h
    obtain ⟨_, _, hspells, -⟩ := recites_textAt hkeyed hlegible hfinite depth
    exact hspells.breaks hcontinues (hrest h)

theorem breaks_entriesAt {items : List (String × Schema)} {depth : ℕ}
    (hkeyed : ∀ e ∈ items, e.2.isKeyed = true) (hlegible : ∀ e ∈ items, e.2.isLegible = true)
    (hitems : ∀ e ∈ items, e.2.isFinite = false → Breaks (textAt depth e.2).toList)
    (h : (Schema.entries items).isFinite = false) : Breaks (entriesAt depth items).toList := by
  induction items with
  | nil => exact absurd h Bool.noConfusion
  | cons e rest ih =>
    obtain ⟨hfirst, hkeyed⟩ := List.forall_mem_cons.mp hkeyed
    obtain ⟨hwritten, hlegible⟩ := List.forall_mem_cons.mp hlegible
    obtain ⟨hvalue, hitems⟩ := List.forall_mem_cons.mp hitems
    have hcomma : Covers [','] [.comma] := fun _ => rfl
    rw [toList_entriesAt_cons]
    exact hcomma.breaks (breaks_bodyText hfirst hwritten hvalue (ih hkeyed hlegible hitems) h)

/-- The reading of a legible schema with distinct names fails at an infinity or NaN. -/
theorem breaks_textAt {s : Schema} (hkeyed : s.isKeyed = true) (hlegible : s.isLegible = true)
    (h : s.isFinite = false) (depth : ℕ) : Breaks (textAt depth s).toList := by
  induction s using Schema.nodeInduction generalizing depth with
  | text s => exact absurd h Bool.noConfusion
  | int n => exact absurd h Bool.noConfusion
  | float x =>
    rw [textAt]
    exact breaks_float h
  | entries items ih =>
    obtain ⟨-, hkeyed⟩ := Schema.isKeyed_entries_iff.mp hkeyed
    have hlegible := Schema.isLegible_entries_iff.mp hlegible
    cases items with
    | nil => exact absurd h Bool.noConfusion
    | cons e rest =>
      have hall := fun e he hfinite => ih e he (hkeyed e he) (hlegible e he) hfinite (depth + 1)
      obtain ⟨hvalue, hmore⟩ := List.forall_mem_cons.mp hall
      obtain ⟨hfirst, hkeyed⟩ := List.forall_mem_cons.mp hkeyed
      obtain ⟨hwritten, hlegible⟩ := List.forall_mem_cons.mp hlegible
      have hopen : Covers ['\x7b'] [.openDict] := fun _ => rfl
      have hrest := breaks_entriesAt hkeyed hlegible hmore
      have hbody := breaks_bodyText hfirst hwritten hvalue hrest h
      rw [toList_textAt_entries]
      exact hopen.breaks (hbody.append (continues_newline depth _))

/-! ### Documents -/

theorem tokens_eq (bytes : List UInt8) :
    tokens bytes =
      match (Lexer.start.takeBytes bytes |>.take ' ').state with
      | .idle => (Lexer.start.takeBytes bytes |>.take ' ').read.reverse
      | _ => (.invalid :: (Lexer.start.takeBytes bytes |>.take ' ').read).reverse := rfl

theorem follows_newline : Follows ['\n'] := ⟨'\n', [], rfl, .inr rfl⟩

theorem takeBytes_document (s : Schema) :
    Lexer.start.takeBytes (document s).toUTF8.toList =
      takeText ⟨[], .idle⟩ ((textAt 0 s).toList ++ ['\n']) := by
  rw [takeBytes_toUTF8, document, String.toList_append]
  rfl

theorem tokens_document_of_spells {s : Schema} {ts : List Token}
    (h : Spells (textAt 0 s).toList ts) : tokens (document s).toUTF8.toList = ts := by
  have htake : takeText ⟨[], .idle⟩ ((textAt 0 s).toList ++ ['\n']) = ⟨ts.reverse, .idle⟩ := by
    rw [h [] _ follows_newline, List.append_nil]
    rfl
  rw [tokens_eq, takeBytes_document, htake]
  exact List.reverse_reverse ts

theorem tokens_document_of_breaks {s : Schema} (h : Breaks (textAt 0 s).toList) :
    ∃ ts, tokens (document s).toUTF8.toList = ts ++ [.invalid] := by
  rw [tokens_eq, takeBytes_document]
  have hfailed := h [] _ follows_newline
  generalize takeText ⟨[], .idle⟩ ((textAt 0 s).toList ++ ['\n']) = l at hfailed ⊢
  obtain ⟨read, state⟩ := l
  subst hfailed
  exact ⟨read.reverse, List.reverse_cons⟩

theorem document?_document_of_isFinite {s : Schema} (hkeyed : s.isKeyed = true)
    (hlegible : s.isLegible = true) (hfinite : s.isFinite = true) :
    ∃ v, document? (document s).toUTF8.toList = .ok v ∧ s.ReadsAs v := by
  obtain ⟨ts, v, hspells, htells, hreads⟩ := recites_textAt hkeyed hlegible hfinite 0
  exact ⟨v, document?_of_tells (tokens_document_of_spells hspells) htells, hreads⟩

theorem document?_document_of_not_isFinite {s : Schema} (hkeyed : s.isKeyed = true)
    (hlegible : s.isLegible = true) (h : s.isFinite = false) :
    ∃ fault, document? (document s).toUTF8.toList = .error fault := by
  obtain ⟨ts, htokens⟩ := tokens_document_of_breaks (breaks_textAt hkeyed hlegible h 0)
  exact document?_of_invalid htokens

end Json

theorem exists_schema?_of_parseMany {vs : List Value} (hvs : ∀ v ∈ vs, v.isJson = true) {s : Shape}
    {merges reached : ℕ} (h : (parseMany vs).on merges = (.ok s, reached)) :
    ∃ schema, s.schema? = .ok schema ∧ schema.Depicts s := by
  have hrun : (inferMany vs).on merges = (.ok s, reached) := by
    rw [parseMany, Tally.on_ofDocument] at h
    split at h
    · cases h
    · exact h
  obtain rfl := eq_around_of_on_inferMany hrun
  have htidy := Value.isTidy_shapes hvs
  have hfits := Shape.FitsLevels.around
    (List.forall_mem_map.mpr fun v hv => (Value.succeeds_of_on_inferOnto hrun v hv).fitsLevels)
  have hlevels : (Shape.around (vs.map Value.shape)).levels ≤ Value.nestingRoom := hfits.levels_le
  have hroom := Shape.schemaRoom_le (Shape.around (vs.map Value.shape))
  have hnesting := nestingRoom_fits
  exact Schema.exists_ofShape? (Shape.isTidy_around htidy) (by omega)

/-- What is inferred from JSON texts has a schema. Its JSON text is read back as the schema itself
if its float bounds are finite; otherwise it is no JSON, and is refused. There is no text only if
some length has too many digits to be written out. -/
theorem Output.document?_text_of_parseMany {texts : List (List UInt8)} {vs : List Value}
    (hread : List.Forall₂ (fun text v => Json.document? text = .ok v) texts vs) {s : Shape}
    {merges reached : ℕ} (hparse : (parseMany vs).on merges = (.ok s, reached)) {output : Output}
    (hformat : output.format = .json) :
    ∃ schema, s.schema? = .ok schema ∧
      ((∃ text, output.text? s = .ok text ∧
        ((s.isFinite = true ∧ ∃ v, Json.document? text.toUTF8.toList = .ok v ∧ schema.ReadsAs v) ∨
          (s.isFinite = false ∧ ∃ fault, Json.document? text.toUTF8.toList = .error fault))) ∨
        s.isLegible = false ∧ output.text? s = .error .tooManyDigits) := by
  have hvs : ∀ v ∈ vs, v.isJson = true :=
    ((List.forall₂_and_left vs texts).mp
      (hread.flip.imp fun _ _ h => ⟨Json.isJson_of_document? h, h⟩)).1
  obtain ⟨schema, hschema, hdepicts⟩ := exists_schema?_of_parseMany hvs hparse
  have htext : output.text? s =
      if schema.isLegible then .ok (Schema.Json.document schema) else .error .tooManyDigits := by
    simp only [OutputIn.text?, hformat, Shape.dump?, hschema, Except.mapError, bind, Except.bind]
    split <;> rfl
  refine ⟨schema, hschema, ?_⟩
  rw [← hdepicts.finite, ← hdepicts.legible]
  cases hlegible : schema.isLegible with
  | false => exact .inr ⟨rfl, by rw [htext, hlegible]; rfl⟩
  | true =>
    refine .inl ⟨Schema.Json.document schema, by rw [htext, hlegible]; rfl, ?_⟩
    cases hfinite : schema.isFinite with
    | true =>
      exact .inl ⟨rfl, Json.document?_document_of_isFinite hdepicts.keyed hlegible hfinite⟩
    | false =>
      exact .inr ⟨rfl, Json.document?_document_of_not_isFinite hdepicts.keyed hlegible hfinite⟩

/-- The bytes of `{"a\"": 2.5}` and of `{"b": [null, -7], "a\"": 1e3}`. -/
def quotedTexts : List (List UInt8) :=
  [[123, 34, 97, 92, 34, 34, 58, 32, 50, 46, 53, 125],
    [123, 34, 98, 34, 58, 32, 91, 110, 117, 108, 108, 44, 32, 45, 55, 93, 44, 32, 34, 97, 92, 34,
      34, 58, 32, 49, 101, 51, 125]]

/-- The documents in these texts. -/
def quotedRecords : List Value :=
  [.dict [(.text "a\"", .decimal (.finite false 25 (-1)))],
    .dict [(.text "b", .list [.null, .int (-7)]), (.text "a\"", .decimal (.finite false 1 3))]]

/-- The shape around these documents. -/
def quotedShape : Shape :=
  .record [("a\"", .float ⟨.ofCode false (Binary64.codeOfDecimal 25 (-1)),
      .ofCode false (Binary64.codeOfDecimal 1 3)⟩),
    ("b", .optional (.list (.point 2) (.optional (.int (.point (-7))))))]

/-- JSON output. -/
def jsonOutput : Output := ⟨.json, none, {}⟩

theorem document?_quotedTexts :
    List.Forall₂ (fun text v => Json.document? text = .ok v) quotedTexts quotedRecords :=
  .cons rfl (.cons rfl .nil)

theorem on_parseMany_quotedRecords : (parseMany quotedRecords).on 0 = (.ok quotedShape, 6) := rfl

theorem Output.document?_text_quotedShape :
    List.Forall₂ (fun text v => Json.document? text = .ok v) quotedTexts quotedRecords ∧
      (parseMany quotedRecords).on 0 = (.ok quotedShape, 6) ∧ jsonOutput.format = .json ∧
        ∃ schema text v, quotedShape.schema? = .ok schema ∧
          jsonOutput.text? quotedShape = .ok text ∧
            Json.document? text.toUTF8.toList = .ok v ∧ schema.ReadsAs v := by
  have hformat : jsonOutput.format = .json := rfl
  have hlegible : quotedShape.isLegible = true := by decide +kernel
  obtain ⟨schema, hschema, ⟨text, htext, ⟨-, v, hv, hreads⟩ | ⟨hinfinite, -⟩⟩ | ⟨hlong, -⟩⟩ :=
    document?_text_of_parseMany document?_quotedTexts on_parseMany_quotedRecords hformat
  · exact ⟨document?_quotedTexts, on_parseMany_quotedRecords, rfl, schema, text, v, hschema, htext,
      hv, hreads⟩
  · exact absurd hinfinite (by decide)
  · exact absurd (hlong.symm.trans hlegible) Bool.false_ne_true

/-- The bytes of `1e400`, a number beyond every double. -/
def hugeText : List UInt8 := [49, 101, 52, 48, 48]

/-- Not every JSON schema of inferred shapes is read back. -/
theorem Output.not_document?_text_of_parseMany :
    ¬ ∀ (texts : List (List UInt8)) (vs : List Value) (s : Shape) (reached : ℕ), texts ≠ [] →
      List.Forall₂ (fun text v => Json.document? text = .ok v) texts vs →
        (parseMany vs).on 0 = (.ok s, reached) →
          ∃ schema text v, s.schema? = .ok schema ∧ jsonOutput.text? s = .ok text ∧
            Json.document? text.toUTF8.toList = .ok v ∧ schema.ReadsAs v := by
  intro h
  have hread : Json.document? hugeText = .ok (.decimal (.finite false 1 400)) := rfl
  have hparse : (parseMany [.decimal (.finite false 1 400)]).on 0 =
      (.ok (.float (.point (.infinity false))), 1) := rfl
  obtain ⟨schema, text, v, hschema, htext, hv, -⟩ :=
    h [hugeText] _ _ _ (List.cons_ne_nil _ _) (.cons hread .nil) hparse
  cases hschema
  cases htext
  obtain ⟨fault, hfault⟩ := Json.document?_document_of_not_isFinite
    (s := .node "float" [("min", .float (.infinity false)), ("max", .float (.infinity false))])
    (by decide) (by decide) (by decide)
  exact Except.noConfusion rfl rfl (heq_of_eq (hfault.symm.trans hv))

end JsonShape
