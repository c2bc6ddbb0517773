import JsonShape.Command.Run
import JsonShape.Proofs.Command.Texts
import JsonShape.Proofs.Zig.Script

/-!
The words of a command line, taken in turn. Whatever else they say, the output goes where the texts
want it; help and the version are asked for by a text that does so; and of texts without halves
comes an output without halves.
-/

set_option autoImplicit false

namespace JsonShape.Command

open Zig

namespace Arguments

/-- What is put out of a command line has no halves. -/
def IsPlain (a : Arguments) : Prop := ∃ output : Output, a.form = output.loose

theorem foldlM_raise_ok {flags : List Flag} {a b : Arguments}
    (h : flags.foldlM raise a = .ok b) :
    b.target = a.target ∧ b.form = a.form ∧
      (b.version = true → a.version = true ∨ .version ∈ flags) := by
  induction flags generalizing a with
  | nil =>
    cases h
    exact ⟨rfl, rfl, .inl⟩
  | cons f rest ih =>
    cases f with
    | help => cases h
    | version =>
      obtain ⟨htarget, hform, -⟩ := ih h
      exact ⟨htarget, hform, fun _ => .inr (List.mem_cons_self ..)⟩
    | items | verbose =>
      obtain ⟨htarget, hform, hversion⟩ := ih h
      exact ⟨htarget, hform, fun hb => (hversion hb).imp id (List.mem_cons_of_mem _)⟩

theorem foldlM_raise_error {flags : List Flag} {a : Arguments} {halt : Halt}
    (h : flags.foldlM raise a = .error halt) : halt = .help ∧ .help ∈ flags := by
  induction flags generalizing a with
  | nil => cases h
  | cons f rest ih =>
    cases f with
    | help =>
      cases h
      exact ⟨rfl, List.mem_cons_self ..⟩
    | version | items | verbose => exact (ih h).imp id (List.mem_cons_of_mem _)

theorem set_ok {a b : Arguments} {s : Setting} {value : Option Loose}
    (h : a.set s value = .ok b) :
    b.target = (if s = .output then .file (value.map .ofLoose) else a.target) ∧
      b.version = a.version ∧ (a.IsPlain → (∀ t ∈ value, t.IsPlain) → b.IsPlain) := by
  cases s with
  | spelling name =>
    cases h
    refine ⟨rfl, rfl, ?_⟩
    rintro ⟨output, hform⟩ hvalue
    obtain ⟨plain, rfl⟩ := Loose.exists_map_of_isPlain hvalue
    obtain ⟨hformat, hname, hspelling⟩ := OutputIn.mk.inj hform
    refine ⟨{ output with spelling := output.spelling.set name plain }, ?_⟩
    show OutputIn.mk a.format a.name (a.spelling.set name (plain.map .ofString)) = _
    rw [hformat, hname, hspelling, Output.loose, Spelling.set_loose]
  | name =>
    cases h
    refine ⟨rfl, rfl, ?_⟩
    rintro ⟨output, hform⟩ hvalue
    obtain ⟨plain, rfl⟩ := Loose.exists_map_of_isPlain hvalue
    obtain ⟨hformat, -, hspelling⟩ := OutputIn.mk.inj hform
    refine ⟨{ output with name := some (plain.getD "") }, ?_⟩
    show OutputIn.mk a.format (some ((plain.map Loose.ofString).getD [])) a.spelling = _
    rw [hformat, hspelling, Output.loose]
    cases plain <;> rfl
  | output =>
    cases h
    exact ⟨rfl, rfl, fun hplain _ => hplain⟩
  | format =>
    have hformat : ∃ format, b = { a with format } := by
      cases value with
      | none => exact ⟨.zig, (Except.ok.inj h).symm⟩
      | some text =>
        simp only [set] at h
        split at h
        · exact ⟨_, (Except.ok.inj h).symm⟩
        · cases h
    obtain ⟨format, rfl⟩ := hformat
    refine ⟨rfl, rfl, ?_⟩
    rintro ⟨output, hform⟩ -
    obtain ⟨-, hname, hspelling⟩ := OutputIn.mk.inj hform
    refine ⟨{ output with format }, ?_⟩
    show OutputIn.mk format a.name a.spelling = _
    rw [hname, hspelling, Output.loose]

theorem set_ne_help (a : Arguments) (s : Setting) (value : Option Loose) :
    a.set s value ≠ .error .help := by
  cases s with
  | spelling name => nofun
  | name => nofun
  | output => nofun
  | format =>
    cases value with
    | none => nofun
    | some text =>
      intro h
      simp only [set] at h
      split at h <;> cases h

end Arguments

/-! ### One word -/

/-- The setting that a word gives a value, with that value. -/
def Cluster.given (cluster : Cluster) (awaited : Option Loose) : Option (Setting × Loose) :=
  match cluster.ending, awaited with
  | .value s text, _ => some (s, text)
  | .awaited _ s, some text => some (s, text)
  | _, _ => none

theorem Target.file_valueOf (text : Loose) :
    Target.file ((Intake.valueOf text).map .ofLoose) = .ofText text := by
  by_cases h : text = dashes
  · simp [Target.ofText, Intake.valueOf, h, dashes]
  · have h' : text ≠ Loose.ofString "--" := h
    simp [Target.ofText, Intake.valueOf, h, h']

theorem Intake.perform_eq (p : Intake) (cluster : Cluster) (awaited : Option Loose) :
    p.perform cluster awaited = do
      let raised ← cluster.flags.foldlM Arguments.raise p.arguments
      match cluster.given awaited with
      | some (s, text) => return { p with arguments := ← raised.set s (valueOf text) }
      | none => return { p with arguments := raised } := by
  unfold perform Cluster.given
  cases cluster.ending <;> cases awaited <;> rfl

/-- Where the output goes after a mention of it, with the text that the mention awaits. -/
def Mention.target (mention : Mention) (awaited : Option Loose) (before : Target) : Target :=
  match mention, awaited with
  | path text, _ => .ofText text
  | next, some text => .ofText text
  | _, _ => before

theorem Cluster.mention_target (cluster : Cluster) (awaited : Option Loose) (before : Target) :
    cluster.ending.mention.target awaited before =
      (cluster.given awaited).elim before fun x =>
        if x.1 = .output then .ofText x.2 else before := by
  unfold given
  cases cluster.ending with
  | none => rfl
  | value s text => cases s <;> rfl
  | awaited last s =>
    cases awaited with
    | none => cases s <;> rfl
    | some text => cases s <;> rfl

/-- What a word does to what is asked for. -/
theorem Intake.perform_ok {p q : Intake} {cluster : Cluster} {awaited : Option Loose}
    (h : p.perform cluster awaited = .ok q) :
    q.arguments.target = cluster.ending.mention.target awaited p.arguments.target ∧
    (q.arguments.version = true → p.arguments.version = true ∨ .version ∈ cluster.flags) ∧
    (p.arguments.IsPlain → (∀ x ∈ cluster.given awaited, x.2.IsPlain) →
      q.arguments.IsPlain) := by
  rw [perform_eq] at h
  rw [cluster.mention_target]
  cases hraised : cluster.flags.foldlM Arguments.raise p.arguments with
  | error halt => simp [hraised, bind, Except.bind] at h
  | ok raised =>
    obtain ⟨htarget, hform, hversion⟩ := Arguments.foldlM_raise_ok hraised
    have hsame : p.arguments.IsPlain → raised.IsPlain := fun ⟨output, hp⟩ =>
      ⟨output, hform.trans hp⟩
    simp only [hraised, bind, Except.bind] at h
    cases hgiven : cluster.given awaited with
    | none =>
      simp only [hgiven, pure, Except.pure, Except.ok.injEq] at h
      subst h
      exact ⟨htarget, hversion, fun hp _ => hsame hp⟩
    | some given =>
      obtain ⟨s, text⟩ := given
      cases hset : raised.set s (valueOf text) with
      | error halt => simp [hgiven, hset] at h
      | ok b =>
        simp only [hgiven, hset, pure, Except.pure, Except.ok.injEq] at h
        subst h
        obtain ⟨htarget', hversion', hplain'⟩ := Arguments.set_ok hset
        refine ⟨?_, hversion' ▸ hversion, ?_⟩
        · rw [htarget', htarget, Target.file_valueOf]
          rfl
        · intro hp htext
          apply hplain' (hsame hp)
          intro t ht
          unfold valueOf at ht
          split at ht
          · cases ht
          · cases ht
            exact htext _ rfl

theorem Intake.perform_eq_help {p : Intake} {cluster : Cluster} {awaited : Option Loose}
    (h : p.perform cluster awaited = .error .help) : .help ∈ cluster.flags := by
  rw [perform_eq] at h
  cases hraised : cluster.flags.foldlM Arguments.raise p.arguments with
  | error halt => exact (Arguments.foldlM_raise_error hraised).2
  | ok raised =>
    simp only [hraised, bind, Except.bind] at h
    cases hgiven : cluster.given awaited with
    | none => simp [hgiven, pure, Except.pure] at h
    | some given =>
      obtain ⟨s, text⟩ := given
      cases hset : raised.set s (valueOf text) with
      | error halt =>
        simp only [hgiven, hset, Except.error.injEq] at h
        exact absurd (h ▸ hset) (Arguments.set_ne_help raised s _)
      | ok b => simp [hgiven, hset, pure, Except.pure] at h

/-! ### All words -/

@[simp] theorem outputPaths_dashes (rest : List Loose) : outputPaths (dashes :: rest) = [] := by
  rw [outputPaths.eq_def]
  exact if_pos rfl

section Paths

variable {text : Loose} (hne : text ≠ dashes)
include hne

theorem outputPaths_of_none (h : Mention.ofText text = .none) (rest : List Loose) :
    outputPaths (text :: rest) = outputPaths rest := by
  rw [outputPaths.eq_def]
  simp only [if_neg hne, h]

theorem outputPaths_of_path {path : Loose} (h : Mention.ofText text = .path path)
    (rest : List Loose) : outputPaths (text :: rest) = path :: outputPaths rest := by
  rw [outputPaths.eq_def]
  simp only [if_neg hne, h]

theorem outputPaths_of_next (h : Mention.ofText text = .next) (path : Loose) (rest : List Loose) :
    outputPaths (text :: path :: rest) = path :: outputPaths rest := by
  rw [outputPaths.eq_def]
  simp only [if_neg hne, h]

/-- A text that does not take the next one as a path says what it says whatever follows. -/
theorem outputPaths_singleton_append (h : Mention.ofText text ≠ .next) (rest : List Loose) :
    outputPaths ([text] ++ rest) = outputPaths [text] ++ outputPaths rest := by
  show outputPaths (text :: rest) = _
  cases hmention : Mention.ofText text with
  | none =>
    rw [outputPaths_of_none hne hmention, outputPaths_of_none hne hmention]
    rfl
  | next => exact absurd hmention h
  | path p =>
    rw [outputPaths_of_path hne hmention, outputPaths_of_path hne hmention]
    rfl

/-- A text and a silent one behind it say what they say whatever follows. -/
theorem outputPaths_pair_append {value : Loose} (hvalue : value ≠ dashes)
    (hsilent : Mention.ofText value = .none) (rest : List Loose) :
    outputPaths ([text, value] ++ rest) = outputPaths [text, value] ++ outputPaths rest := by
  show outputPaths (text :: value :: rest) = _
  have hskip := outputPaths_of_none hvalue hsilent
  cases hmention : Mention.ofText text with
  | none =>
    rw [outputPaths_of_none hne hmention, outputPaths_of_none hne hmention, hskip, hskip]
    rfl
  | next =>
    rw [outputPaths_of_next hne hmention, outputPaths_of_next hne hmention]
    rfl
  | path p =>
    rw [outputPaths_of_path hne hmention, outputPaths_of_path hne hmention, hskip, hskip]
    rfl

theorem target_singleton (before : Target) :
    ((outputPaths [text]).getLast?.map Target.ofText).getD before =
      (Mention.ofText text).target none before := by
  cases hmention : Mention.ofText text with
  | none =>
    rw [outputPaths_of_none hne hmention]
    rfl
  | next =>
    rw [outputPaths.eq_def]
    simp only [if_neg hne, hmention]
    rfl
  | path p =>
    rw [outputPaths_of_path hne hmention]
    rfl

theorem target_pair {value : Loose} (hvalue : value ≠ dashes)
    (hsilent : Mention.ofText value = .none) (before : Target) :
    ((outputPaths [text, value]).getLast?.map Target.ofText).getD before =
      (Mention.ofText text).target (some value) before := by
  have hskip := outputPaths_of_none hvalue hsilent []
  cases hmention : Mention.ofText text with
  | none =>
    rw [outputPaths_of_none hne hmention, hskip]
    rfl
  | next =>
    rw [outputPaths_of_next hne hmention]
    rfl
  | path p =>
    rw [outputPaths_of_path hne hmention, hskip]
    rfl

theorem AsksOfItself.head (h : asksForHelp text ∨ asksForVersion text) (rest : List Loose) :
    AsksOfItself (text :: rest) := by
  refine ⟨text, ?_, h⟩
  rw [List.takeWhile_cons_of_pos (by simpa using hne)]
  exact List.mem_cons_self ..

end Paths

/-- What is asked for after some texts is what they say, beside what was asked for before. -/
structure Heard (texts : List Loose) (a b : Arguments) : Prop where
  target : b.target = ((outputPaths texts).getLast?.map Target.ofText).getD a.target
  version : b.version = true → a.version = true ∨ AsksOfItself texts
  plain : (∀ text ∈ texts, text.IsPlain) → a.IsPlain → b.IsPlain

theorem AsksOfItself.append {taken : List Loose} (hne : ∀ text ∈ taken, text ≠ dashes)
    {rest : List Loose} :
    AsksOfItself (taken ++ rest) ↔ AsksOfItself taken ∨ AsksOfItself rest := by
  have hall : ∀ text ∈ taken, decide (text ≠ dashes) = true := by simpa using hne
  have htaken : taken.takeWhile (· ≠ dashes) = taken := List.takeWhile_eq_self_iff.mpr hall
  unfold AsksOfItself
  rw [List.takeWhile_append_of_pos hall, htaken]
  simp only [List.mem_append, or_and_right, exists_or]

namespace Heard

theorem append {taken rest : List Loose} {a b c : Arguments}
    (hne : ∀ text ∈ taken, text ≠ dashes)
    (hpaths : outputPaths (taken ++ rest) = outputPaths taken ++ outputPaths rest)
    (hfirst : Heard taken a b) (hlater : Heard rest b c) : Heard (taken ++ rest) a c where
  target := by
    rw [hlater.target, hfirst.target, hpaths, List.getLast?_append]
    cases (outputPaths rest).getLast? <;> rfl
  version := by
    intro hc
    rw [AsksOfItself.append hne, ← or_assoc]
    exact (hlater.version hc).imp hfirst.version id
  plain := by
    intro hplain ha
    apply hlater.plain fun text ht => hplain text (List.mem_append_right _ ht)
    exact hfirst.plain (fun text ht => hplain text (List.mem_append_left _ ht)) ha

theorem refl (a : Arguments) : Heard [] a a := ⟨rfl, .inl, fun _ ha => ha⟩

/-- A text that says nothing leaves what concerns the output. -/
theorem of_silent {text : Loose} {a b : Arguments} (hne : text ≠ dashes)
    (hmention : Mention.ofText text = .none) (htarget : b.target = a.target)
    (hversion : b.version = a.version) (hform : b.form = a.form) : Heard [text] a b where
  target := by
    rw [target_singleton hne, hmention]
    exact htarget
  version hb := .inl (hversion ▸ hb)
  plain := fun _ ⟨output, ha⟩ => ⟨output, hform.trans ha⟩

section Perform

variable {p q : Intake} {text : Loose} {cluster : Cluster} (hne : text ≠ dashes)
  (hmeans : cluster.Means text)
include hne hmeans

/-- A word that has all it needs is taken for what its text says. -/
theorem of_perform (hending : ∀ s x, cluster.ending ≠ .awaited s x)
    (h : p.perform cluster none = .ok q) : Heard [text] p.arguments q.arguments := by
  obtain ⟨htarget, hversion, hplain⟩ := Intake.perform_ok h
  refine ⟨?_, ?_, ?_⟩
  · rw [htarget, target_singleton hne, hmeans.mention]
  · intro hq
    exact (hversion hq).imp id fun hflag => .head hne (.inr (hmeans.version hflag)) []
  · intro htexts hp
    apply hplain hp
    intro x hx
    cases hcluster : cluster.ending with
    | none => simp [Cluster.given, hcluster] at hx
    | value s path =>
      simp only [Cluster.given, hcluster, Option.mem_def, Option.some.injEq] at hx
      subst hx
      exact (htexts text (List.mem_cons_self ..)).suffix (hmeans.value s path hcluster)
    | awaited s x => exact absurd hcluster (hending s x)

/-- A word is taken with the next text as its value for what the two texts say. -/
theorem of_perform_awaited {last : Switch} {x : Setting} {value : Loose}
    (hcluster : cluster.ending = .awaited last x) (hvalue : value ≠ dashes)
    (hsilent : Mention.ofText value = .none)
    (h : p.perform cluster (some value) = .ok q) :
    Heard [text, value] p.arguments q.arguments := by
  obtain ⟨htarget, hversion, hplain⟩ := Intake.perform_ok h
  have hgiven : cluster.given (some value) = some (x, value) := by
    simp [Cluster.given, hcluster]
  refine ⟨?_, ?_, ?_⟩
  · rw [htarget, target_pair hne hvalue hsilent, hmeans.mention]
  · intro hq
    exact (hversion hq).imp id fun hflag => .head hne (.inr (hmeans.version hflag)) [value]
  · intro htexts hp
    apply hplain hp
    intro y hy
    cases hgiven.symm.trans hy
    exact htexts value (List.mem_cons_of_mem _ (List.mem_cons_self ..))

end Perform

end Heard

/-- What comes of some texts is what they say: what they ask for, or a halt for help. -/
def Taken (texts : List Loose) (a : Arguments) : Except Halt Intake → Prop
  | .ok p => Heard texts a p.arguments
  | .error .help => AsksOfItself texts
  | .error (.misuse _) => True

theorem Taken.append {taken rest : List Loose} {a b : Arguments} {result : Except Halt Intake}
    (hne : ∀ text ∈ taken, text ≠ dashes)
    (hpaths : outputPaths (taken ++ rest) = outputPaths taken ++ outputPaths rest)
    (hfirst : Heard taken a b) (hlater : Taken rest b result) :
    Taken (taken ++ rest) a result := by
  cases result with
  | ok p => exact Heard.append hne hpaths hfirst hlater
  | error halt =>
    cases halt with
    | help => exact (AsksOfItself.append hne).mpr (.inr hlater)
    | misuse fault => trivial

/-- A text that says nothing may be left out. -/
theorem Taken.cons_silent {text : Loose} {rest : List Loose} {a b : Arguments}
    {result : Except Halt Intake} (hne : text ≠ dashes) (hmention : Mention.ofText text = .none)
    (htarget : b.target = a.target) (hversion : b.version = a.version) (hform : b.form = a.form)
    (h : Taken rest b result) : Taken (text :: rest) a result := by
  have hpaths := outputPaths_singleton_append hne (by simp [hmention]) rest
  apply Taken.append (by simpa using hne) hpaths _ h
  exact Heard.of_silent hne hmention htarget hversion hform

namespace Intake

theorem plain_arguments (p : Intake) (text : Loose) :
    (p.plain text).arguments.target = p.arguments.target ∧
      (p.plain text).arguments.version = p.arguments.version ∧
      (p.plain text).arguments.form = p.arguments.form := by
  unfold plain
  split <;> exact ⟨rfl, rfl, rfl⟩

@[simp] theorem endGroup_arguments (p : Intake) : p.endGroup.arguments = p.arguments := by
  unfold endGroup
  split <;> rfl

@[simp] theorem separate_arguments (p : Intake) : p.separate.arguments = p.arguments := by
  unfold separate
  split <;> rfl

/-- Plain words leave what concerns the output. -/
theorem take_map_plain (texts : List Loose) (p : Intake) :
    ∃ q, p.take (texts.map .plain) = .ok q ∧ q.arguments.target = p.arguments.target ∧
      q.arguments.version = p.arguments.version ∧ q.arguments.form = p.arguments.form := by
  induction texts generalizing p with
  | nil => exact ⟨p, by rw [List.map_nil, take], rfl, rfl, rfl⟩
  | cons text rest ih =>
    obtain ⟨q, hq, htarget, hversion, hform⟩ := ih (p.plain text)
    obtain ⟨htarget', hversion', hform'⟩ := p.plain_arguments text
    refine ⟨q, ?_, htarget.trans htarget', hversion.trans hversion', hform.trans hform'⟩
    rw [List.map_cons, take, hq]

end Intake

theorem Word.eq_nil_of_ofTexts {texts : List Loose} (h : ofTexts texts = .ok []) : texts = [] := by
  cases texts with
  | nil => rfl
  | cons text rest =>
    simp only [ofTexts, bind, Except.bind] at h
    split at h
    · cases h
    · split at h
      · cases h
      · split at h <;> cases h

theorem Word.ofTexts_eq_cons {texts : List Loose} {word : Word} {words : List Word}
    (h : ofTexts texts = .ok (word :: words)) :
    ∃ text rest, texts = text :: rest ∧ ofText text = .ok word ∧
      ((word = separator ∧ words = rest.map plain) ∨
        (word ≠ separator ∧ ofTexts rest = .ok words)) := by
  cases texts with
  | nil => cases h
  | cons text rest =>
    refine ⟨text, rest, rfl, ?_⟩
    cases htext : ofText text with
    | error fault => simp [ofTexts, htext, bind, Except.bind] at h
    | ok first =>
      by_cases hfirst : first = separator
      · subst hfirst
        simp only [ofTexts, htext, bind, Except.bind, pure, Except.pure, Except.ok.injEq,
          List.cons.injEq] at h
        obtain ⟨rfl, rfl⟩ := h
        exact ⟨rfl, .inl ⟨rfl, rfl⟩⟩
      · have hcons : ofTexts (text :: rest) = (ofTexts rest).map (first :: ·) := by
          simp only [ofTexts, htext, bind, Except.bind]
          cases first with
          | separator => exact absurd rfl hfirst
          | _ => cases ofTexts rest <;> rfl
        rw [hcons] at h
        cases hrest : ofTexts rest with
        | error fault => simp [hrest, Except.map] at h
        | ok later =>
          simp only [hrest, Except.map, Except.ok.injEq, List.cons.injEq] at h
          obtain ⟨rfl, rfl⟩ := h
          exact ⟨rfl, .inr ⟨hfirst, rfl⟩⟩

/-- A word that is neither the separator nor a switch comes of a text that says nothing. -/
theorem Word.silent_of_ofTexts {texts : List Loose} {word : Word} {words : List Word}
    (h : ofTexts texts = .ok (word :: words)) (hseparator : word ≠ separator)
    (hswitch : ∀ s tail, word ≠ switch s tail) :
    ∃ text rest, texts = text :: rest ∧ (word = plain text ∨ word = unknown text) ∧
      text ≠ dashes ∧ Mention.ofText text = .none ∧ ofTexts rest = .ok words := by
  obtain ⟨text, rest, rfl, hword, ⟨rfl, -⟩ | ⟨-, hrest⟩⟩ := ofTexts_eq_cons h
  · exact absurd rfl hseparator
  · obtain ⟨rfl, -⟩ | ⟨hsame, hne, hmention⟩ | ⟨s, tail, rfl, -⟩ := ofText_cases hword
    · exact absurd rfl hseparator
    · exact ⟨text, rest, rfl, hsame, hne, hmention, hrest⟩
    · exact absurd rfl (hswitch s tail)

/-- A switch comes of a text for which it is taken. -/
theorem Word.means_of_ofTexts {texts : List Loose} {s : Switch} {tail : Tail} {words : List Word}
    (h : ofTexts texts = .ok (switch s tail :: words)) :
    ∃ text rest, texts = text :: rest ∧ text ≠ dashes ∧
      (∀ cluster, s.request tail = .ok cluster → cluster.Means text) ∧
      ofTexts rest = .ok words := by
  obtain ⟨text, rest, rfl, hword, ⟨hseparator, -⟩ | ⟨-, hrest⟩⟩ := ofTexts_eq_cons h
  · cases hseparator
  · obtain ⟨hseparator, -⟩ | ⟨hsame, -⟩ | ⟨_, _, hswitch, hne, hmeans⟩ := ofText_cases hword
    · cases hseparator
    · obtain hsame | hsame := hsame <;> cases hsame
    · cases hswitch
      exact ⟨text, rest, rfl, hne, hmeans, hrest⟩

/-- What comes of one more word is what its text says, with that of its value, if one is awaited. -/
theorem Taken.perform {taken rest : List Loose} {words : List Word} {p : Intake}
    {cluster : Cluster} {awaited : Option Loose} (hne : ∀ text ∈ taken, text ≠ dashes)
    (hpaths : outputPaths (taken ++ rest) = outputPaths taken ++ outputPaths rest)
    (hheard : ∀ q, p.perform cluster awaited = .ok q → Heard taken p.arguments q.arguments)
    (hhelp : .help ∈ cluster.flags → AsksOfItself (taken ++ rest))
    (hlater : ∀ q : Intake, Taken rest q.arguments (q.take words)) :
    Taken (taken ++ rest) p.arguments (do (← p.perform cluster awaited).take words) := by
  cases hperform : p.perform cluster awaited with
  | error halt =>
    cases halt with
    | help => exact hhelp (Intake.perform_eq_help hperform)
    | misuse fault => trivial
  | ok q => exact (hlater q).append hne hpaths (hheard q hperform)

/-- Behind the two dashes no text says anything. -/
theorem Taken.cons_dashes (texts : List Loose) (p : Intake) :
    Taken (dashes :: texts) p.arguments (p.separate.take (texts.map .plain)) := by
  obtain ⟨q, hq, htarget, hversion, hform⟩ := Intake.take_map_plain texts p.separate
  rw [p.separate_arguments] at htarget hversion hform
  rw [hq]
  refine ⟨?_, fun hraised => .inl (hversion ▸ hraised), ?_⟩
  · rw [htarget, outputPaths_dashes]
    rfl
  · intro _ ⟨output, hp⟩
    exact ⟨output, hform.trans hp⟩

/-- What comes of the words of some texts is what the texts say. -/
theorem taken_take {texts : List Loose} {words : List Word} (h : Word.ofTexts texts = .ok words)
    (p : Intake) : Taken texts p.arguments (p.take words) := by
  -- The induction is on how the words are taken: the texts come apart as the words do, one by one,
  -- or two at a time where a setting takes the next text.
  fun_induction Intake.take p words generalizing texts with
  | case1 p =>
    rw [Word.eq_nil_of_ofTexts h]
    exact Heard.refl p.arguments
  | case2 p text rest ih =>
    obtain ⟨t, ts, rfl, hword | hword, hne, hmention, hrest⟩ :=
      Word.silent_of_ofTexts h nofun nofun
    · obtain ⟨htarget, hversion, hform⟩ := p.plain_arguments text
      exact (ih hrest).cons_silent hne hmention htarget hversion hform
    · cases hword
  | case3 p rest ih =>
    obtain ⟨text, ts, rfl, hword, ⟨-, rfl⟩ | ⟨hnot, -⟩⟩ := Word.ofTexts_eq_cons h
    · obtain ⟨-, rfl⟩ | ⟨hsame, -⟩ | ⟨_, _, hsame, -⟩ := Word.ofText_cases hword
      · exact Taken.cons_dashes ts p
      · obtain hsame | hsame := hsame <;> cases hsame
      · cases hsame
    · exact absurd rfl hnot
  | case4 p text rest ih =>
    obtain ⟨t, ts, rfl, hword | hword, hne, hmention, hrest⟩ :=
      Word.silent_of_ofTexts h nofun nofun
    · cases hword
    · have hsame : (p.endGroup.stray text).arguments = p.arguments := p.endGroup_arguments
      exact (ih hrest).cons_silent hne hmention (by rw [hsame]) (by rw [hsame]) (by rw [hsame])
  | case5 => trivial
  | case6 p s tail cluster hrequest last x value later hending ih =>
    obtain ⟨text, ts, rfl, hne, hmeans, hrest⟩ := Word.means_of_ofTexts h
    obtain ⟨t, rest, rfl, hword | hword, hvalue, hsilent, hlater⟩ :=
      Word.silent_of_ofTexts hrest nofun nofun
    · cases hword
      have hpaths := outputPaths_pair_append hne hvalue hsilent rest
      rw [← p.endGroup_arguments]
      refine Taken.perform (by simp [hne, hvalue]) hpaths (fun q => ?_) (fun hflag => ?_)
        (fun q => ih q hlater)
      · exact Heard.of_perform_awaited hne (hmeans cluster hrequest) hending hvalue hsilent
      · exact .head hne (.inl ((hmeans cluster hrequest).help hflag)) _
    · cases hword
  | case7 => trivial
  | case8 p s tail cluster hrequest words hplain hawaited ih =>
    obtain ⟨text, rest, rfl, hne, hmeans, hrest⟩ := Word.means_of_ofTexts h
    have hmention : Mention.ofText text ≠ .next := by
      rw [(hmeans cluster hrequest).mention]
      exact Ending.mention_ne_next hawaited
    have hpaths := outputPaths_singleton_append hne hmention rest
    rw [← p.endGroup_arguments]
    refine Taken.perform (by simp [hne]) hpaths (fun q => ?_) (fun hflag => ?_)
      (fun q => ih q hrest)
    · exact Heard.of_perform hne (hmeans cluster hrequest) hawaited
    · exact .head hne (.inl ((hmeans cluster hrequest).help hflag)) _

namespace Arguments

theorem ofTexts_ok {texts : List Loose} {a : Arguments} (h : ofTexts texts = .ok a) :
    ∃ words p, Word.ofTexts texts = .ok words ∧ Intake.start.take words = .ok p ∧
      p.arguments = a := by
  cases hwords : Word.ofTexts texts with
  | error fault => simp [ofTexts, hwords, Except.mapError, bind, Except.bind] at h
  | ok words =>
    cases htake : Intake.start.take words with
    | error halt => simp [ofTexts, hwords, htake, Except.mapError, bind, Except.bind] at h
    | ok p =>
      refine ⟨words, p, rfl, htake, ?_⟩
      simp only [ofTexts, hwords, htake, Except.mapError, bind, Except.bind] at h
      split at h
      · cases h
      · exact Except.ok.inj h

/-- What the texts of a command line ask for is what they say. -/
theorem heard_of_ofTexts {texts : List Loose} {a : Arguments} (h : ofTexts texts = .ok a) :
    Heard texts {} a := by
  obtain ⟨words, p, hwords, htake, rfl⟩ := ofTexts_ok h
  have htaken := taken_take hwords Intake.start
  rw [htake] at htaken
  exact htaken

/-- The output goes where the texts of a command line want it. -/
theorem target_of_ofTexts {texts : List Loose} {a : Arguments} (h : ofTexts texts = .ok a) :
    a.target = targetNamed texts := (heard_of_ofTexts h).target

theorem asksOfItself_of_version {texts : List Loose} {a : Arguments} (h : ofTexts texts = .ok a)
    (hversion : a.version = true) : AsksOfItself texts := by
  obtain hnever | hasks := (heard_of_ofTexts h).version hversion
  · cases hnever
  · exact hasks

theorem asksOfItself_of_help {texts : List Loose} (h : ofTexts texts = .error .help) :
    AsksOfItself texts := by
  cases hwords : Word.ofTexts texts with
  | error fault => simp [ofTexts, hwords, Except.mapError, bind, Except.bind] at h
  | ok words =>
    have htaken := taken_take hwords Intake.start
    cases htake : Intake.start.take words with
    | error halt =>
      simp only [ofTexts, hwords, htake, Except.mapError, bind, Except.bind,
        Except.error.injEq] at h
      rw [htake, h] at htaken
      exact htaken
    | ok p =>
      simp only [ofTexts, hwords, htake, Except.mapError, bind, Except.bind] at h
      split at h <;> cases h

/-- Texts without halves ask for an output without halves. -/
theorem isPlain_of_ofTexts {texts : List Loose} {a : Arguments} (h : ofTexts texts = .ok a)
    (hplain : ∀ text ∈ texts, text.IsPlain) : a.IsPlain :=
  (heard_of_ofTexts h).plain hplain ⟨⟨.zig, none, {}⟩, rfl⟩

end Arguments

end JsonShape.Command
