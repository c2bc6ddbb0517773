import JsonShape.Command.Arguments
import JsonShape.Proofs.Loose
import Mathlib.Data.List.Infix
import Mathlib.Data.List.DropRight

/-!
What the texts of a command line say, each by itself: which path one of them gives for the output,
and whether one asks for the help or the version of the command. The intake, which takes words in
turn and gives each its value, is held to this reading.
-/

set_option autoImplicit false

namespace JsonShape.Command

/-! ### The reading of one text -/

/-- What one text says of the output: nothing, that the next text is its path, or its path. -/
inductive Mention
  | none
  | next
  | path (text : Loose)

namespace Mention

/-- Behind two dashes stands a beginning of the word `output`, and behind an equals sign the path.
-/
def ofWord (text : Loose) : Mention :=
  let word := text.takeWhile (· != .char '=')
  if word ≠ [] ∧ word <+: Loose.ofString "output" then
    match text.dropWhile (· != .char '=') with
    | [] => next
    | _ :: behind => path behind
  else none

/-- Behind one dash stands the letter `o`, and behind it the path. The letters `h` and `v`, which
want nothing behind them, may come first. -/
def ofLetters : Loose → Mention
  | [.char 'o'] => next
  | .char 'o' :: behind => path behind
  | .char 'h' :: rest => ofLetters rest
  | .char 'v' :: rest => ofLetters rest
  | _ => none

end Mention

/-- The letters behind a dash. An equals sign behind the first of several says nothing. -/
def lettersOf : Loose → Loose
  | letter :: .char '=' :: next :: rest => letter :: next :: rest
  | letters => letters

/-- What a text says of the output. -/
def Mention.ofText : Loose → Mention
  | .char '-' :: .char '-' :: text => ofWord text
  | [.char '-', .char 'o', .char '='] => .path []
  | .char '-' :: letters => ofLetters (lettersOf letters)
  | _ => none

/-- A text asks for help: by a beginning of that word behind two dashes, or by its first letter
behind one. -/
def asksForHelp : Loose → Bool
  | .char '-' :: .char '-' :: word => word ≠ [] ∧ word <+: Loose.ofString "help"
  | .char '-' :: letters =>
    ((lettersOf letters).dropWhile (· == .char 'v')).head? = some (.char 'h')
  | _ => false

/-- A text asks for the version: by a beginning of that word that is not one of `verbose` too. -/
def asksForVersion : Loose → Bool
  | .char '-' :: .char '-' :: word =>
    Loose.ofString "vers" <+: word ∧ word <+: Loose.ofString "version"
  | _ => false

/-! ### The reading of all texts -/

/-- The two dashes behind which no text is more than a file. -/
def dashes : Loose := .ofString "--"

/-- The paths that some texts give for the output, in order. -/
def outputPaths : List Loose → List Loose
  | [] => []
  | text :: rest =>
    if text = dashes then []
    else
      match Mention.ofText text, rest with
      | .none, rest => outputPaths rest
      | .path path, rest => path :: outputPaths rest
      | .next, path :: rest => path :: outputPaths rest
      | .next, [] => []

/-- Where the output goes that is given a path: nowhere, if that is two dashes. -/
def Target.ofText (path : Loose) : Target :=
  .file (if path = dashes then none else some (.ofLoose path))

/-- Where some texts want the output: in the file of the last path they give for it, or, if they
give none, on the standard output. -/
def targetNamed (texts : List Loose) : Target :=
  ((outputPaths texts).getLast?.map Target.ofText).getD .standard

/-- Some texts ask for the help or the version of the command. -/
def AsksOfItself (texts : List Loose) : Prop :=
  ∃ text ∈ texts.takeWhile (· ≠ dashes), asksForHelp text ∨ asksForVersion text

instance (texts : List Loose) : Decidable (AsksOfItself texts) :=
  inferInstanceAs (Decidable (∃ text ∈ _, _))

/-! ### The switch of a text -/

/-- A letter names the help, the report, the output, or another setting. -/
theorem Switch.ofLetter?_cases {letter : Glyph} {s : Switch} (h : ofLetter? letter = some s) :
    (letter = .char 'h' ∧ s.effect = .flag .help) ∨
      (letter = .char 'v' ∧ s.effect = .flag .verbose) ∨
      (letter = .char 'o' ∧ s.effect = .setting .output) ∨
      ((∃ x, s.effect = .setting x ∧ x ≠ .output) ∧
        letter ≠ .char 'h' ∧ letter ≠ .char 'v' ∧ letter ≠ .char 'o') := by
  have hletter : s.letter.map Glyph.char = some letter := by simpa using List.find?_some h
  have hmem := List.mem_of_find?_eq_some h
  obtain ⟨c, hc, rfl⟩ := Option.map_eq_some_iff.mp hletter
  simp only [all, List.mem_cons, List.not_mem_nil, or_false] at hmem
  rcases hmem with rfl | rfl | rfl | rfl | rfl | rfl | rfl | rfl | rfl | rfl | rfl | rfl | rfl <;>
    cases hc <;> simp

theorem Switch.letter_of_flag {letter : Glyph} {s : Switch} {f : Flag}
    (hletter : ofLetter? letter = some s) (heffect : s.effect = .flag f) :
    (letter = .char 'h' ∧ f = .help) ∨ (letter = .char 'v' ∧ f = .verbose) := by
  obtain ⟨hh, h⟩ | ⟨hv, h⟩ | ⟨-, h⟩ | ⟨⟨x, h, -⟩, -⟩ := ofLetter?_cases hletter
  · exact .inl ⟨hh, Effect.flag.inj (heffect.symm.trans h)⟩
  · exact .inr ⟨hv, Effect.flag.inj (heffect.symm.trans h)⟩
  · cases heffect.symm.trans h
  · cases heffect.symm.trans h

theorem Switch.letter_of_setting {letter : Glyph} {s : Switch} {x : Setting}
    (hletter : ofLetter? letter = some s) (heffect : s.effect = .setting x) :
    (letter = .char 'o' ∧ x = .output) ∨
      (x ≠ .output ∧ letter ≠ .char 'h' ∧ letter ≠ .char 'v' ∧ letter ≠ .char 'o') := by
  obtain ⟨-, h⟩ | ⟨-, h⟩ | ⟨ho, h⟩ | ⟨⟨y, h, hy⟩, hne⟩ := ofLetter?_cases hletter
  · cases heffect.symm.trans h
  · cases heffect.symm.trans h
  · exact .inl ⟨ho, Effect.setting.inj (heffect.symm.trans h)⟩
  · obtain rfl := Effect.setting.inj (heffect.symm.trans h)
    exact .inr ⟨hy, hne⟩

theorem Switch.of_meant {word : Loose} {s : Switch} (h : meant word = [s]) :
    s ∈ all ∧ word <+: Loose.ofString s.word := by
  unfold meant at h
  split at h
  · next found hfound =>
    obtain rfl : found = s := List.singleton_inj.mp h
    refine ⟨List.mem_of_find?_eq_some hfound, ?_⟩
    have hword := List.find?_some hfound
    rw [beq_iff_eq.mp hword]
  · have hmem : s ∈ all.filter fun s => word.isPrefixOf (Loose.ofString s.word) := by simp [h]
    exact (List.mem_filter.mp hmem).imp id List.isPrefixOf_iff_prefix.mp

theorem Switch.meant_output {word : Loose} (hne : word ≠ [])
    (h : word <+: Loose.ofString "output") : (meant word).map effect = [.setting .output] := by
  have hall : ∀ w ∈ (Loose.ofString "output").inits, w ≠ [] →
      (meant w).map effect = [.setting .output] := by decide
  exact hall word ((List.mem_inits ..).mpr h) hne

/-- The beginning of a word for which a switch is taken: no other beginnings name the output, and
none names two. -/
theorem Switch.meant_cases {word : Loose} {s : Switch} (h : meant word = [s]) :
    (s.effect = .setting .output ↔ word ≠ [] ∧ word <+: Loose.ofString "output") ∧
      (s.effect = .flag .help → word ≠ [] ∧ word <+: Loose.ofString "help") ∧
      (s.effect = .flag .version →
        Loose.ofString "vers" <+: word ∧ word <+: Loose.ofString "version") := by
  obtain ⟨hmem, hprefix⟩ := of_meant h
  have hword : ∀ s ∈ all, (s.effect = .setting .output → s.word = "output") ∧
      (s.effect = .flag .help → s.word = "help") ∧
      (s.effect = .flag .version → s.word = "version") := by decide
  obtain ⟨houtput, hhelp, hversion⟩ := hword s hmem
  have hne : word ≠ [] := by
    rintro rfl
    have hlength : (meant []).length = 1 := congrArg List.length h
    exact absurd hlength (by decide)
  refine ⟨⟨fun heffect => ⟨hne, houtput heffect ▸ hprefix⟩, fun hbegins => ?_⟩,
    fun heffect => ⟨hne, hhelp heffect ▸ hprefix⟩, fun heffect => ?_⟩
  · have hsame := meant_output hne hbegins.2
    rw [h] at hsame
    exact List.singleton_inj.mp hsame
  · have hall : ∀ w ∈ (Loose.ofString "version").inits, (meant w).length = 1 →
        Loose.ofString "vers" <+: w := by decide
    rw [hversion heffect] at hprefix
    exact ⟨hall word ((List.mem_inits ..).mpr hprefix) (congrArg List.length h), hprefix⟩

/-! ### The words of a text -/

/-- What the end of a word says of the output. -/
def Ending.mention : Ending → Mention
  | .value .output path => .path path
  | .awaited _ .output => .next
  | _ => .none

/-- A cluster is what some letters behind a dash say. -/
structure Cluster.Spells (cluster : Cluster) (letters : Loose) : Prop where
  mention : Mention.ofLetters letters = cluster.ending.mention
  help : .help ∈ cluster.flags → (letters.dropWhile (· == .char 'v')).head? = some (.char 'h')
  version : .version ∉ cluster.flags
  value : ∀ s value, cluster.ending = .value s value → value <:+ letters.tail

/-- A cluster is what a text says. -/
structure Cluster.Means (cluster : Cluster) (text : Loose) : Prop where
  mention : Mention.ofText text = cluster.ending.mention
  help : .help ∈ cluster.flags → asksForHelp text
  version : .version ∈ cluster.flags → asksForVersion text
  value : ∀ s value, cluster.ending = .value s value → value <:+ text

theorem Mention.ofLetters_of_ne {letter : Glyph} (hh : letter ≠ .char 'h')
    (hv : letter ≠ .char 'v') (ho : letter ≠ .char 'o') (rest : Loose) :
    ofLetters (letter :: rest) = .none := by
  unfold ofLetters
  split <;> simp_all

theorem Ending.mention_value_of_ne {x : Setting} (hx : x ≠ .output) (text : Loose) :
    (Ending.value x text).mention = .none := by
  cases x <;> first | rfl | exact absurd rfl hx

theorem Ending.mention_awaited_of_ne {x : Setting} (hx : x ≠ .output) (s : Switch) :
    (Ending.awaited s x).mention = .none := by
  cases x <;> first | rfl | exact absurd rfl hx

theorem Ending.mention_ne_next {e : Ending} (h : ∀ s x, e ≠ .awaited s x) : e.mention ≠ .next := by
  cases e with
  | none => nofun
  | value x text => cases x <;> nofun
  | awaited s x => exact absurd rfl (h s x)

namespace Switch

theorem mention_of_setting {letter : Glyph} {s : Switch} {x : Setting}
    (hletter : ofLetter? letter = some s) (heffect : s.effect = .setting x) (behind : Loose) :
    Mention.ofLetters (letter :: behind) =
      if behind = [] then (Ending.awaited s x).mention else (Ending.value x behind).mention := by
  obtain ⟨rfl, rfl⟩ | ⟨hx, hh, hv, ho⟩ := letter_of_setting hletter heffect
  · cases behind <;> rfl
  · rw [Mention.ofLetters_of_ne hh hv ho, Ending.mention_awaited_of_ne hx,
      Ending.mention_value_of_ne hx, ite_self]

/-- A setting takes all letters behind its own. -/
theorem spells_of_setting {letter : Glyph} {s : Switch} {x : Setting} {rest : Loose}
    {cluster : Cluster} (hletter : ofLetter? letter = some s) (heffect : s.effect = .setting x)
    (h : s.cluster rest = .ok cluster) : cluster.Spells (letter :: rest) := by
  cases rest with
  | nil =>
    simp only [Switch.cluster, heffect, Except.ok.injEq] at h
    subst h
    exact ⟨mention_of_setting hletter heffect [], by simp, by simp, nofun⟩
  | cons next rest =>
    simp only [Switch.cluster, heffect, Except.ok.injEq] at h
    subst h
    refine ⟨mention_of_setting hletter heffect (next :: rest), by simp, by simp, ?_⟩
    intro y value hvalue
    obtain ⟨-, rfl⟩ := Ending.value.inj hvalue
    exact List.suffix_rfl

/-- A flag in front of letters leaves what they say of the output. -/
theorem cluster_of_flag {s : Switch} {f : Flag} {rest : Loose} {cluster : Cluster}
    (heffect : s.effect = .flag f) (h : s.cluster rest = .ok cluster) :
    rest = [] ∧ cluster = ⟨[f], .none⟩ ∨
      ∃ letter later next others, rest = letter :: later ∧ ofLetter? letter = some next ∧
        next.cluster later = .ok others ∧ cluster = ⟨f :: others.flags, others.ending⟩ := by
  cases rest with
  | nil =>
    simp only [Switch.cluster, heffect, Except.ok.injEq] at h
    exact .inl ⟨rfl, h.symm⟩
  | cons letter later =>
    simp only [Switch.cluster, heffect] at h
    cases hnext : ofLetter? letter with
    | none => simp [hnext] at h
    | some next =>
      cases hothers : next.cluster later with
      | error fault => simp [hnext, hothers, bind, Except.bind] at h
      | ok others =>
        simp only [hnext, hothers, bind, Except.bind, pure, Except.pure, Except.ok.injEq] at h
        exact .inr ⟨letter, later, next, others, rfl, hnext, hothers, h.symm⟩

/-- Letters are taken for what they say. -/
theorem spells_of_cluster {letter : Glyph} {s : Switch} {rest : Loose} {cluster : Cluster}
    (hletter : ofLetter? letter = some s) (h : s.cluster rest = .ok cluster) :
    cluster.Spells (letter :: rest) := by
  induction rest generalizing letter s cluster with
  | nil =>
    cases heffect : s.effect with
    | setting x => exact spells_of_setting hletter heffect h
    | flag f =>
      obtain ⟨-, rfl⟩ | ⟨_, _, _, _, hnil, -⟩ := cluster_of_flag heffect h
      · obtain ⟨rfl, rfl⟩ | ⟨rfl, rfl⟩ := letter_of_flag hletter heffect
        · exact ⟨rfl, fun _ => rfl, by simp, nofun⟩
        · exact ⟨rfl, by simp, by simp, nofun⟩
      · cases hnil
  | cons next rest ih =>
    cases heffect : s.effect with
    | setting x => exact spells_of_setting hletter heffect h
    | flag f =>
      obtain ⟨hnil, -⟩ | ⟨_, _, _, others, hcons, hnext, hothers, rfl⟩ := cluster_of_flag heffect h
      · cases hnil
      · cases hcons
        obtain ⟨hmention, hhelp, hversion, hvalue⟩ := ih hnext hothers
        have hsuffix : ∀ x value, others.ending = .value x value → value <:+ next :: rest :=
          fun x value hx => (hvalue x value hx).trans (List.suffix_cons ..)
        obtain ⟨rfl, rfl⟩ | ⟨rfl, rfl⟩ := letter_of_flag hletter heffect
        · exact ⟨hmention, fun _ => rfl, by simpa using hversion, hsuffix⟩
        · exact ⟨hmention, by simpa using hhelp, by simpa using hversion, hsuffix⟩

end Switch

theorem Mention.ofText_dash {letters : Loose} (hdash : letters.head? ≠ some (.char '-'))
    (hempty : letters ≠ [.char 'o', .char '=']) :
    ofText (.char '-' :: letters) = ofLetters (lettersOf letters) := by
  rw [ofText]
  · rintro rest rfl
    exact hdash rfl
  · exact hempty

theorem asksForHelp_dash {letters : Loose} (hdash : letters.head? ≠ some (.char '-'))
    (h : ((lettersOf letters).dropWhile (· == .char 'v')).head? = some (.char 'h')) :
    asksForHelp (.char '-' :: letters) := by
  rw [asksForHelp]
  · exact decide_eq_true h
  · rintro rest rfl
    exact hdash rfl

/-- What follows a letter is letters behind it, unless it is a single equals sign. -/
theorem Switch.request_ofLetter (s : Switch) (letter : Glyph) {rest : Loose}
    (h : rest ≠ [.char '=']) :
    ∃ behind, lettersOf (letter :: rest) = letter :: behind ∧ behind <:+ rest ∧
      s.request (.ofLetter rest) = s.cluster behind := by
  unfold Tail.ofLetter
  split
  · exact ⟨[], rfl, List.suffix_rfl, rfl⟩
  · exact absurd rfl h
  · next behind hne =>
    cases behind with
    | nil => exact absurd rfl hne
    | cons next behind => exact ⟨next :: behind, rfl, List.suffix_cons .., rfl⟩
  · next hnil hsingle hequals =>
    refine ⟨rest, ?_, List.suffix_rfl, rfl⟩
    unfold lettersOf
    split
    · next hcons =>
      cases hcons
      exact absurd rfl (hequals _)
    · rfl

/-- A text of one dash is taken for what it says. -/
theorem Switch.means_of_letter {letter : Glyph} {s : Switch} {rest : Loose} {cluster : Cluster}
    (hletter : ofLetter? letter = some s) (hdash : letter ≠ .char '-')
    (h : s.request (.ofLetter rest) = .ok cluster) :
    cluster.Means (.char '-' :: letter :: rest) := by
  have hhead : (letter :: rest).head? ≠ some (.char '-') := by simpa using hdash
  by_cases hrest : rest = [.char '=']
  · subst hrest
    cases heffect : s.effect with
    | flag f => simp [request, Tail.ofLetter, heffect] at h
    | setting x =>
      simp only [request, Tail.ofLetter, heffect, Except.ok.injEq] at h
      subst h
      refine ⟨?_, by simp, by simp, ?_⟩
      · obtain ⟨rfl, rfl⟩ | ⟨hx, hh, hv, ho⟩ := letter_of_setting hletter heffect
        · rfl
        · rw [Mention.ofText_dash hhead (by simp [ho]), Ending.mention_value_of_ne hx]
          exact Mention.ofLetters_of_ne hh hv ho _
      · intro y value hvalue
        obtain ⟨-, rfl⟩ := Ending.value.inj hvalue
        exact List.nil_suffix
  · obtain ⟨behind, hletters, hsuffix, hrequest⟩ := s.request_ofLetter letter hrest
    obtain ⟨hmention, hhelp, hversion, hvalue⟩ := spells_of_cluster hletter (hrequest ▸ h)
    refine ⟨?_, fun hflag => ?_, fun hflag => absurd hflag hversion, fun x value hx => ?_⟩
    · rw [Mention.ofText_dash hhead (by simp [hrest]), hletters, hmention]
    · exact asksForHelp_dash hhead (hletters ▸ hhelp hflag)
    · exact ((hvalue x value hx).trans hsuffix).trans
        ((List.suffix_cons ..).trans (List.suffix_cons ..))

/-- Behind a word stands nothing, or a value behind an equals sign. -/
theorem Tail.ofWord_dropWhile (text : Loose) :
    (text.dropWhile (· != .char '=') = [] ∧ text.takeWhile (· != .char '=') = text) ∨
      ∃ value, text.dropWhile (· != .char '=') = .char '=' :: value := by
  cases hdrop : text.dropWhile (· != .char '=') with
  | nil =>
    refine .inl ⟨rfl, ?_⟩
    have hsplit := List.takeWhile_append_dropWhile (p := (· != .char '=')) (l := text)
    rwa [hdrop, List.append_nil] at hsplit
  | cons g value =>
    have hne : text.dropWhile (· != .char '=') ≠ [] := by simp [hdrop]
    have hg := List.head_dropWhile_not _ hne
    simp only [hdrop, List.head_cons, bne_eq_false_iff_eq] at hg
    exact .inr ⟨value, hg ▸ rfl⟩

/-- A text of two dashes is taken for what it says. -/
theorem Switch.means_of_word {text : Loose} {s : Switch} {cluster : Cluster}
    (hmeant : meant (text.takeWhile (· != .char '=')) = [s])
    (h : s.request (.ofWord (text.dropWhile (· != .char '='))) = .ok cluster) :
    cluster.Means (.char '-' :: .char '-' :: text) := by
  obtain ⟨houtput, hhelp, hversion⟩ := meant_cases hmeant
  have hmention : Mention.ofText (.char '-' :: .char '-' :: text) =
      if s.effect = .setting .output then
        match text.dropWhile (· != .char '=') with
        | [] => .next
        | _ :: behind => .path behind
      else .none := by
    rw [Mention.ofText, Mention.ofWord]
    simp only [houtput]
  have hsuffix := List.dropWhile_suffix (l := text) (· != .char '=')
  obtain ⟨hdrop, hwhole⟩ | ⟨value, hdrop⟩ := Tail.ofWord_dropWhile text
  · rw [hdrop] at h hmention
    rw [hwhole] at hhelp hversion
    cases heffect : s.effect with
    | flag f =>
      simp only [request, Tail.ofWord, Switch.cluster, heffect, Except.ok.injEq] at h
      subst h
      refine ⟨?_, ?_, ?_, nofun⟩
      · simp [hmention, heffect, Ending.mention]
      · intro hflag
        apply decide_eq_true
        exact hhelp (heffect.trans (congrArg _ (List.mem_singleton.mp hflag).symm))
      · intro hflag
        apply decide_eq_true
        exact hversion (heffect.trans (congrArg _ (List.mem_singleton.mp hflag).symm))
    | setting x =>
      simp only [request, Tail.ofWord, Switch.cluster, heffect, Except.ok.injEq] at h
      subst h
      refine ⟨?_, by simp, by simp, nofun⟩
      by_cases hx : x = .output
      · simp [hmention, heffect, hx, Ending.mention]
      · simp [hmention, heffect, hx, Ending.mention_awaited_of_ne]
  · rw [hdrop] at h hmention hsuffix
    cases heffect : s.effect with
    | flag f => simp [request, Tail.ofWord, heffect] at h
    | setting x =>
      simp only [request, Tail.ofWord, heffect, Except.ok.injEq] at h
      subst h
      refine ⟨?_, by simp, by simp, ?_⟩
      · by_cases hx : x = .output
        · simp [hmention, heffect, hx, Ending.mention]
        · simp [hmention, heffect, hx, Ending.mention_value_of_ne]
      · intro y v hv
        obtain ⟨-, rfl⟩ := Ending.value.inj hv
        exact (((List.suffix_cons ..).trans hsuffix).trans (List.suffix_cons ..)).trans
          (List.suffix_cons ..)

theorem Word.ofDashed_cases (text : Loose) :
    ofDashed text = plain text ∨ ofDashed text = unknown text := by
  unfold ofDashed
  split
  · exact .inl rfl
  · exact .inr rfl

/-- A text that begins with no switch's word says nothing. -/
theorem Mention.ofWord_of_meant {text : Loose}
    (h : Switch.meant (text.takeWhile (· != .char '=')) = []) : ofWord text = .none := by
  refine if_neg fun hbegins => ?_
  have hsome := Switch.meant_output hbegins.1 hbegins.2
  rw [h] at hsome
  cases hsome

theorem lettersOf_cons (letter : Glyph) (rest : Loose) :
    ∃ behind, lettersOf (letter :: rest) = letter :: behind := by
  unfold lettersOf
  split
  · next hcons =>
    cases hcons
    exact ⟨_, rfl⟩
  · exact ⟨rest, rfl⟩

/-- A text that begins with no switch's letter says nothing. -/
theorem Mention.ofText_of_letter {letter : Glyph} {rest : Loose}
    (h : (Switch.ofLetter? letter).isNone) (hdash : letter ≠ .char '-') :
    ofText (.char '-' :: letter :: rest) = .none := by
  have hne {c : Char} (hc : (Switch.ofLetter? (.char c)).isNone = false) : letter ≠ .char c := by
    rintro rfl
    exact Bool.false_ne_true (hc.symm.trans h)
  have ho : letter ≠ .char 'o' := hne rfl
  obtain ⟨behind, hletters⟩ := lettersOf_cons letter rest
  rw [ofText_dash (by simpa using hdash) (by simp [ho]), hletters]
  exact ofLetters_of_ne (hne rfl) (hne rfl) ho behind

/-- A text is the two dashes, or no switch and says nothing, or a switch and taken for what it
says. -/
theorem Word.ofText_cases {text : Loose} {word : Word} (h : ofText text = .ok word) :
    (word = separator ∧ text = dashes) ∨
      ((word = plain text ∨ word = unknown text) ∧ text ≠ dashes ∧
        Mention.ofText text = .none) ∨
      ∃ s tail, word = switch s tail ∧ text ≠ dashes ∧
        ∀ cluster, s.request tail = .ok cluster → cluster.Means text := by
  unfold ofText at h
  split at h
  · cases h
    exact .inl ⟨rfl, rfl⟩
  · next rest hne =>
    have hdashes : Glyph.char '-' :: Glyph.char '-' :: rest ≠ dashes := by
      intro hsame
      exact hne (List.cons.inj (List.cons.inj hsame).2).2
    split at h
    · next hmeant =>
      cases h
      exact .inr (.inl ⟨ofDashed_cases _, hdashes, Mention.ofWord_of_meant hmeant⟩)
    · next s hmeant =>
      cases h
      exact .inr (.inr ⟨_, _, rfl, hdashes, fun _ => Switch.means_of_word hmeant⟩)
    · cases h
  · next letter rest _ hne =>
    have hdash : letter ≠ .char '-' := by
      rintro rfl
      exact hne rfl
    have hdashes : Glyph.char '-' :: letter :: rest ≠ dashes := by
      intro hsame
      exact hdash (List.cons.inj (List.cons.inj hsame).2).1
    split at h
    · next s hletter =>
      cases h
      exact .inr (.inr ⟨_, _, rfl, hdashes, fun _ => Switch.means_of_letter hletter hdash⟩)
    · next hletter =>
      cases h
      exact .inr (.inl ⟨ofDashed_cases _, hdashes, Mention.ofText_of_letter (hletter ▸ rfl) hdash⟩)
  · next hseparator hword hletter =>
    cases h
    refine .inr (.inl ⟨.inl rfl, ?_, ?_⟩)
    · rintro rfl
      exact hseparator rfl
    · unfold Mention.ofText
      split
      · exact absurd rfl (hletter _ _)
      · exact absurd rfl (hletter _ _)
      · next letters _ _ =>
        cases letters with
        | nil => rfl
        | cons letter rest => exact absurd rfl (hletter letter rest)
      · rfl

end JsonShape.Command
