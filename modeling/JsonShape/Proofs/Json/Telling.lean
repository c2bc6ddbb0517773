import JsonShape.Json.Reading
import JsonShape.Proofs.Entries

/-!
Tokens that tell a value: where a value is expected they complete it, whatever is open around it
and whatever follows. A dictionary is told by its names, each with what tells its value. An invalid
token is never taken, so a text that ends in one is refused.
-/

set_option autoImplicit false

namespace JsonShape.Json

namespace Reading

/-- Tokens lead from one reading to another, whatever follows them. -/
def Leads (r : Reading) (ts : List Token) (next : Reading) : Prop :=
  ∀ rest, r.run (ts ++ rest) = next.run rest

variable {r s next : Reading} {token : Token} {ts us : List Token}

theorem Leads.nil (r : Reading) : r.Leads [] r := fun _ => rfl

theorem Leads.cons (htake : r.take token = .ok s) (h : s.Leads ts next) :
    r.Leads (token :: ts) next := by
  intro rest
  simp only [List.cons_append, run, htake]
  exact h rest

theorem Leads.append (h : r.Leads ts s) (h' : s.Leads us next) : r.Leads (ts ++ us) next := by
  intro rest
  rw [List.append_assoc, h, h']

theorem Leads.of_take (htake : r.take token = .ok next) : r.Leads [token] next :=
  .cons htake (.nil next)

theorem take_invalid (r : Reading) : r.take .invalid = .error .malformed := by
  obtain ⟨stack, expected, completed⟩ := r
  cases expected <;> rfl

/-- An invalid token ends a reading that has not ended before it. -/
theorem run_invalid (ts : List Token) (r : Reading) :
    ∃ fault, (r.run (ts ++ [.invalid])).2 = some fault := by
  induction ts generalizing r with
  | nil => exact ⟨.malformed, by simp only [List.nil_append, run, take_invalid]⟩
  | cons token rest ih =>
    simp only [List.cons_append, run]
    cases htake : r.take token with
    | ok next => exact ih next
    | error fault => exact ⟨fault, rfl⟩

end Reading

open Reading

/-- Tokens that complete a value where one is expected. -/
def Tells (ts : List Token) (v : Value) : Prop :=
  ∀ stack completed, ∃ later,
    Leads ⟨stack, .value, completed⟩ ts (complete ⟨stack, .value, later⟩ v)

theorem tells_text (s : String) : Tells [.text (.ok s)] (.text s) :=
  fun _ completed => ⟨completed, .of_take rfl⟩

theorem tells_number {n : NumberToken} {v : Value} (h : n.value? = .ok v) :
    Tells [.number n] v :=
  fun _ completed => ⟨completed, .of_take (congrArg (Except.map _) h)⟩

/-- The tokens of an entry: its name and what tells its value. -/
def entryTokens (name : String) (ts : List Token) : List Token :=
  .text (.ok name) :: .colon :: ts

/-- Tokens of further entries of a dictionary, each behind a comma. -/
inductive TellsEntries : List Token → List (String × Value) → Prop
  | nil : TellsEntries [] []
  | cons {ts us : List Token} {v : Value} {entries : List (String × Value)} (name : String)
      (h : Tells ts v) (hrest : TellsEntries us entries) :
      TellsEntries (.comma :: entryTokens name ts ++ us) ((name, v) :: entries)

section Entries

variable {ts us : List Token} {v : Value} {entries : List (String × Value)}

/-- An entry is taken where a key may come. -/
theorem leads_entry (h : Tells ts v) (name : String) {expected : Expected}
    (hexpected : expected = .key ∨ expected = .keyOrClose) (place : Place)
    (before : List (String × Value)) (key : String) (stack : List Frame)
    (completed : List (Place × Value)) :
    ∃ later, Leads ⟨.dict place before key :: stack, expected, completed⟩ (entryTokens name ts)
      ⟨.dict place ((name, v) :: before) name :: stack, .commaOrClose, later⟩ := by
  obtain ⟨later, hleads⟩ := h (.dict place before name :: stack) completed
  have hname : take ⟨.dict place before key :: stack, expected, completed⟩ (.text (.ok name)) =
      .ok ⟨.dict place before name :: stack, .colon, completed⟩ := by
    rcases hexpected with rfl | rfl <;> rfl
  exact ⟨_, .cons hname (.cons rfl hleads)⟩

theorem TellsEntries.leads (h : TellsEntries us entries) (place : Place)
    (before : List (String × Value)) (key : String) (stack : List Frame)
    (completed : List (Place × Value)) :
    ∃ last later, Leads ⟨.dict place before key :: stack, .commaOrClose, completed⟩ us
      ⟨.dict place (entries.reverse ++ before) last :: stack, .commaOrClose, later⟩ := by
  induction h generalizing before key completed with
  | nil => exact ⟨key, completed, .nil _⟩
  | @cons ts us v entries name h _ ih =>
    obtain ⟨later, hentry⟩ := leads_entry h name (.inl rfl) place before key stack completed
    obtain ⟨last, latest, hrest⟩ := ih ((name, v) :: before) name later
    refine ⟨last, latest, ?_⟩
    rw [List.reverse_cons, List.append_assoc, List.singleton_append]
    exact (Leads.cons rfl hentry).append hrest

theorem tells_dict_nil : Tells [.openDict, .closeDict] (.dict []) :=
  fun _ completed => ⟨completed, .cons rfl (.of_take rfl)⟩

/-- A dictionary is told by its entries, if their names are distinct. -/
theorem tells_dict {name : String} (h : Tells ts v) (hrest : TellsEntries us entries)
    (hnodup : (((name, v) :: entries).map Prod.fst).Nodup) :
    Tells (.openDict :: entryTokens name ts ++ us ++ [.closeDict])
      (.dict (((name, v) :: entries).map fun e => (.text e.1, e.2))) := by
  intro stack completed
  obtain ⟨later, hentry⟩ := leads_entry h name (.inr rfl)
    (Reading.place ⟨stack, .value, completed⟩) [] "" stack completed
  obtain ⟨last, latest, hleads⟩ := hrest.leads _ [(name, v)] name stack later
  refine ⟨latest, ((Leads.cons rfl hentry).append hleads).append (.of_take ?_)⟩
  have hentries : (entries.reverse ++ [(name, v)]).reverse = (name, v) :: entries := by
    rw [List.reverse_append, List.reverse_reverse, List.reverse_singleton, List.singleton_append]
  simp only [take, close, closed, hentries, Entries.ofList_of_nodup hnodup]
  rfl

end Entries

theorem document?_of_tells {bytes : List UInt8} {ts : List Token} {v : Value}
    (htokens : tokens bytes = ts) (h : Tells ts v) : document? bytes = .ok v := by
  obtain ⟨later, hleads⟩ := h [] []
  have hread : read bytes = (⟨[], .nothing, (.top, v) :: later⟩, none) := by
    rw [read, htokens, ← List.append_nil ts]
    exact hleads []
  simp only [document?, hread]

theorem document?_of_invalid {bytes : List UInt8} {ts : List Token}
    (htokens : tokens bytes = ts ++ [.invalid]) : ∃ fault, document? bytes = .error fault := by
  obtain ⟨fault, hfault⟩ := run_invalid ts Reading.start
  refine ⟨fault, ?_⟩
  rw [← htokens] at hfault
  have hread : read bytes = ((Reading.start.run (tokens bytes)).1, some fault) := by
    rw [← hfault]
    rfl
  simp only [document?, hread]

end JsonShape.Json
