import JsonShape.Text.Loose

/-!
The switches of the command line: what a word with a dash in front can ask for.
-/

set_option autoImplicit false

namespace JsonShape.Command

/-- What a switch without a value asks for. -/
inductive Flag
  | help
  | version
  | items
  | verbose
  deriving DecidableEq

/-- What a switch with a value sets. -/
inductive Setting
  | spelling (name : String)
  | name
  | format
  | output
  deriving DecidableEq

/-- What a switch does. -/
inductive Effect
  | flag (f : Flag)
  | setting (s : Setting)
  deriving DecidableEq

/-- A switch by its letter, behind one dash, or by its word, behind two. -/
structure Switch where
  letter : Option Char
  word : String
  effect : Effect
  deriving DecidableEq

namespace Switch

/-- All switches, in the order in which messages list them. -/
def all : List Switch := [
  ⟨some 'h', "help", .flag .help⟩,
  ⟨none, "version", .flag .version⟩,
  ⟨some 's', "string", .setting (.spelling "string")⟩,
  ⟨some 'i', "int", .setting (.spelling "integer")⟩,
  ⟨some 'f', "float", .setting (.spelling "float")⟩,
  ⟨some 'b', "bool", .setting (.spelling "bool")⟩,
  ⟨some 'a', "any", .setting (.spelling "any")⟩,
  ⟨some 'u', "unknown", .setting (.spelling "unknown")⟩,
  ⟨none, "items", .flag .items⟩,
  ⟨some 'n', "name", .setting .name⟩,
  ⟨none, "format", .setting .format⟩,
  ⟨some 'o', "output", .setting .output⟩,
  ⟨some 'v', "verbose", .flag .verbose⟩]

/-- The word of a switch behind its dashes. -/
def long (s : Switch) : String := "--" ++ s.word

/-- A switch in all its forms. -/
def text (s : Switch) : String :=
  match s.letter with
  | some c => String.ofList ['-', c, '/'] ++ s.long
  | none => s.long

/-- The switch of a letter. -/
def ofLetter? (letter : Glyph) : Option Switch :=
  all.find? fun s => s.letter.map .char == some letter

/-- The switches that a word can mean: the one it names, or else all whose words begin with it. -/
def meant (word : Loose) : List Switch :=
  match all.find? fun s => Loose.ofString s.word == word with
  | some s => [s]
  | none => all.filter fun s => word.isPrefixOf (Loose.ofString s.word)

end Switch

end JsonShape.Command
