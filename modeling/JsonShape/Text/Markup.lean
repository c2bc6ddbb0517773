/-!
Markup in which a tag in brackets sets the style of what follows. A backslash in front of a tag
makes it text, and two backslashes there stand for one.
-/

set_option autoImplicit false

namespace JsonShape.Text.Markup

/-- A character with which a tag can begin. -/
def isTagStart (c : Char) : Bool :=
  ('a' ≤ c && c ≤ 'z') || c == '#' || c == '/' || c == '@'

/-- What follows an opening bracket makes a tag of it: a lower-case letter, a number sign, a slash
or an at sign, and later a closing bracket with no opening one before it. -/
def beginsTag : List Char → Bool
  | [] => false
  | c :: rest => isTagStart c && (rest.dropWhile fun c => c != ']' && c != '[').head? == some ']'

/-- A text with its tags behind backslashes, when some backslashes stand in front of it. -/
def guardTags (backslashes : Nat) : List Char → List Char
  | [] => List.replicate backslashes '\\'
  | c :: rest =>
    if c = '\\' then guardTags (backslashes + 1) rest
    else if c = '[' ∧ beginsTag rest then
      List.replicate (2 * backslashes + 1) '\\' ++ c :: guardTags 0 rest
    else List.replicate backslashes '\\' ++ c :: guardTags 0 rest

/-- A text as markup. One backslash at the end is doubled, since a tag may follow. -/
def escape (cs : List Char) : List Char :=
  let guarded := guardTags 0 cs
  match guarded.reverse with
  | '\\' :: '\\' :: _ => guarded
  | '\\' :: _ => guarded ++ ['\\']
  | _ => guarded

/-- The text of markup, when some backslashes stand in front of it, inside a tag or outside. -/
def readFrom (insideTag : Bool) (backslashes : Nat) : List Char → List Char
  | [] => List.replicate backslashes '\\'
  | c :: rest =>
    if insideTag then readFrom (c != ']') 0 rest
    else if c = '\\' then readFrom false (backslashes + 1) rest
    else if c = '[' then
      if beginsTag rest then
        List.replicate (backslashes / 2) '\\' ++
          if backslashes % 2 = 1 then c :: readFrom false 0 rest else readFrom true 0 rest
      else List.replicate (backslashes - 1) '\\' ++ c :: readFrom false 0 rest
    else List.replicate backslashes '\\' ++ c :: readFrom false 0 rest

/-- The text of markup, without its tags. -/
def read (cs : List Char) : List Char := readFrom false 0 cs

/-- A text between a tag and the tag that ends it. -/
def styled (style : String) (cs : List Char) : List Char :=
  '[' :: style.toList ++ ']' :: cs ++ '[' :: '/' :: style.toList ++ [']']

end JsonShape.Text.Markup
