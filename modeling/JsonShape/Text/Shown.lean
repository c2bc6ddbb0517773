import JsonShape.Text.Columns

/-!
Text as a terminal shows it: characters that would move the cursor are dropped, and tabs become
blanks up to the next column of eight.
-/

set_option autoImplicit false

namespace JsonShape.Text

/-- Bells, backspaces, vertical tabs, form feeds and carriage returns. -/
def movesCursor (c : Char) : Bool := [7, 8, 11, 12, 13].contains c.toNat

/-- A text with its tabs as blanks, from a column on. -/
def withoutTabs (column : Nat) : List Char → List Char
  | [] => []
  | c :: rest =>
    if c = '\n' then c :: withoutTabs 0 rest
    else if c = '\t' then
      let gap := 8 - column % 8
      List.replicate gap ' ' ++ withoutTabs (column + gap) rest
    else c :: withoutTabs (column + columns c) rest

/-- A text as it is shown. -/
def shown (cs : List Char) : List Char := withoutTabs 0 (cs.filter (!movesCursor ·))

end JsonShape.Text
