import JsonShape.Text.Columns

/-!
Lines of limited width. A line breaks in front of a word that does not fit on it, and a word that
fits on no line is cut. The blanks behind a word go with it; those beyond the limit are dropped.
-/

set_option autoImplicit false

namespace JsonShape.Text

/-- A blank of any kind, as it stands between words. -/
def isBlank (c : Char) : Bool :=
  let n := c.toNat
  (9 ≤ n && n ≤ 13) || (0x1c ≤ n && n ≤ 0x20) || n == 0x85 || n == 0xa0 || n == 0x1680 ||
    (0x2000 ≤ n && n ≤ 0x200a) || n == 0x2028 || n == 0x2029 || n == 0x202f || n == 0x205f ||
    n == 0x3000

/-- A text without the blanks at its end. -/
def trimEnd (cs : List Char) : List Char := (cs.reverse.dropWhile isBlank).reverse

/-- Puts a character in front of the first of some texts. -/
def consFirst (c : Char) : List (List Char) → List (List Char)
  | [] => [[c]]
  | first :: later => (c :: first) :: later

/-- A text cut wherever a word begins behind a blank. -/
def cutAtWords : List Char → List (List Char)
  | [] => []
  | c :: rest =>
    if isBlank c && rest.head?.any (!isBlank ·) then [c] :: cutAtWords rest
    else consFirst c (cutAtWords rest)

/-- The words of a text, each with the blanks behind it, the first also with those in front. -/
def words (cs : List Char) : List (List Char) :=
  match cutAtWords (cs.dropWhile isBlank) with
  | [] => [cs]
  | first :: later => (cs.takeWhile isBlank ++ first) :: later

/-- A text cut into pieces within a limit of columns, when the first has some already. -/
def cutAt (limit used : Nat) : List Char → List (List Char)
  | [] => [[]]
  | c :: rest =>
    if limit < used + columns c then [] :: consFirst c (cutAt limit (columns c) rest)
    else consFirst c (cutAt limit (used + columns c) rest)

/-- Some complete lines, the line that is filled, and its columns so far. -/
structure Filling where
  complete : List (List Char)
  line : List Char
  used : Nat

namespace Filling

/-- The lines after one more word. -/
def add (limit : Nat) (f : Filling) (word : List Char) : Filling :=
  let needed := width (trimEnd word)
  if f.used + needed ≤ limit then { f with line := f.line ++ word, used := f.used + width word }
  else
    let complete := if f.line = [] then f.complete else f.complete ++ [f.line]
    let pieces := if limit < needed then cutAt limit 0 word else [word]
    let last := pieces.getLastD []
    ⟨complete ++ pieces.dropLast, last, width last⟩

end Filling

/-- A line without blanks at its end, as far as it has more characters than the limit, and without
what stands beyond the limit then. -/
def fitted (limit : Nat) (line : List Char) : List Char :=
  let blanks := line.length - (trimEnd line).length
  let kept := line.take (line.length - min blanks (line.length - limit))
  (cutAt limit 0 kept).headD []

/-- A text broken into lines of limited width; line breaks in it stay. -/
def wrapped (limit : Nat) (cs : List Char) : List Char :=
  let lines := (cs.splitOn '\n').flatMap fun line =>
    let filling := (words line).foldl (Filling.add limit) ⟨[], [], 0⟩
    (filling.complete ++ [filling.line]).map (fitted limit)
  ['\n'].intercalate lines

end JsonShape.Text
