import JsonShape.Text.Loose

/-!
Paths as their names: single dots and empty names are dropped, and two dots are kept, since what
they lead to depends on the files.
-/

set_option autoImplicit false

namespace JsonShape

/-- A path: the slashes it begins with, none if it is relative, and its names in order. -/
structure Path where
  root : String
  names : List Loose
  deriving DecidableEq

namespace Path

/-- The path that a loose text denotes. Exactly two slashes in front are kept, more are one. -/
def ofLoose (t : Loose) : Path :=
  let slashes := (t.takeWhile (· == .char '/')).length
  let root := if slashes = 0 then "" else if slashes = 2 then "//" else "/"
  ⟨root, (t.splitOn (.char '/')).filter fun name => name ≠ [] ∧ name ≠ [.char '.']⟩

/-- The path that a text denotes. -/
def ofString (s : String) : Path := ofLoose (.ofString s)

/-- A path as loose text; the empty path is a dot. -/
def loose (p : Path) : Loose :=
  if p.root = "" ∧ p.names = [] then [.char '.']
  else .ofString p.root ++ [.char '/'].intercalate p.names

/-- A path as it is shown. -/
def text (p : Path) : String := p.loose.shown

end Path

end JsonShape
