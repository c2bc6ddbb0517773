/-!
Regular patterns over characters, matched against a whole text by derivatives.
-/

set_option autoImplicit false

namespace JsonShape.Text

/-- A regular pattern. -/
inductive Pattern
  | never
  | empty
  | one (p : Char → Bool)
  | either (a b : Pattern)
  | both (a b : Pattern)
  | many (a : Pattern)

namespace Pattern

/-- The pattern matches the empty text. -/
def matchesEmpty : Pattern → Bool
  | never => false
  | empty => true
  | one _ => false
  | either a b => a.matchesEmpty || b.matchesEmpty
  | both a b => a.matchesEmpty && b.matchesEmpty
  | many _ => true

/-- A choice of two patterns, without those that never match. -/
def or : Pattern → Pattern → Pattern
  | never, b => b
  | a, never => a
  | a, b => either a b

/-- A sequence of two patterns, without empty parts. -/
def andThen : Pattern → Pattern → Pattern
  | never, _ => never
  | _, never => never
  | empty, b => b
  | a, empty => a
  | a, b => both a b

/-- The pattern of what may follow a first character. -/
def after (c : Char) : Pattern → Pattern
  | never => never
  | empty => never
  | one p => if p c then empty else never
  | either a b => (a.after c).or (b.after c)
  | both a b =>
    if a.matchesEmpty then ((a.after c).andThen b).or (b.after c) else (a.after c).andThen b
  | many a => (a.after c).andThen (many a)

/-- The pattern matches a whole text. -/
def matchesAll (p : Pattern) (cs : List Char) : Bool :=
  (cs.foldl (fun p c => p.after c) p).matchesEmpty

/-- One of some characters. -/
def oneOf (s : String) : Pattern := one fun c => s.toList.contains c

/-- A text as it stands. -/
def word (s : String) : Pattern := s.toList.foldr (fun c p => (one (· == c)).andThen p) empty

/-- Patterns one after the other. -/
def seq (ps : List Pattern) : Pattern := ps.foldr andThen empty

/-- One of some patterns. -/
def anyOf (ps : List Pattern) : Pattern := ps.foldr or never

/-- A pattern or nothing. -/
def maybe (p : Pattern) : Pattern := p.or empty

/-- A pattern once or more. -/
def oneOrMore (p : Pattern) : Pattern := p.andThen (many p)

end Pattern

end JsonShape.Text
