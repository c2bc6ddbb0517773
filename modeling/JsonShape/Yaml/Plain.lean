import JsonShape.Text.Pattern

/-!
Plain texts that a YAML reader takes for something else than text: booleans, nulls, numbers in
several bases and in base sixty, timestamps, and the merge and value marks.
-/

set_option autoImplicit false

namespace JsonShape.Yaml

open Text (Pattern)
open Text.Pattern (oneOf word seq anyOf maybe many oneOrMore)

private def digit : Pattern := oneOf "0123456789"

private def digits : Pattern := many (oneOf "0123456789_")

private def sign : Pattern := maybe (oneOf "-+")

private def words (ws : List String) : Pattern := anyOf (ws.map word)

private def sixtieths : Pattern := oneOrMore (seq [word ":", maybe (oneOf "012345"), digit])

private def exponent : Pattern := maybe (seq [oneOf "eE", oneOf "-+", oneOrMore digit])

/-- Truth values. -/
def boolPattern : Pattern :=
  words ["yes", "Yes", "YES", "no", "No", "NO", "true", "True", "TRUE", "false", "False", "FALSE",
    "on", "On", "ON", "off", "Off", "OFF"]

/-- Nulls, and the marks for merged entries and for the value of a mapping. -/
def markPattern : Pattern := words ["~", "null", "Null", "NULL", "<<", "="]

/-- Integers: binary, octal, decimal, hexadecimal and base sixty. -/
def intPattern : Pattern := anyOf [
  seq [sign, word "0b", oneOrMore (oneOf "01_")],
  seq [sign, word "0", oneOrMore (oneOf "01234567_")],
  seq [sign, word "0"],
  seq [sign, oneOf "123456789", digits],
  seq [sign, word "0x", oneOrMore (oneOf "0123456789abcdefABCDEF_")],
  seq [sign, oneOf "123456789", digits, sixtieths]]

/-- Floats: decimal, base sixty, infinities and NaN. -/
def floatPattern : Pattern := anyOf [
  seq [sign, digit, digits, word ".", digits, exponent],
  seq [word ".", digit, digits, exponent],
  seq [sign, digit, digits, sixtieths, word ".", digits],
  seq [sign, word ".", words ["inf", "Inf", "INF"]],
  seq [word ".", words ["nan", "NaN", "NAN"]]]

/-- Dates, and dates with a time and perhaps a zone. -/
def timestampPattern : Pattern :=
  let year := seq [digit, digit, digit, digit]
  let upToTwo := seq [digit, maybe digit]
  let two := seq [digit, digit]
  let blanks := many (oneOf " \t")
  let zone := anyOf [word "Z", seq [oneOf "-+", upToTwo, maybe (seq [word ":", two])]]
  anyOf [
    seq [year, word "-", two, word "-", two],
    seq [year, word "-", upToTwo, word "-", upToTwo,
      anyOf [oneOf "Tt", oneOrMore (oneOf " \t")],
      upToTwo, word ":", two, word ":", two, maybe (seq [word ".", many digit]),
      maybe (seq [blanks, zone])]]

/-- A plain text would be read as something else than text. -/
def readsAsOther (s : String) : Bool :=
  s.isEmpty || [boolPattern, markPattern, intPattern, floatPattern, timestampPattern].any
    fun p => p.matchesAll s.toList

end JsonShape.Yaml
