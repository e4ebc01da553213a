/-
# Bare words

Documents written by hand often hold bare words as values, as in `name = my server`, which TOML
does not have.  `quoteBareWords` puts every such value in double quotes and leaves every other
character as it is.  A value is a bare word if it is not empty and no literal of TOML.

Lines that continue a value and lines that are no assignments pass unchanged, so a bare word there
stays an error.
-/
import TomlKeep.Scan
import TomlKeep.Literal
import TomlKeep.Numeral
import TomlKeep.Datetime

namespace TomlKeep

open Text

/-- Whether the value is neither empty nor spelled like a literal of TOML. -/
def isBareWord (value : List Char) : Bool :=
  let word := trim value
  !(word.isEmpty || startsIn Assignment.isQuotedStart word || word == boolText true
    || word == boolText false || (Numeral.read? word).isSome || (Datetime.read? word).isSome)

/-- A line with a bare word as its value put in quotes. -/
def quoteLine (scanned : ScannedLine) : List Char :=
  match scanned.kind with
  | .assignment a =>
    (if isBareWord a.value then a.lead ++ quote (trim a.value) ++ a.gap ++ a.comment
      else scanned.line.content) ++ scanned.line.ending.chars
  | _ => scanned.line.chars

/-- The text with every bare word put in quotes. -/
def quoteBareWords (text : List Char) : List Char :=
  (scan text).flatMap quoteLine

end TomlKeep
