/-
# Writing JSON

Compact text has no blanks at all; indented text has every item and member on a line of its own,
two spaces deeper than its brackets, and nothing between empty brackets.
-/
import TomlKeep.Json.Basic
import TomlKeep.Literal

namespace TomlKeep.Json

/-- The hexadecimal digit of a number below sixteen, in small letters. -/
def lowerHexDigit (n : Nat) : Char :=
  if n < 10 then Char.ofNat (48 + n) else Char.ofNat (87 + n)

/-- A character inside a string. -/
def escapeChar (c : Char) : List Char :=
  if c = '"' then ['\\', '"']
  else if c = '\\' then ['\\', '\\']
  else if c = '\x08' then ['\\', 'b']
  else if c = '\x0c' then ['\\', 'f']
  else if c = '\n' then ['\\', 'n']
  else if c = '\r' then ['\\', 'r']
  else if c = '\t' then ['\\', 't']
  else if c.toNat < 0x20 then
    ['\\', 'u', '0', '0', lowerHexDigit (c.toNat / 16), lowerHexDigit (c.toNat % 16)]
  else [c]

/-- A string in double quotes. -/
def writeString (s : String) : List Char :=
  '"' :: s.toList.flatMap escapeChar ++ ['"']

/-- A number that is finite; any other has no text and becomes `null`. -/
def writeFloat (x : Binary64) : List Char :=
  if x.isFinite then FloatStyle.json.write x else ['n', 'u', 'l', 'l']

/-- A line end and the indentation of a level; in compact text, nothing. -/
def lineBreak (indented : Bool) (level : Nat) : List Char :=
  if indented then '\n' :: List.replicate (2 * level) ' ' else []

/-- Items in brackets, each on its line. -/
def bracketed (indented : Bool) (level : Nat) (opening closing : Char) :
    List (List Char) → List Char
  | [] => [opening, closing]
  | first :: rest =>
    opening :: lineBreak indented (level + 1) ++ first
      ++ rest.flatMap (fun item => ',' :: lineBreak indented (level + 1) ++ item)
      ++ lineBreak indented level ++ [closing]

mutual

/-- The text of a JSON value that stands at a level. -/
def write (indented : Bool) (level : Nat) : Json → List Char
  | .null => ['n', 'u', 'l', 'l']
  | .bool b => boolText b
  | .integer n => decimalInt n.toInt
  | .float x => writeFloat x
  | .string s => writeString s
  | .array items => bracketed indented level '[' ']' (writeItems indented (level + 1) items)
  | .object members =>
    bracketed indented level '{' '}' (writeMembers indented (level + 1) members)

/-- The texts of the items of an array. -/
def writeItems (indented : Bool) (level : Nat) : List Json → List (List Char)
  | [] => []
  | item :: rest => write indented level item :: writeItems indented level rest

/-- The texts of the members of an object. -/
def writeMembers (indented : Bool) (level : Nat) : List (String × Json) → List (List Char)
  | [] => []
  | (name, value) :: rest =>
    (writeString name ++ ':' :: (if indented then [' '] else []) ++ write indented level value)
      :: writeMembers indented level rest

end

/-- The text without blanks. -/
def compact (json : Json) : List Char :=
  write false 0 json

/-- The text with two spaces of indentation. -/
def pretty (json : Json) : List Char :=
  write true 0 json

end TomlKeep.Json
