/-
# Quoting for messages

A text in a message stands in double quotes with everything made visible: quotes, backslashes and
the common controls by short escapes, and every other character that would not show by its code.
-/
import TomlKeep.Text.Hidden

namespace TomlKeep.Text

/-- The hexadecimal digits of a number, in small letters. -/
def lowerHex (n : Nat) : List Char :=
  Nat.toDigits 16 n

/-- A character made visible. -/
def visibleChar (c : Char) : List Char :=
  if c = '\x00' then ['\\', '0']
  else if c = '\t' then ['\\', 't']
  else if c = '\r' then ['\\', 'r']
  else if c = '\n' then ['\\', 'n']
  else if c = '"' then ['\\', '"']
  else if c = '\\' then ['\\', '\\']
  else if isHidden c then ['\\', 'u', '{'] ++ lowerHex c.toNat ++ ['}']
  else [c]

/-- A text in double quotes with every character made visible. -/
def visiblyQuoted (text : List Char) : List Char :=
  '"' :: text.flatMap visibleChar ++ ['"']

end TomlKeep.Text
