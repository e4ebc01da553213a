/-
# Literals of scalars

The text that stands for a scalar when it is changed in place.  Two scalars count as changed when
their literals differ, so the form is fixed: strings in double quotes with every control character
escaped, so that a literal never spans lines; numbers in plain decimal form; a float always with a
point or an exponent, so that it reads back as a float.

Two values have a literal that does not read back: `null` is written as the bare word, and a float
that is not finite as `0`.
-/
import TomlKeep.Value
import TomlKeep.Binary64.Text

namespace TomlKeep

/-- A control character: U+0000 to U+001F and U+007F to U+009F. -/
def isControl (c : Char) : Bool :=
  c.toNat < 0x20 || (0x7F ≤ c.toNat && c.toNat < 0xA0)

/-- The hexadecimal digit of a number below sixteen, in capitals. -/
def upperHexDigit (n : Nat) : Char :=
  if n < 10 then Char.ofNat (48 + n) else Char.ofNat (55 + n)

/-- A number below 65536 as four hexadecimal digits. -/
def upperHex4 (n : Nat) : List Char :=
  [upperHexDigit (n / 4096 % 16), upperHexDigit (n / 256 % 16), upperHexDigit (n / 16 % 16),
    upperHexDigit (n % 16)]

/-- A character as it is written inside a quoted literal. -/
def quoteChar (c : Char) : List Char :=
  if c = '\\' then ['\\', '\\']
  else if c = '"' then ['\\', '"']
  else if c = '\n' then ['\\', 'n']
  else if c = '\r' then ['\\', 'r']
  else if c = '\t' then ['\\', 't']
  else if isControl c then '\\' :: 'u' :: upperHex4 c.toNat
  else [c]

/-- A text in double quotes, on one line. -/
def quote (text : List Char) : List Char :=
  '"' :: text.flatMap quoteChar ++ ['"']

/-- The decimal text of an integer. -/
def decimalInt (n : Int) : List Char :=
  (if n < 0 then ['-'] else []) ++ Nat.toDigits 10 n.natAbs

/-- The words for truth values. -/
def boolText (b : Bool) : List Char :=
  if b then ['t', 'r', 'u', 'e'] else ['f', 'a', 'l', 's', 'e']

/-- The literal of a scalar; arrays and tables have none. -/
def Value.literal? : Value → Option (List Char)
  | .null => some ['n', 'u', 'l', 'l']
  | .bool b => some (boolText b)
  | .integer n => some (decimalInt n.toInt)
  | .float x => some (if x.isFinite then FloatStyle.literal.write x else ['0'])
  | .string s => some (quote s.toList)
  | .datetime text => some text.toList
  | .array _ => none
  | .table _ => none

end TomlKeep
