/-
# Writing a document

A table is written as its plain entries, one per line, and behind them its sub-tables and arrays
of tables, each under its header, in the order of their keys and depth first.  An array counts as
an array of tables if it holds tables only, and at least one.  What `null` stands for is left out.

Keys and strings take the plainest quotes that can hold them (`writeKey`, `writeString`).
-/
import TomlKeep.Literal
import TomlKeep.Datetime
import TomlKeep.Toml.Term

namespace TomlKeep.Toml

open Text

/-! ## 1. Quotes -/

/-- A control character of ASCII. -/
def isAsciiControl (c : Char) : Bool :=
  c.toNat < 0x20 || c.toNat == 0x7F

/-- A control character that a string cannot hold on one line. -/
def isHardControl (c : Char) : Bool :=
  isAsciiControl c && c != '\t'

/-- A character in a string in double quotes, quotes and line feeds apart. -/
def escapeChar (c : Char) : List Char :=
  if c = '\x08' then ['\\', 'b']
  else if c = '\t' then ['\\', 't']
  else if c = '\n' then ['\\', 'n']
  else if c = '\x0c' then ['\\', 'f']
  else if c = '\r' then ['\\', 'r']
  else if c = '\\' then ['\\', '\\']
  else if isAsciiControl c then '\\' :: 'u' :: upperHex4 c.toNat
  else [c]

/-- The body of a string in double quotes; of a run of quotes, `free` more may stand without a
backslash.  On one line no quote may, and over lines two. -/
def escapeBody (multi : Bool) : (free : Nat) → List Char → List Char
  | _, [] => []
  | free, c :: rest =>
    let most := if multi then 2 else 0
    if c = '"' then
      match free with
      | 0 => '\\' :: '"' :: escapeBody multi most rest
      | left + 1 => '"' :: escapeBody multi left rest
    else if multi && c = '\n' then '\n' :: escapeBody multi most rest
    else escapeChar c ++ escapeBody multi most rest

/-- A text in double quotes on one line. -/
def writeBasic (text : List Char) : List Char :=
  '"' :: escapeBody false 0 text ++ ['"']

/-- A text in single quotes on one line. -/
def writeVerbatim (text : List Char) : List Char :=
  '\'' :: text ++ ['\'']

/-- The line end that opens a string over several lines. -/
def openingLine (text : List Char) : List Char :=
  if text.contains '\n' then ['\n'] else []

/-- A text between three double quotes. -/
def writeMultiBasic (text : List Char) : List Char :=
  ['"', '"', '"'] ++ openingLine text ++ escapeBody true 2 text ++ ['"', '"', '"']

/-- A text between three single quotes. -/
def writeMultiVerbatim (text : List Char) : List Char :=
  ['\'', '\'', '\''] ++ openingLine text ++ text ++ ['\'', '\'', '\'']

/-- Whether the text holds three characters `c` in a row. -/
def hasTriple (c : Char) : List Char → Bool
  | [] => false
  | d :: rest => beginsWith [c, c, c] (d :: rest) || hasTriple c rest

/-- A string in the first of four plain forms that can hold it, or else with escapes. -/
def writeString (text : List Char) : List Char :=
  if !text.any (fun c => isHardControl c || c == '\\' || c == '"') then writeBasic text
  else if !text.any (fun c => isHardControl c || c == '\'') then writeVerbatim text
  else if !text.any (fun c => (isHardControl c && c != '\n') || c == '\\')
      && !hasTriple '"' text then writeMultiBasic text
  else if !text.any (fun c => isHardControl c && c != '\n') && !hasTriple '\'' text then
    writeMultiVerbatim text
  else if text.contains '\n' then writeMultiBasic text
  else writeBasic text

/-- A key: bare if it can be, or else in the first quotes that can hold it. -/
def writeKey (key : String) : List Char :=
  let text := key.toList
  if !text.isEmpty && text.all isBareKeyChar then text
  else if !text.any (fun c => isHardControl c || c == '\\' || c == '"') then writeBasic text
  else if !text.any (fun c => isHardControl c || c == '\'') then writeVerbatim text
  else writeBasic text

/-! ## 2. Values on one line -/

/-- A float of a document: a whole number keeps `.0`, and no exponent is used. -/
def writeFloat (x : Binary64) : List Char :=
  match x with
  | .nan negative => (if negative then ['-'] else []) ++ ['n', 'a', 'n']
  | .infinite negative => (if negative then ['-'] else []) ++ ['i', 'n', 'f']
  | .finite negative rank => { FloatStyle.plain with wholeMark := true }.signed negative rank.val

/-- A date-time in its canonical form; a text that is none is written as a string. -/
def writeDatetime (text : String) : List Char :=
  match Datetime.canonical? text.toList with
  | some canonical => canonical
  | none => writeString text.toList

/-- Items with a comma between them. -/
def commaSeparated (items : List (List Char)) : List Char :=
  [',', ' '].intercalate items

mutual

/-- A value on one line; `null` has no text. -/
def writeInline? : Value → Option (List Char)
  | .null => none
  | .bool b => some (boolText b)
  | .integer n => some (decimalInt n.toInt)
  | .float x => some (writeFloat x)
  | .string s => some (writeString s.toList)
  | .datetime text => some (writeDatetime text)
  | .array items => some ('[' :: commaSeparated (inlineItems items) ++ [']'])
  | .table entries =>
    match inlineEntries entries with
    | [] => some ['{', '}']
    | texts => some (['{', ' '] ++ commaSeparated texts ++ [' ', '}'])

/-- The items of an array, each on one line. -/
def inlineItems : List Value → List (List Char)
  | [] => []
  | value :: rest =>
    match writeInline? value with
    | none => inlineItems rest
    | some text => text :: inlineItems rest

/-- The entries of a table, each on one line. -/
def inlineEntries : List (String × Value) → List (List Char)
  | [] => []
  | (key, value) :: rest =>
    match writeInline? value with
    | none => inlineEntries rest
    | some text => (writeKey key ++ [' ', '=', ' '] ++ text) :: inlineEntries rest

end

/-! ## 3. Sections -/

/-- Whether the value is a table. -/
def isTable : Value → Bool
  | .table _ => true
  | _ => false

/-- Whether the value is written under headers of its own. -/
def isSection : Value → Bool
  | .table _ => true
  | .array items => !items.isEmpty && items.all isTable
  | _ => false

/-- The lines of the plain entries of a table. -/
def plainLines (entries : Table) : List Char :=
  (inlineEntries (entries.filter fun e => !isSection e.2)).flatMap (· ++ ['\n'])

/-- The header of a table or of an element of an array of tables. -/
def writeHeader (path : List String) (array : Bool) : List Char :=
  let name := ['.'].intercalate (path.map writeKey)
  if array then ['[', '['] ++ name ++ [']', ']', '\n'] else '[' :: name ++ [']', '\n']

mutual

/-- The sections under a table, each with its header. -/
def sections (path : List String) : List (String × Value) → List (List Char)
  | [] => []
  | (key, .table entries) :: rest =>
    (writeHeader (path ++ [key]) false ++ plainLines entries)
      :: sections (path ++ [key]) entries ++ sections path rest
  | (key, .array items) :: rest =>
    (if isSection (.array items) then elementSections (path ++ [key]) items else [])
      ++ sections path rest
  | _ :: rest => sections path rest

/-- The sections of an array of tables. -/
def elementSections (path : List String) : List Value → List (List Char)
  | [] => []
  | .table entries :: rest =>
    (writeHeader path true ++ plainLines entries)
      :: sections path entries ++ elementSections path rest
  | _ :: rest => elementSections path rest

end

/-- The text of a document with the given root table. -/
def renderTable (entries : Table) : List Char :=
  ['\n'].intercalate ((plainLines entries :: sections [] entries).filter (!·.isEmpty))

/-- The text of a document; only a table has one. -/
def render : Value → List Char
  | .table entries => renderTable entries
  | _ => []

end TomlKeep.Toml
