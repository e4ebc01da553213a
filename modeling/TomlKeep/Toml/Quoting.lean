/-
# Strings of a document

A string stands in double quotes, with escapes, or in single quotes, verbatim; three quotes of
either kind enclose a string that may span lines.  A line break right behind three opening quotes
is no part of the string, and up to two quotes right before the closing three are.

The bodies of strings are read in one pass over the characters; `BasicPlace` is where in an escape
the reader stands.
-/
import TomlKeep.Scan
import TomlKeep.Numeral

namespace TomlKeep.Toml

open Text

/-! ## 1. Characters -/

/-- Whether the character may stand for itself in strings and comments: every character but the
controls of ASCII, and of those the tab. -/
def isTextChar (c : Char) : Bool :=
  c == '\t' || (0x20 ≤ c.toNat && c.toNat != 0x7F)

/-- Whether a carriage return before this text is part of a line end. -/
def startsLineFeed (text : List Char) : Bool :=
  startsIn (· == '\n') text

/-- The character that a short escape stands for. -/
def shortEscape? (c : Char) : Option Char :=
  if c = 'b' then some '\x08'
  else if c = 't' then some '\t'
  else if c = 'n' then some '\n'
  else if c = 'f' then some '\x0c'
  else if c = 'r' then some '\r'
  else if c = 'e' then some '\x1b'
  else if c = '"' then some '"'
  else if c = '\\' then some '\\'
  else none

/-- The number of hexadecimal digits that follow the letter of a long escape. -/
def longEscape? (c : Char) : Option Nat :=
  if c = 'x' then some 2
  else if c = 'u' then some 4
  else if c = 'U' then some 8
  else none

/-- The character of a code point. -/
def charOfCode? (code : Nat) : Option Char :=
  if code.isValidChar then some (Char.ofNat code) else none

/-! ## 2. Double quotes -/

/-- Where the reader of a string in double quotes stands. -/
inductive BasicPlace where
  | plain
  /-- Behind a backslash. -/
  | escape
  /-- In a long escape with this many digits to go. -/
  | code (left : Nat) (value : Nat)
  /-- Between a backslash and the line end that it hides. -/
  | lineEnd
  /-- Behind a hidden line end, where blanks and line ends do not count. -/
  | lineStart
  deriving DecidableEq, Repr

/-- Reads the rest of a string in double quotes, closing quotes included, and what follows it. -/
def basicBody? (multi : Bool) : BasicPlace → List Char → Option (List Char × List Char)
  | _, [] => none
  | .escape, c :: rest =>
    match shortEscape? c, longEscape? c with
    | some d, _ => pushBefore d (basicBody? multi .plain rest)
    | none, some digits => basicBody? multi (.code digits 0) rest
    | none, none =>
      if !multi then none
      else if c = '\n' then basicBody? multi .lineStart rest
      else if isGap c || (c = '\r' && startsLineFeed rest) then basicBody? multi .lineEnd rest
      else none
  | .code left value, c :: rest =>
    if Numeral.isDigitOf 16 c then
      let value := value * 16 + Numeral.digitValue c
      if left ≤ 1 then
        match charOfCode? value with
        | some d => pushBefore d (basicBody? multi .plain rest)
        | none => none
      else basicBody? multi (.code (left - 1) value) rest
    else none
  | .lineEnd, c :: rest =>
    if c = '\n' then basicBody? multi .lineStart rest
    else if isGap c || (c = '\r' && startsLineFeed rest) then basicBody? multi .lineEnd rest
    else none
  | place, c :: rest =>
    if place = .lineStart && (isGap c || c = '\n' || (c = '\r' && startsLineFeed rest)) then
      basicBody? multi .lineStart rest
    else if c = '\\' then basicBody? multi .escape rest
    else if c = '"' then
      if multi then
        match after? ['"', '"'] rest with
        | some behind => some (splitRun '"' 2 behind)
        | none => pushBefore c (basicBody? multi .plain rest)
      else some ([], rest)
    else if isTextChar c || (multi && (c = '\n' || (c = '\r' && startsLineFeed rest))) then
      pushBefore c (basicBody? multi .plain rest)
    else none

/-! ## 3. Single quotes -/

/-- Reads the rest of a string in single quotes, closing quotes included, and what follows it. -/
def literalBody? (multi : Bool) : List Char → Option (List Char × List Char)
  | [] => none
  | c :: rest =>
    if c = '\'' then
      if multi then
        match after? ['\'', '\''] rest with
        | some behind => some (splitRun '\'' 2 behind)
        | none => pushBefore c (literalBody? multi rest)
      else some ([], rest)
    else if isTextChar c || (multi && (c = '\n' || (c = '\r' && startsLineFeed rest))) then
      pushBefore c (literalBody? multi rest)
    else none

/-! ## 4. All strings -/

/-- The text without a line end at its beginning. -/
def dropLineEnd : List Char → List Char
  | '\n' :: rest => rest
  | '\r' :: '\n' :: rest => rest
  | text => text

/-- Takes a string on one line off a text. -/
def takeQuoted? : List Char → Option (String × List Char)
  | '"' :: rest => (basicBody? false .plain rest).map fun (s, behind) => (String.ofList s, behind)
  | '\'' :: rest => (literalBody? false rest).map fun (s, behind) => (String.ofList s, behind)
  | _ => none

/-- Takes a string of any form off a text. -/
def takeString? (text : List Char) : Option (String × List Char) :=
  match tripleQuote? text with
  | some '"' =>
    (basicBody? true .plain (dropLineEnd (text.drop 3))).map
      fun (s, behind) => (String.ofList s, behind)
  | some _ =>
    (literalBody? true (dropLineEnd (text.drop 3))).map
      fun (s, behind) => (String.ofList s, behind)
  | none => takeQuoted? text

end TomlKeep.Toml
