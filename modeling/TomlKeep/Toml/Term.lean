/-
# The grammar of documents

Reading a document takes two stages.  This module is the first: a text becomes a list of
statements, each a header or an entry, and the value of an entry becomes a term.  What the keys
mean is left to the second stage (`Toml.Node`).

Terms nest `maxNesting` deep at most.  The reader of terms is a recursion on the levels that are
left; the loops over the items of one array or table take a bound on their number, for which the
length of the text serves.
-/
import TomlKeep.Toml.Quoting
import TomlKeep.Datetime

namespace TomlKeep.Toml

open Text

/-- The value of an entry as it is written; the keys of an inline table may be dotted. -/
inductive Term where
  | leaf (value : Value)
  | array (items : List Term)
  | inline (entries : List (List String × Term))
  deriving Repr

/-- A statement of a document. -/
inductive Statement where
  | header (path : List String) (array : Bool)
  | entry (path : List String) (term : Term)
  deriving Repr

/-- Arrays and inline tables may nest this deep. -/
def maxNesting : Nat := 80

/-! ## 1. Between tokens -/

/-- Skips spaces, tabs, line ends and comments; `comment` holds inside a comment. -/
def skipFiller? (comment : Bool) : List Char → Option (List Char)
  | [] => some []
  | c :: rest =>
    if c = '\n' then skipFiller? false rest
    else if c = '\r' then if startsLineFeed rest then skipFiller? comment rest else none
    else if comment then if isTextChar c then skipFiller? true rest else none
    else if isGap c then skipFiller? false rest
    else if c = '#' then skipFiller? true rest
    else some (c :: rest)

/-- Skips spaces and tabs. -/
def skipGap? (text : List Char) : Option (List Char) :=
  some (text.dropWhile isGap)

/-- Skips the rest of a line, in which only blanks and a comment may stand. -/
def skipLine? (comment : Bool) : List Char → Option (List Char)
  | [] => some []
  | c :: rest =>
    if c = '\n' then some rest
    else if c = '\r' then if startsLineFeed rest then skipLine? comment rest else none
    else if comment then if isTextChar c then skipLine? true rest else none
    else if isGap c then skipLine? false rest
    else if c = '#' then skipLine? true rest
    else none

/-! ## 2. Keys -/

/-- Whether the character may stand in a bare key. -/
def isBareKeyChar (c : Char) : Bool :=
  c.isAlphanum || c == '-' || c == '_'

/-- Takes a key without dots off a text. -/
def takeSimpleKey? (text : List Char) : Option (String × List Char) :=
  if startsIn (fun c => c == '"' || c == '\'') text then takeQuoted? text
  else
    let name := text.takeWhile isBareKeyChar
    if name.isEmpty then none else some (String.ofList name, text.dropWhile isBareKeyChar)

/-- A key may have this many parts. -/
def maxKeyParts : Nat := 80

/-- Takes a key of at most `bound` parts off a text, with the gaps around its parts. -/
def takeKey? : Nat → List Char → Option (List String × List Char)
  | 0, _ => none
  | bound + 1, text =>
    match takeSimpleKey? (text.dropWhile isGap) with
    | none => none
    | some (part, text) =>
      match text.dropWhile isGap with
      | '.' :: text =>
        match takeKey? bound text with
        | none => none
        | some (parts, text) => some (part :: parts, text)
      | text => some ([part], text)

/-! ## 3. Terms -/

/-- Whether the character may stand in a number, a date-time or a truth value. -/
def isTokenChar (c : Char) : Bool :=
  !(isGap c || c == '\n' || c == '\r' || c == '#' || c == ',' || c == '=' || c == '"' || c == '\''
    || c == '[' || c == ']' || c == '{' || c == '}')

/-- Takes an unquoted token off a text.  A space between a date and a time does not end it. -/
def takeToken (text : List Char) : List Char × List Char :=
  let token := text.takeWhile isTokenChar
  let behind := text.dropWhile isTokenChar
  match Datetime.takeDay? token, behind with
  | some (_, []), ' ' :: time =>
    if startsIn Char.isDigit time then
      (token ++ ' ' :: time.takeWhile isTokenChar, time.dropWhile isTokenChar)
    else (token, behind)
  | _, _ => (token, behind)

/-- The value of an unquoted token. -/
def tokenValue? (token : List Char) : Option Value :=
  if token = ['t', 'r', 'u', 'e'] then some (.bool true)
  else if token = ['f', 'a', 'l', 's', 'e'] then some (.bool false)
  else
    match Numeral.read? token with
    | some numeral => numeral.value?
    | none => (Datetime.canonical? token).map fun canonical => .datetime (String.ofList canonical)

/-- Takes a value that is neither an array nor a table off a text. -/
def takeScalar? (text : List Char) : Option (Term × List Char) :=
  if startsIn (fun c => c == '"' || c == '\'') text then
    (takeString? text).map fun (s, behind) => (.leaf (.string s), behind)
  else
    let (token, behind) := takeToken text
    (tokenValue? token).map fun value => (.leaf value, behind)

/-- Takes the rest of an array off a text, closing bracket included. -/
def takeItems? (item : List Char → Option (Term × List Char)) :
    Nat → List Char → Option (List Term × List Char)
  | 0, _ => none
  | bound + 1, text =>
    match skipFiller? false text with
    | none => none
    | some (']' :: behind) => some ([], behind)
    | some text =>
      match item text with
      | none => none
      | some (term, text) =>
        match skipFiller? false text with
        | some (']' :: behind) => some ([term], behind)
        | some (',' :: text) =>
          match takeItems? item bound text with
          | none => none
          | some (terms, behind) => some (term :: terms, behind)
        | _ => none

/-- Takes an entry `key = value` off a text; `skip?` skips what may stand around the `=`. -/
def takeBinding? (skip? : List Char → Option (List Char))
    (item : List Char → Option (Term × List Char)) (text : List Char) :
    Option ((List String × Term) × List Char) :=
  match takeKey? maxKeyParts text with
  | none => none
  | some (path, text) =>
    match skip? text with
    | some ('=' :: text) =>
      match skip? text with
      | none => none
      | some text =>
        match item text with
        | none => none
        | some (term, text) => some ((path, term), text)
    | _ => none

/-- Takes the rest of an inline table off a text, closing brace included. -/
def takeEntries? (item : List Char → Option (Term × List Char)) :
    Nat → List Char → Option (List (List String × Term) × List Char)
  | 0, _ => none
  | bound + 1, text =>
    match skipFiller? false text with
    | none => none
    | some ('}' :: behind) => some ([], behind)
    | some text =>
      match takeBinding? (skipFiller? false) item text with
      | none => none
      | some (entry, text) =>
        match skipFiller? false text with
        | some ('}' :: behind) => some ([entry], behind)
        | some (',' :: text) =>
          match takeEntries? item bound text with
          | none => none
          | some (entries, behind) => some (entry :: entries, behind)
        | _ => none

/-- Takes a value off a text; `levels` more brackets may open. -/
def takeTerm? : Nat → List Char → Option (Term × List Char)
  | 0, text => takeScalar? text
  | levels + 1, '[' :: text =>
    (takeItems? (takeTerm? levels) (text.length + 1) text).map
      fun (items, behind) => (.array items, behind)
  | levels + 1, '{' :: text =>
    (takeEntries? (takeTerm? levels) (text.length + 1) text).map
      fun (entries, behind) => (.inline entries, behind)
  | _ + 1, text => takeScalar? text

/-! ## 4. Statements -/

/-- Takes a header off a text, closing brackets included. -/
def takeHeader? (text : List Char) : Option (Statement × List Char) :=
  match after? ['[', '['] text with
  | some text =>
    match takeKey? maxKeyParts text with
    | some (path, ']' :: ']' :: behind) => some (.header path true, behind)
    | _ => none
  | none =>
    match takeKey? maxKeyParts (text.drop 1) with
    | some (path, ']' :: behind) => some (.header path false, behind)
    | _ => none

/-- Takes a statement off a text. -/
def takeStatement? (text : List Char) : Option (Statement × List Char) :=
  if startsIn (· == '[') text then takeHeader? text
  else
    (takeBinding? skipGap? (takeTerm? maxNesting) text).map
      fun ((path, term), behind) => (.entry path term, behind)

/-- Reads at most `bound` lines as statements. -/
def readLines? : Nat → List Char → Option (List Statement)
  | 0, _ => none
  | bound + 1, text =>
    match text.dropWhile isGap with
    | [] => some []
    | c :: rest =>
      if c = '\n' ∨ c = '\r' ∨ c = '#' then
        match skipLine? false (c :: rest) with
        | none => none
        | some text => readLines? bound text
      else
        match takeStatement? (c :: rest) with
        | none => none
        | some (statement, behind) =>
          match skipLine? false behind with
          | none => none
          | some text => (readLines? bound text).map (statement :: ·)

/-- The statements of a document; a byte order mark at its beginning does not count. -/
def readStatements? (text : List Char) : Option (List Statement) :=
  let text := if startsIn (· == '\uFEFF') text then text.drop 1 else text
  readLines? (text.length + 1) text

end TomlKeep.Toml
