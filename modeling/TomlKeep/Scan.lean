/-
# The lines of a document

A value may continue over several lines: a multi-line string until its closing quotes, an array
or an inline table until its brackets balance.  `scan` classifies the lines of a text one by one
and reports every line that continues a value as `other`, so that nothing inside a value is taken
for a header or an assignment.

`closeTriple?` finds the end of a multi-line string.  In double quotes a backslash hides the next
character; up to two quotes right before the closing three belong to the string.
-/
import TomlKeep.Line

namespace TomlKeep

open Text

/-! ## 1. The end of a multi-line string -/

/-- Splits a text behind its leading characters equal to `c`, at most `n` of them. -/
def splitRun (c : Char) : Nat → List Char → List Char × List Char
  | 0, text => ([], text)
  | _ + 1, [] => ([], [])
  | n + 1, d :: rest =>
    if d = c then
      let (run, behind) := splitRun c n rest
      (d :: run, behind)
    else ([], d :: rest)

/-- Splits what stands behind the opening quotes of a multi-line string right behind its closing
quotes. -/
def closeTriple? (quote : Char) : List Char → Option (List Char × List Char)
  | [] => none
  | c :: rest =>
    if c = '\\' ∧ quote = '"' then
      match rest with
      | [] => none
      | d :: rest => pushBefore c (pushBefore d (closeTriple? quote rest))
    else
      match after? [quote, quote, quote] (c :: rest) with
      | some behind =>
        let (run, behind) := splitRun quote 2 behind
        some (quote :: quote :: quote :: run, behind)
      | none => pushBefore c (closeTriple? quote rest)

/-- The quote character whose triple the text begins with. -/
def tripleQuote? (text : List Char) : Option Char :=
  if beginsWith ['"', '"', '"'] text then some '"'
  else if beginsWith ['\'', '\'', '\''] text then some '\''
  else none

/-- Splits a text that begins with a multi-line string right behind that string; none if there
is no such string or it is never closed. -/
def splitMultiline? (text : List Char) : Option (List Char × List Char) :=
  match tripleQuote? text with
  | none => none
  | some quote =>
    match closeTriple? quote (text.drop 3) with
    | none => none
    | some (body, behind) => some (quote :: quote :: quote :: body, behind)

/-- Where the multi-line string that begins at an offset of a text ends. -/
def multilineEnd? (text : List Char) (start : Nat) : Option Nat :=
  match splitAt? start text with
  | none => none
  | some (_, suffix) =>
    match splitMultiline? suffix with
    | none => none
    | some (value, _) => some (start + byteLength value)

/-! ## 2. Classifying line by line -/

/-- A value that the lines so far have left open. -/
inductive Pending where
  /-- No value is open. -/
  | closed
  /-- A multi-line string with this many bytes to go. -/
  | string (left : Nat)
  /-- A multi-line string that is never closed. -/
  | endless
  /-- An array or inline table with this many brackets open. -/
  | brackets (depth : Int)
  deriving DecidableEq, Repr

/-- A line of a document: where it begins and what it is in its place. -/
structure ScannedLine where
  offset : Nat
  line : Line
  kind : LineKind
  deriving DecidableEq, Repr

/-- The brackets that are open once the balance is `depth`. -/
def Pending.ofDepth (depth : Int) : Pending :=
  if 0 < depth then .brackets depth else .closed

/-- The string that stays open behind a line, if it has `left` bytes to go at its beginning. -/
def Pending.pastLine (line : Line) (left : Nat) : Pending :=
  if left ≤ byteLength line.content then .closed else .string (left - byteLength line.chars)

/-- What an assignment leaves open; `following` are the lines behind its own. -/
def Pending.ofAssignment (a : Assignment) (line : Line) (following : List Line) : Pending :=
  let body := a.value ++ a.gap ++ a.comment
  match tripleQuote? body with
  | some _ =>
    match splitMultiline? (body ++ line.ending.chars ++ following.flatMap Line.chars) with
    | none => .endless
    | some (value, _) => .pastLine line (byteLength a.lead + byteLength value)
  | none =>
    if startsIn (fun c => c == '[' || c == '{') body then
      .ofDepth (bracketBalance .outside body)
    else .closed

/-- Classifies lines; `offset` is where the first of them begins. -/
def scanLines : Nat → Pending → List Line → List ScannedLine
  | _, _, [] => []
  | offset, pending, line :: rest =>
    let next := offset + byteLength line.chars
    match pending with
    | .string left => ⟨offset, line, .other⟩ :: scanLines next (.pastLine line left) rest
    | .endless => ⟨offset, line, .other⟩ :: scanLines next .endless rest
    | .brackets depth =>
      ⟨offset, line, .other⟩
        :: scanLines next (.ofDepth (depth + bracketBalance .outside line.content)) rest
    | .closed =>
      match classify line.content with
      | .assignment a =>
        ⟨offset, line, .assignment a⟩
          :: scanLines next (.ofAssignment a line rest) rest
      | kind => ⟨offset, line, kind⟩ :: scanLines next .closed rest

/-- The lines of a text and what each is in its place. -/
def scan (text : List Char) : List ScannedLine :=
  scanLines 0 .closed (lines text)

/-- Scanning keeps the lines as they are. -/
theorem map_line_scanLines (offset : Nat) (pending : Pending) (ls : List Line) :
    (scanLines offset pending ls).map ScannedLine.line = ls := by
  fun_induction scanLines offset pending ls <;> simp_all

/-- **Scanning loses no character.** -/
theorem flatten_scan (text : List Char) :
    (scan text).flatMap (fun s => s.line.chars) = text := by
  have h : (scan text).flatMap (fun s => s.line.chars)
      = ((scan text).map ScannedLine.line).flatMap Line.chars := by
    simp [List.flatMap_map]
  rw [h, scan, map_line_scanLines, flatten_lines]

end TomlKeep
