/-
# What a line is

A physical line on its own is a section header, a `key = value` assignment, or something else.
An assignment is kept as four consecutive pieces (`Assignment.chars_of_ofLine?`): the lead up
to the value, the value, the gap behind it, and the comment; offsets are lengths of pieces.

All searches in a line skip quoted text (`splitOutside?`).  They know the two one-line quotes of
TOML only: double quotes with backslash escapes, and single quotes without.
-/
import TomlKeep.Path
import TomlKeep.Text.Lines

namespace TomlKeep

open Text

/-! ## 1. Searching outside quotes -/

/-- Whether a position of a line is inside a quoted string. -/
inductive Quoting where
  | outside
  | single
  | double
  deriving DecidableEq, Repr

/-- Splits the text at the first place outside quotes whose rest satisfies `found`. -/
def splitOutside? (found : List Char → Bool) :
    Quoting → List Char → Option (List Char × List Char)
  | _, [] => none
  | .single, c :: rest =>
    pushBefore c (splitOutside? found (if c = '\'' then .outside else .single) rest)
  | .double, '\\' :: c :: rest =>
    pushBefore '\\' (pushBefore c (splitOutside? found .double rest))
  | .double, c :: rest =>
    pushBefore c (splitOutside? found (if c = '"' then .outside else .double) rest)
  | .outside, c :: rest =>
    if c = '"' then pushBefore c (splitOutside? found .double rest)
    else if c = '\'' then pushBefore c (splitOutside? found .single rest)
    else if found (c :: rest) then some ([], c :: rest)
    else pushBefore c (splitOutside? found .outside rest)

/-- A split loses nothing. -/
theorem append_of_splitOutside? {found : List Char → Bool} {state : Quoting}
    {text before suffix : List Char} (h : splitOutside? found state text = some (before, suffix)) :
    before ++ suffix = text := by
  fun_induction splitOutside? found state text generalizing before suffix <;>
    grind [pushBefore_eq_some]

/-- Whether the text begins with one of the characters in `p`. -/
def startsIn (p : Char → Bool) : List Char → Bool
  | [] => false
  | c :: _ => p c

/-- The net number of brackets and braces that the text opens, quoted text and a comment not
counted. -/
def bracketBalance : Quoting → List Char → Int
  | _, [] => 0
  | .single, c :: rest => bracketBalance (if c = '\'' then .outside else .single) rest
  | .double, '\\' :: _ :: rest => bracketBalance .double rest
  | .double, c :: rest => bracketBalance (if c = '"' then .outside else .double) rest
  | .outside, c :: rest =>
    if c = '"' then bracketBalance .double rest
    else if c = '\'' then bracketBalance .single rest
    else if c = '[' ∨ c = '{' then 1 + bracketBalance .outside rest
    else if c = ']' ∨ c = '}' then bracketBalance .outside rest - 1
    else if c = '#' then 0
    else bracketBalance .outside rest

/-! ## 2. The kinds of line -/

/-- A section header; `array` marks the double brackets of an array of tables. -/
structure Header where
  path : SectionPath
  array : Bool
  deriving DecidableEq, Repr

/-- An assignment in consecutive pieces.  A comment begins with `#`; no comment is the empty
text. -/
structure Assignment where
  key : KeyPath
  lead : List Char
  value : List Char
  gap : List Char
  comment : List Char
  deriving DecidableEq, Repr

/-- What a line is. -/
inductive LineKind where
  | header (header : Header)
  | assignment (assignment : Assignment)
  | other
  deriving DecidableEq, Repr

namespace Assignment

/-- The text of the line. -/
def chars (a : Assignment) : List Char :=
  a.lead ++ a.value ++ a.gap ++ a.comment

/-- Where the value begins. -/
def valueStart (a : Assignment) : Nat :=
  byteLength a.lead

/-- Where the value ends. -/
def valueEnd (a : Assignment) : Nat :=
  byteLength a.lead + byteLength a.value

/-- Where the comment begins. -/
def commentStart? (a : Assignment) : Option Nat :=
  if a.comment.isEmpty then none
  else some (byteLength a.lead + byteLength a.value + byteLength a.gap)

/-- A value that opens a string or a bracket; a `#` inside its quotes starts no comment. -/
def isQuotedStart (c : Char) : Bool :=
  c == '"' || c == '\'' || c == '[' || c == '{'

/-- Cuts the comment off what stands behind the `=`. -/
def splitComment (body : List Char) : List Char × List Char :=
  if startsIn isQuotedStart body then
    (splitOutside? (startsIn (· == '#')) .outside body).getD (body, [])
  else (body.takeWhile (· != '#'), body.dropWhile (· != '#'))

/-- Reads a line as an assignment: outside quotes an `=` comes before any `#`, and what stands
before it is a key. -/
def ofLine? (line : List Char) : Option Assignment :=
  match splitOutside? (startsIn fun c => c == '=' || c == '#') .outside line with
  | some (left, '=' :: right) =>
    match KeyPath.parse (trim left) with
    | .ok key =>
      let (body, comment) := splitComment (right.dropWhile isGap)
      some {
        key
        lead := left ++ '=' :: right.takeWhile isGap
        value := dropEnd isGap body
        gap := takeEnd isGap body
        comment }
    | .error _ => none
  | _ => none

/-- **The pieces of an assignment are the line.** -/
theorem chars_of_ofLine? {line : List Char} {a : Assignment} (h : ofLine? line = some a) :
    a.chars = line := by
  have split (body : List Char) : (splitComment body).1 ++ (splitComment body).2 = body := by
    unfold splitComment
    split
    · cases hs : splitOutside? (startsIn (· == '#')) .outside body with
      | none => simp
      | some p => simpa using append_of_splitOutside? hs
    · simp
  unfold ofLine? at h
  split at h
  · next left right hs =>
    split at h
    · have h1 := append_of_splitOutside? hs
      have h2 := split (right.dropWhile isGap)
      have h4 : right.takeWhile isGap ++ right.dropWhile isGap = right :=
        List.takeWhile_append_dropWhile
      revert h h2
      generalize splitComment (right.dropWhile isGap) = parts
      obtain ⟨body, comment⟩ := parts
      intro h h2
      obtain rfl := Option.some.inj h
      have h3 := dropEnd_append_takeEnd isGap body
      simp only [chars, List.append_assoc, List.cons_append]
      rw [← List.append_assoc (dropEnd _ _), h3, h2, h4, h1]
    · simp at h
  · simp at h

end Assignment

namespace Header

/-- Reads a line that begins with a bracket as a header: the closing bracket outside quotes is
followed by blanks or a comment only. -/
def ofLine? (line : List Char) : Option Header :=
  let (opening, closing, array) :=
    if beginsWith ['[', '['] line then (['[', '['], [']', ']'], true)
    else (['['], [']'], false)
  match splitOutside? (beginsWith closing) .outside (line.drop opening.length) with
  | none => none
  | some (name, rest) =>
    let behind := trimStart (rest.drop closing.length)
    if behind.isEmpty || startsIn (· == '#') behind then
      match SectionPath.parse name with
      | .ok path => some { path, array }
      | .error _ => none
    else none

end Header

/-- What a line is, taken on its own. -/
def classify (line : List Char) : LineKind :=
  let text := trimStart line
  if text.isEmpty || startsIn (· == '#') text then .other
  else if startsIn (· == '[') text then
    match Header.ofLine? text with
    | some header => .header header
    | none => .other
  else
    match Assignment.ofLine? line with
    | some a => .assignment a
    | none => .other

end TomlKeep
