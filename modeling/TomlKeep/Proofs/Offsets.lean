/-
# Reading by offsets

The library cuts a line into pieces and keeps the pieces.  The same reading can be carried out on
offsets into the one text: every search begins at an offset and gives one, single bytes are
looked at where that is enough, and a piece is cut out at two offsets when it is needed.  Such a
reading has faults that a reading in pieces cannot have: a cut at a number that is no offset of
the text, or a look at a byte behind its end.

Here it is written down with every cut and every look checked; `none` is a fault.  It has none,
and it gives what the reading in pieces gives (`OffsetsAgree` for lines, `SafeOffsets` for
documents).
-/
import TomlKeep.Proofs.ClosingQuotes
import TomlKeep.Relaxed

namespace TomlKeep.ByOffset

open Text

/-! ## 1. Cuts

A cut at a number that is no offset, because it is too large or points inside a character, is the
fault to be ruled out.
-/

/-- The text from an offset on. -/
def from? (start : Nat) (text : List Char) : Option (List Char) :=
  (splitAt? start text).map (·.2)

/-- The text up to an offset. -/
def upTo? (stop : Nat) (text : List Char) : Option (List Char) :=
  (splitAt? stop text).map (·.1)

/-- The text between two offsets. -/
def between? (start stop : Nat) (text : List Char) : Option (List Char) :=
  (span? start stop text).map (·.inside)

/-! ## 2. Searches in a line

A search gives the offset of a character, and the next search begins there.  That it ends at all is
seen from the offset: it grows with each search, and stays in the text.
-/

/-- What a search knows about the quotes around a character. -/
structure Flags where
  double : Bool
  single : Bool
  escape : Bool
  deriving DecidableEq, Repr

/-- No quotes are open. -/
def Flags.outside : Flags := ⟨false, false, false⟩

/-- The first character outside quotes in `stop`, with its offset; the text begins at `i`. -/
def seek (stop : Char → Bool) : Flags → Nat → List Char → Option (Nat × Char)
  | _, _, [] => none
  | flags, i, c :: rest =>
    if flags.escape then seek stop { flags with escape := false } (i + c.utf8Size) rest
    else if flags.double then
      let flags := if c = '\\' then { flags with escape := true }
        else if c = '"' then { flags with double := false } else flags
      seek stop flags (i + c.utf8Size) rest
    else if flags.single then
      let flags := if c = '\'' then { flags with single := false } else flags
      seek stop flags (i + c.utf8Size) rest
    else if c = '"' then seek stop { flags with double := true } (i + c.utf8Size) rest
    else if c = '\'' then seek stop { flags with single := true } (i + c.utf8Size) rest
    else if stop c then some (i, c)
    else seek stop flags (i + c.utf8Size) rest

/-- What is found stands in the text that was searched. -/
theorem seek_bounds {stop : Char → Bool} {flags : Flags} {i j : Nat} {text : List Char} {c : Char}
    (h : seek stop flags i text = some (j, c)) : i ≤ j ∧ j < i + byteLength text := by
  fun_induction seek stop flags i text with
  | case1 => cases h
  | case7 flags i d rest _ _ _ _ _ _ =>
    obtain ⟨rfl, rfl⟩ := Prod.mk.inj (Option.some.inj h)
    have := d.utf8Size_pos
    rw [byteLength_cons]
    omega
  | _ =>
    rename_i ih
    obtain ⟨h1, h2⟩ := ih h
    rw [byteLength_cons]
    omega

/-- The search of a text from an offset on. -/
def scanQuoted? (stop : Char → Bool) (text : List Char) (start : Nat) :
    Option (Option (Nat × Char)) :=
  (from? start text).map (seek stop .outside start)

/-- So it stands behind the offset the search began at. -/
theorem scanQuoted?_bounds {stop : Char → Bool} {text : List Char} {start j : Nat} {c : Char}
    (h : scanQuoted? stop text start = some (some (j, c))) : start ≤ j ∧ j < byteLength text := by
  obtain ⟨rest, hrest, hseek⟩ := Option.map_eq_some_iff.mp h
  obtain ⟨⟨before, behind⟩, hcut, rfl⟩ := Option.map_eq_some_iff.mp hrest
  obtain ⟨rfl, rfl⟩ := splitAt?_eq_some hcut
  obtain ⟨h1, h2⟩ := seek_bounds hseek
  rw [byteLength_append]
  exact ⟨h1, h2⟩

/-- Where `first :: needle` stands first outside quotes, from an offset on. -/
def findUnquoted? (first : Char) (needle text : List Char) (start : Nat) : Option (Option Nat) :=
  match _h : scanQuoted? (· == first) text start with
  | none => none
  | some none => some none
  | some (some (i, _)) =>
    match from? i text with
    | none => none
    | some rest =>
      if beginsWith (first :: needle) rest then some (some i)
      else findUnquoted? first needle text (i + first.utf8Size)
termination_by byteLength text - start
decreasing_by
  have := scanQuoted?_bounds ‹scanQuoted? _ text start = _›
  have := first.utf8Size_pos
  omega

/-- A character at which the count of brackets stops. -/
def isBracketStop (c : Char) : Bool :=
  c == '[' || c == ']' || c == '{' || c == '}' || c == '#'

/-- The net number of brackets that a text opens from an offset on, added to `depth`. -/
def bracketDelta? (text : List Char) (start : Nat) (depth : Int) : Option Int :=
  match h : scanQuoted? isBracketStop text start with
  | none => none
  | some none => some depth
  | some (some (i, c)) =>
    if c = '[' ∨ c = '{' then bracketDelta? text (i + 1) (depth + 1)
    else if c = ']' ∨ c = '}' then bracketDelta? text (i + 1) (depth - 1)
    else some depth
termination_by byteLength text - start
decreasing_by
  all_goals
    have := scanQuoted?_bounds h
    omega

/-! ## 3. Kinds of line

The gaps around a value are looked for in the bytes, one by one, which is right since a space and a
tab are bytes that occur in no other character.
-/

/-- An assignment by the offsets of its value and of its comment. -/
structure Marks where
  key : KeyPath
  valueStart : Nat
  valueEnd : Nat
  commentStart? : Option Nat
  deriving DecidableEq, Repr

/-- What a line is, by offsets. -/
inductive MarkedKind where
  | header (header : Header)
  | assignment (marks : Marks)
  | other
  deriving DecidableEq, Repr

/-- Reads a header whose name begins at `opening` and is closed by `]` and `more`. -/
def headerFrom? (array : Bool) (opening : Nat) (more trimmed : List Char) :
    Option (Option Header) := do
  match ← findUnquoted? ']' more trimmed opening with
  | none => return none
  | some close =>
    let behind := trimStart (← from? (close + byteLength (']' :: more)) trimmed)
    if behind.isEmpty || startsIn (· == '#') behind then
      match SectionPath.parse (← between? opening close trimmed) with
      | .ok path => return some { path, array }
      | .error _ => return none
    else return none

/-- Reads a line that begins with a bracket, its leading blanks apart, as a header. -/
def header? (trimmed : List Char) : Option (Option Header) :=
  if beginsWith ['[', '['] trimmed then headerFrom? true 2 [']'] trimmed
  else headerFrom? false 1 [] trimmed

/-- Whether a byte is a space or a tab. -/
def isGapByte (b : UInt8) : Bool :=
  b == asciiByte ' ' || b == asciiByte '\t'

/-- The first byte from `i` on that is no gap. -/
def skipGap (bytes : List UInt8) (i : Nat) : Nat :=
  if h : i < bytes.length then
    if isGapByte bytes[i] then skipGap bytes (i + 1) else i
  else i
termination_by bytes.length - i

/-- The end of a value, without the gaps in front of `stop`. -/
def stripGap? (bytes : List UInt8) (start : Nat) : Nat → Option Nat
  | 0 => some 0
  | stop + 1 =>
    if start < stop + 1 then
      match bytes[stop]? with
      | none => none
      | some b => if isGapByte b then stripGap? bytes start stop else some (stop + 1)
    else some (stop + 1)

/-- Whether the byte opens a string or a bracket. -/
def isQuotedByte (b : UInt8) : Bool :=
  b == asciiByte '"' || b == asciiByte '\'' || b == asciiByte '[' || b == asciiByte '{'

/-- The first hash of a text that begins at `i`. -/
def hashAt? : Nat → List Char → Option Nat
  | _, [] => none
  | i, c :: rest => if c = '#' then some i else hashAt? (i + c.utf8Size) rest

/-- The offset of the comment behind a value. -/
def commentAt? (line : List Char) (valueStart : Nat) : Option (Option Nat) :=
  if (utf8 line)[valueStart]?.any isQuotedByte then
    (scanQuoted? (· == '#') line valueStart).map fun found => found.map (·.1)
  else (from? valueStart line).map (hashAt? valueStart)

/-- The value and the comment behind the equals sign at an offset. -/
def marksBehind? (line : List Char) (key : KeyPath) (equals : Nat) : Option Marks := do
  let valueStart := skipGap (utf8 line) (equals + 1)
  let commentStart? ← commentAt? line valueStart
  let valueEnd ← stripGap? (utf8 line) valueStart (commentStart?.getD (byteLength line))
  return { key, valueStart, valueEnd, commentStart? }

/-- Reads a line as an assignment. -/
def assignment? (line : List Char) : Option (Option Marks) := do
  match ← scanQuoted? (fun c => c == '=' || c == '#') line 0 with
  | some (equals, '=') =>
    match KeyPath.parse (trim (← upTo? equals line)) with
    | .ok key => return some (← marksBehind? line key equals)
    | .error _ => return none
  | _ => return none

/-- What a line is, taken on its own. -/
def classify? (line : List Char) : Option MarkedKind := do
  let trimmed := trimStart line
  if trimmed.isEmpty || startsIn (· == '#') trimmed then return .other
  if startsIn (· == '[') trimmed then
    return ((← header? trimmed).map .header).getD .other
  return ((← assignment? line).map .assignment).getD .other

/-! ## 4. Documents

What is open behind a line is kept by the offset where it ends, in the whole text, and not by how
much of it is left.
-/

/-- A value that the lines so far have left open. -/
inductive Continuation where
  | closed
  /-- A multi-line string that ends at this offset of the whole text. -/
  | stringUntil (stop : Nat)
  /-- A multi-line string that is never closed. -/
  | endless
  | brackets (depth : Int)
  deriving DecidableEq, Repr

/-- The brackets that are open once the balance is `depth`. -/
def Continuation.ofDepth (depth : Int) : Continuation :=
  if 0 < depth then .brackets depth else .closed

/-- A string that ends at `stop`, behind a line whose content ends at `lineEnd`. -/
def Continuation.past (stop lineEnd : Nat) : Continuation :=
  if stop ≤ lineEnd then .closed else .stringUntil stop

/-- A line of a document: where it begins and what it is in its place. -/
structure MarkedLine where
  offset : Nat
  line : Line
  kind : MarkedKind
  deriving DecidableEq, Repr

/-- What an assignment leaves open, on a line that begins at `offset` of the text. -/
def opened? (text : List Char) (offset : Nat) (line : Line) (m : Marks) : Option Continuation := do
  let value ← from? m.valueStart line.content
  if beginsWith ['"', '"', '"'] value || beginsWith ['\'', '\'', '\''] value then
    match tripleEnd? text (offset + m.valueStart) with
    | none => return .endless
    | some stop => return .past stop (offset + byteLength line.content)
  else if startsIn (fun c => c == '[' || c == '{') value then
    return .ofDepth (← bracketDelta? value 0 0)
  else return .closed

/-- What a line is in its place, and what is open behind it. -/
def step? (text : List Char) (offset : Nat) (line : Line) :
    Continuation → Option (MarkedKind × Continuation)
  | .stringUntil stop => some (.other, .past stop (offset + byteLength line.content))
  | .endless => some (.other, .endless)
  | .brackets depth => do
    let delta ← bracketDelta? line.content 0 0
    return (.other, .ofDepth (depth + delta))
  | .closed => do
    match ← classify? line.content with
    | .assignment m => return (.assignment m, ← opened? text offset line m)
    | kind => return (kind, .closed)

/-- Classifies lines; `offset` is where the first of them begins in the text. -/
def scanLines? (text : List Char) : Nat → Continuation → List Line → Option (List MarkedLine)
  | _, _, [] => some []
  | offset, state, line :: rest => do
    let (kind, next) ← step? text offset line state
    let later ← scanLines? text (offset + byteLength line.chars) next rest
    return ⟨offset, line, kind⟩ :: later

/-- The lines of a text and what each is in its place. -/
def scan? (text : List Char) : Option (List MarkedLine) :=
  scanLines? text 0 .closed (lines text)

/-- A line with a bare word as its value put in quotes. -/
def quoteLine? (l : MarkedLine) : Option (List Char) :=
  match l.kind with
  | .assignment m => do
    let value ← between? m.valueStart m.valueEnd l.line.content
    if isBareWord value then
      let lead ← upTo? m.valueStart l.line.content
      let behind ← from? m.valueEnd l.line.content
      return lead ++ quote (trim value) ++ behind ++ l.line.ending.chars
    else return l.line.chars
  | _ => some l.line.chars

/-- The lines one behind the other, their bare words put in quotes. -/
def quoteLines? : List MarkedLine → Option (List Char)
  | [] => some []
  | l :: rest => do
    let quoted ← quoteLine? l
    let later ← quoteLines? rest
    return quoted ++ later

/-- The text with every bare word put in quotes. -/
def normalize? (text : List Char) : Option (List Char) := do
  quoteLines? (← scan? text)

/-- The edit of the value of an assignment. -/
def locate? (text : List Char) (literal : List Char) (l : MarkedLine) (m : Marks) :
    Option (Option Edit) := do
  let start := l.offset + m.valueStart
  let value ← between? m.valueStart m.valueEnd l.line.content
  let stop? := if beginsWith ['"', '"', '"'] value || beginsWith ['\'', '\'', '\''] value
    then tripleEnd? text start else some (l.offset + m.valueEnd)
  match stop? with
  | none => return none
  | some stop => return some ⟨start, stop, literal, ← between? start stop text⟩

/-- Looks for the assignment that an instruction means; `inside` tells whether the section is
open. -/
def planIn? (text : List Char) (i : Instruction) : Bool → List MarkedLine → Option (Option Edit)
  | _, [] => some none
  | inside, l :: rest =>
    match l.kind with
    | .header h =>
      if inside then some none else planIn? text i (!h.array && h.path == i.target) rest
    | .assignment m =>
      if inside && m.key.isSingle i.key then locate? text i.literal l m
      else planIn? text i inside rest
    | .other => planIn? text i inside rest

/-- The edit that carries out an instruction. -/
def plan? (text : List Char) (i : Instruction) : Option (Option Edit) := do
  let scanned ← scan? text
  planIn? text i i.target.isRoot scanned

end TomlKeep.ByOffset
