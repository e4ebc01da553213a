/-
# Dotted paths

The name of a section and the key of an assignment have one grammar: segments with a dot between
them, blanks allowed around each segment.  A segment is bare (no dot, quote or blank), or stands
in single quotes (verbatim), or in double quotes (where a backslash hides the next character).

`segments` reads a path in one pass over the characters.  Its result is the list of segments
whose head is what is still missing of the segment that is being read, so that each step either
pushes one character onto the head (`pushHead`) or opens a new segment.
-/
import TomlKeep.Text.Blank

namespace TomlKeep

open Text

/-! ## 1. Reading segments -/

/-- Why a text is no dotted path. -/
inductive PathFault where
  | empty
  | emptySegment
  | trailingDot
  | quoteInside
  | blankInside
  | unterminated
  deriving DecidableEq, Repr

/-- Where in a dotted path the reader stands. -/
inductive PathPlace where
  /-- Before the first segment. -/
  | first
  /-- Behind a dot. -/
  | next
  /-- In a bare segment. -/
  | bare
  /-- Between single quotes. -/
  | single
  /-- Between double quotes. -/
  | double
  /-- Behind a segment that is complete. -/
  | behind
  deriving DecidableEq, Repr

/-- Puts a character in front of the first segment. -/
def pushHead (c : Char) : List (List Char) → List (List Char)
  | [] => [[c]]
  | segment :: segments => (c :: segment) :: segments

/-- The character that an escape stands for inside double quotes. -/
def unescapeKeyChar (c : Char) : Char :=
  if c = 'n' then '\n' else if c = 't' then '\t' else if c = 'r' then '\r' else c

/-- Reads the rest of a dotted path. -/
def segments : PathPlace → List Char → Except PathFault (List (List Char))
  | .first, [] => .error .empty
  | .next, [] => .error .trailingDot
  | .bare, [] => .ok [[]]
  | .behind, [] => .ok []
  | .single, [] => .error .unterminated
  | .double, [] => .error .unterminated
  | .single, c :: rest =>
    if c = '\'' then (segments .behind rest).map ([] :: ·)
    else (segments .single rest).map (pushHead c)
  | .double, '\\' :: c :: rest => (segments .double rest).map (pushHead (unescapeKeyChar c))
  | .double, c :: rest =>
    if c = '"' then (segments .behind rest).map ([] :: ·)
    else (segments .double rest).map (pushHead c)
  | .bare, c :: rest =>
    if c = '.' then (segments .next rest).map ([] :: ·)
    else if c = '"' ∨ c = '\'' then .error .quoteInside
    else if isBlank c then (segments .behind rest).map ([] :: ·)
    else (segments .bare rest).map (pushHead c)
  | .behind, c :: rest =>
    if c = '.' then segments .next rest
    else if c = '"' ∨ c = '\'' then .error .quoteInside
    else if isBlank c then segments .behind rest
    else .error .blankInside
  | place, c :: rest =>
    if c = '.' then .error .emptySegment
    else if c = '"' then segments .double rest
    else if c = '\'' then segments .single rest
    else if isBlank c then segments place rest
    else (segments .bare rest).map (pushHead c)

/-! ## 2. Section paths and key paths -/

/-- The address of a table; the empty path is the root table. -/
structure SectionPath where
  parts : List String
  deriving DecidableEq, Repr

/-- The left side of an assignment; a dotted key has more than one part. -/
structure KeyPath where
  parts : List String
  deriving DecidableEq, Repr

/-- A text that should name a section or a key and does not. -/
inductive PathError where
  | sectionPath (input : String) (fault : PathFault)
  | key (input : String) (fault : PathFault)
  deriving DecidableEq, Repr

/-- The wording of a fault; `what` is the kind of path that was expected. -/
def PathFault.message (what : String) : PathFault → String
  | .empty => "empty " ++ what ++ " path"
  | .emptySegment => "empty path segment"
  | .trailingDot => "trailing dot"
  | .quoteInside => "unexpected quote inside key"
  | .blankInside => "whitespace not allowed in key"
  | .unterminated => "unterminated quoted key"

/-- The wording of a path error. -/
def PathError.message : PathError → String
  | .sectionPath input fault =>
    "invalid section path '" ++ input ++ "': " ++ fault.message "section"
  | .key input fault => "invalid key '" ++ input ++ "': " ++ fault.message "key"

namespace SectionPath

/-- The root table. -/
def root : SectionPath := ⟨[]⟩

/-- The path that a header name such as `servers."alpha.beta"` stands for. -/
def parse (input : List Char) : Except PathError SectionPath :=
  match segments .first input with
  | .ok parts => .ok ⟨parts.map String.ofList⟩
  | .error fault => .error (.sectionPath (String.ofList input) fault)

/-- The path of a table inside this one. -/
def child (path : SectionPath) (key : String) : SectionPath :=
  ⟨path.parts ++ [key]⟩

/-- Whether this is the root table. -/
def isRoot (path : SectionPath) : Bool :=
  path.parts.isEmpty

/-- The parts with dots between them. -/
def dotted (path : SectionPath) : String :=
  ".".intercalate path.parts

/-- The path as it is shown to a reader. -/
def display (path : SectionPath) : String :=
  if path.isRoot then "<root>" else path.dotted

/-- The dotted form of a key inside this section. -/
def qualify (path : SectionPath) (key : String) : String :=
  if path.isRoot then key else path.dotted ++ "." ++ key

end SectionPath

namespace KeyPath

/-- The path that the left side of an assignment stands for. -/
def parse (input : List Char) : Except PathError KeyPath :=
  match segments .first input with
  | .ok parts => .ok ⟨parts.map String.ofList⟩
  | .error fault => .error (.key (String.ofList input) fault)

/-- Whether this is the plain key `key`. -/
def isSingle (path : KeyPath) (key : String) : Bool :=
  path.parts == [key]

/-- The parts with dots between them. -/
def dotted (path : KeyPath) : String :=
  ".".intercalate path.parts

end KeyPath

end TomlKeep
