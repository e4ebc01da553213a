/-
# Documents in pieces

The lines of a document fall into pieces.  A piece is a line with the lines that continue its
value, and a piece that begins with an assignment is cut once more: into what stands before the
value, the value, and what stands behind it (`Entry`).

A piece is read on its own: whatever follows, its first line is what it is, its other lines
continue the value, and the scan goes on behind it with nothing pending (`Piece.Reads`).  So the
scan of a document in pieces is the list of their own reports (`scanLines_textOf`).
-/
import TomlKeep.Proofs.Lines
import TomlKeep.Proofs.Literals
import TomlKeep.Proofs.Multiline
import TomlKeep.Patch

namespace TomlKeep

open Text

/-! ## 1. Lines that belong together

The scan goes from line to line with what is pending.  Lines that leave nothing pending can be cut
off: they are reported as they would be on their own, and the rest of the text is scanned as if it
began there.
-/

/-- The report of lines that continue a value. -/
def continued : Nat → List Line → List ScannedLine
  | _, [] => []
  | offset, line :: rest =>
    ⟨offset, line, .other⟩ :: continued (offset + byteLength line.chars) rest

/-- The report of lines that belong together: the first is what it is, the others continue it. -/
def together : Nat → List Line → List ScannedLine
  | _, [] => []
  | offset, line :: rest =>
    ⟨offset, line, classify line.content⟩ :: continued (offset + byteLength line.chars) rest

/-- **Lines that are read on their own** in front of a text: behind them nothing is pending. -/
def StandBefore (text behind : List Char) : Prop :=
  ∀ offset, scanLines offset .closed (lines text ++ lines behind)
    = together offset (lines text) ++ scanLines (offset + byteLength text) .closed (lines behind)

/-! ## 2. Pieces

A piece is more than its text.  An entry has to be read as the entry that it is, in front of
whatever follows, and it has to be known whether a literal may be written in place of its value.
Both are kept in one predicate, so that every document in pieces can be patched without being
scanned again.
-/

/-- An assignment with the lines that continue its value, cut at the value. -/
structure Entry where
  key : KeyPath
  lead : List Char
  value : List Char
  rest : List Char

/-- A part of a document; `fixed` text has no value that could be replaced. -/
inductive Piece where
  | fixed (text : List Char)
  | entry (entry : Entry)

/-- The text of an entry. -/
def Entry.text (e : Entry) : List Char := e.lead ++ e.value ++ e.rest

/-- The text of a piece. -/
def Piece.text : Piece → List Char
  | .fixed text => text
  | .entry e => e.text

/-- The text of a document in pieces. -/
def textOf (ps : List Piece) : List Char := ps.flatMap Piece.text

/-- Whether more lines may follow the piece. -/
def Piece.Followed : Piece → Prop
  | .fixed text => text.getLast? = some '\n'
  | .entry e => e.rest.getLast? = some '\n'

/-- Whether a value can be replaced without moving a line end: it is no array and no inline table,
and behind a multi-line string stands only a gap or a comment. -/
def isInline (value behind : List Char) : Bool :=
  !startsIn (fun c => c == '[' || c == '{') value
    && ((tripleQuote? value).isNone
      || match lines behind with
        | [] => true
        | line :: _ =>
          let rest := line.content.dropWhile isGap
          rest.isEmpty || startsIn (· == '#') rest)

/-- **A place for a literal.**  The rest of the entry is the rest of its line: a gap, a comment and
the line end. -/
def Entry.Fits (e : Entry) : Prop :=
  ∃ gap comment ending, e.rest = gap ++ comment ++ LineEnd.chars ending ∧ IsLead e.key e.lead
    ∧ IsTail gap comment ∧ '\n' ∉ e.lead ++ (gap ++ comment)
    ∧ (ending = .lf → (gap ++ comment).getLast? ≠ some '\r')

/-- **An entry that is read on its own.**  Its first line is an assignment of its key, and the value
that is found behind the lead is its value. -/
structure Entry.Reads (e : Entry) (behind : List Char) : Prop where
  stands : StandBefore e.text behind
  opens : ∃ line ls a, lines e.text = line :: ls ∧ classify line.content = .assignment a
    ∧ a.key = e.key ∧ a.lead = e.lead
    ∧ wholeValue? (e.text ++ behind) a.valueStart a = some e.value
  fits : isInline e.value (e.rest ++ behind) = true → e.Fits

/-- **A piece that is read on its own.**  In fixed text no value is found. -/
def Piece.Reads : Piece → List Char → Prop
  | .fixed text, behind => StandBefore text behind
    ∧ ∀ line ls a, lines text = line :: ls → classify line.content = .assignment a →
      wholeValue? (text ++ behind) a.valueStart a = none
  | .entry e, behind => e.Reads behind

/-- **A document in pieces.**  Each piece is read on its own whatever follows, unless it is the
last one, which only the end of the document need follow.  That it is read on its own is asked
with every text behind it, and not only with the pieces that follow here: so the values of later
pieces may be changed. -/
def Segmented : List Piece → Prop
  | [] => True
  | p :: ps => (∀ behind, (ps = [] → behind = []) → p.Reads behind) ∧ (ps = [] ∨ p.Followed)
    ∧ Segmented ps

@[simp] theorem textOf_nil : textOf [] = [] := rfl

@[simp] theorem textOf_cons (p : Piece) (ps : List Piece) :
    textOf (p :: ps) = p.text ++ textOf ps := rfl

@[simp] theorem textOf_append (ps qs : List Piece) :
    textOf (ps ++ qs) = textOf ps ++ textOf qs := by
  simp [textOf]

/-- A piece that may be followed ends in a line feed. -/
theorem Piece.Followed.text {p : Piece} (h : p.Followed) : p.text.getLast? = some '\n' := by
  cases p with
  | fixed text => exact h
  | entry e =>
    simp only [Piece.Followed] at h
    simp [Piece.text, Entry.text, List.getLast?_append, h]

/-- The lines of a piece leave nothing pending. -/
theorem Piece.Reads.stands {p : Piece} {behind : List Char} (h : p.Reads behind) :
    StandBefore p.text behind := by
  cases p with
  | fixed text => exact h.1
  | entry e => exact Entry.Reads.stands h

/-- What follows a piece: text that may follow it, and nothing behind the last piece. -/
theorem Segmented.lines_cons {p : Piece} {ps : List Piece} (h : Segmented (p :: ps)) :
    lines (textOf (p :: ps)) = lines p.text ++ lines (textOf ps) := by
  rw [textOf_cons]
  refine lines_append ?_
  rcases h.2.1 with rfl | hf
  · exact .inr rfl
  · exact .inl hf.text

/-- The first piece is read in front of the others. -/
theorem Segmented.reads {p : Piece} {ps : List Piece} (h : Segmented (p :: ps)) :
    p.Reads (textOf ps) :=
  h.1 _ fun hn => by simp [hn]

/-! ## 3. The scan of a document in pieces

With the pieces given, the scan has nothing to decide any more: it is the list of what each piece
reports, and what is pending has vanished from the statement.
-/

/-- The reports of the pieces, one after the other. -/
def reportAll : Nat → List Piece → List ScannedLine
  | _, [] => []
  | offset, p :: ps =>
    together offset (lines p.text) ++ reportAll (offset + byteLength p.text) ps

/-- **The scan of a document is the list of the reports of its pieces.**  The first piece stands
before the text of the others, so it reports for itself and the scan begins anew behind it. -/
theorem scanLines_textOf : ∀ {ps : List Piece}, Segmented ps → ∀ offset,
    scanLines offset .closed (lines (textOf ps)) = reportAll offset ps
  | [], _, _ => rfl
  | p :: ps, h, offset => by
    rw [h.lines_cons, h.reads.stands, scanLines_textOf h.2.2, reportAll]

theorem scan_textOf {ps : List Piece} (h : Segmented ps) : scan (textOf ps) = reportAll 0 ps :=
  scanLines_textOf h 0

/-! ## 4. Heads

The search for a target looks at headers and keys and at nothing else of a line.  So it can be
carried out on the heads of the pieces, one head each, and its result is a position in the list of
pieces.  A change of values leaves the heads as they are, and with them every position.
-/

/-- What the search for a target sees of a piece. -/
inductive Head where
  | header (header : Header)
  | key (key : KeyPath)
  | other

/-- What the search for a target sees of a line. -/
def LineKind.head : LineKind → Head
  | .header h => .header h
  | .assignment a => .key a.key
  | .other => .other

/-- The head of a piece is that of its first line. -/
def Piece.head (p : Piece) : Head :=
  match lines p.text with
  | [] => .other
  | line :: _ => (classify line.content).head

/-- The assignment that a piece begins with. -/
def Piece.assignment? (p : Piece) : Option Assignment :=
  match lines p.text with
  | [] => none
  | line :: _ =>
    match classify line.content with
    | .assignment a => some a
    | _ => none

/-- The position of the first assignment of a key before the next header. -/
def keyIndex? (key : String) : List Head → Option Nat
  | [] => none
  | .header _ :: _ => none
  | .key path :: rest =>
    if path.isSingle key then some 0 else (keyIndex? key rest).map (· + 1)
  | .other :: rest => (keyIndex? key rest).map (· + 1)

/-- The position of the first assignment of a key behind the header of a section. -/
def sectionIndex? (target : SectionPath) (key : String) : List Head → Option Nat
  | [] => none
  | .header h :: rest =>
    if !h.array && h.path == target then (keyIndex? key rest).map (· + 1)
    else (sectionIndex? target key rest).map (· + 1)
  | _ :: rest => (sectionIndex? target key rest).map (· + 1)

/-- **The position of a target,** as far as the heads tell it. -/
def targetIndex? (i : Instruction) (heads : List Head) : Option Nat :=
  if i.target.isRoot then keyIndex? i.key heads else sectionIndex? i.target i.key heads

/-- The search for a key passes over lines that continue a value. -/
theorem findKey?_continued (key : String) : ∀ (offset : Nat) (ls : List Line)
    (rest : List ScannedLine), findKey? key (continued offset ls ++ rest) = findKey? key rest
  | _, [], _ => rfl
  | offset, line :: ls, rest => by
    simp only [continued, List.cons_append, findKey?]
    exact findKey?_continued key _ ls rest

/-- So does the search for a header. -/
theorem behindHeader_continued (target : SectionPath) : ∀ (offset : Nat) (ls : List Line)
    (rest : List ScannedLine),
    behindHeader target (continued offset ls ++ rest) = behindHeader target rest
  | _, [], _ => rfl
  | offset, line :: ls, rest => by
    simp only [continued, List.cons_append, behindHeader]
    exact behindHeader_continued target _ ls rest

/-- What is at a position: the assignment that the piece begins with, and where it begins. -/
def assignmentAt? (offset : Nat) (ps : List Piece) (n : Nat) : Option (Nat × Assignment) :=
  ps[n]?.bind fun p => p.assignment?.map fun a => (offset + byteLength (textOf (ps.take n)), a)

/-- A position behind the first piece is a position among the others, with the first piece in
front. -/
theorem assignmentAt?_succ (offset : Nat) (p : Piece) (ps : List Piece) (n : Nat) :
    assignmentAt? offset (p :: ps) (n + 1)
      = assignmentAt? (offset + byteLength p.text) ps n := by
  simp [assignmentAt?, Nat.add_assoc]

/-- The search for a key goes from head to head. -/
theorem findKey?_reportAll (key : String) : ∀ (offset : Nat) (ps : List Piece),
    findKey? key (reportAll offset ps)
      = (keyIndex? key (ps.map Piece.head)).bind (assignmentAt? offset ps)
  | _, [] => rfl
  | offset, p :: ps => by
    have ih := findKey?_reportAll key (offset + byteLength p.text) ps
    -- what is found among the later pieces is found one position further on
    have shift : ((keyIndex? key (ps.map Piece.head)).map (· + 1)).bind
        (assignmentAt? offset (p :: ps))
          = findKey? key (reportAll (offset + byteLength p.text) ps) := by
      rw [ih, Option.bind_map]
      congr 1
      funext n
      exact assignmentAt?_succ offset p ps n
    -- a piece reports its first line for what it is: a header ends the search, a key may be the
    -- one, and anything else is passed over with the lines that continue it
    cases hl : lines p.text with
    | nil => simp [reportAll, hl, together, keyIndex?, Piece.head, shift]
    | cons line ls =>
      cases hk : classify line.content with
      | header h =>
        simp [reportAll, hl, together, findKey?, hk, keyIndex?, Piece.head, LineKind.head]
      | other =>
        simp only [reportAll, hl, together, findKey?, hk, keyIndex?, Piece.head, LineKind.head,
          List.map_cons, List.cons_append, shift]
        exact findKey?_continued key _ ls _
      | assignment a =>
        simp only [reportAll, hl, together, findKey?, hk, keyIndex?, Piece.head, LineKind.head,
          List.map_cons, List.cons_append]
        split
        · simp [assignmentAt?, Piece.assignment?, hl, hk]
        · rw [shift]
          exact findKey?_continued key _ ls _

/-- The search for a section goes from head to head. -/
theorem findSection?_reportAll (target : SectionPath) (key : String) :
    ∀ (offset : Nat) (ps : List Piece),
    findKey? key (behindHeader target (reportAll offset ps))
      = (sectionIndex? target key (ps.map Piece.head)).bind (assignmentAt? offset ps)
  | _, [] => rfl
  | offset, p :: ps => by
    have ih := findSection?_reportAll target key (offset + byteLength p.text) ps
    have shift (position : Option Nat) :
        (position.map (· + 1)).bind (assignmentAt? offset (p :: ps))
          = position.bind (assignmentAt? (offset + byteLength p.text) ps) := by
      rw [Option.bind_map]
      congr 1
      funext n
      exact assignmentAt?_succ offset p ps n
    cases hl : lines p.text with
    | nil => simp [reportAll, hl, together, sectionIndex?, Piece.head, shift, ih]
    | cons line ls =>
      simp only [reportAll, hl, together, Piece.head, List.map_cons, List.cons_append, behindHeader]
      -- only a header is looked at; behind the one of the section the search for the key begins
      cases hk : classify line.content with
      | header h =>
        simp only [LineKind.head, sectionIndex?]
        split
        · rw [findKey?_continued, findKey?_reportAll, shift]
        · rw [behindHeader_continued, ih, shift]
      | other =>
        simp only [LineKind.head, sectionIndex?]
        rw [behindHeader_continued, ih, shift]
      | assignment a =>
        simp only [LineKind.head, sectionIndex?]
        rw [behindHeader_continued, ih, shift]

/-- **The target of an instruction is found by the heads.**  So two documents with the same heads
have their targets in the same pieces, whatever values they hold. -/
theorem findTarget?_textOf {ps : List Piece} (h : Segmented ps) (i : Instruction) :
    findTarget? i.target i.key (scan (textOf ps))
      = (targetIndex? i (ps.map Piece.head)).bind (assignmentAt? 0 ps) := by
  rw [scan_textOf h, findTarget?, targetIndex?]
  split
  · exact findKey?_reportAll _ _ _
  · exact findSection?_reportAll _ _ _ _

end TomlKeep
