/-
# Flat documents

A flat document consists of blank lines, comments, headers and assignments of scalars, with any
spelling of keys, any indentation, any spacing and any comments (`FlatLayout`).  It denotes a tree,
in which every assignment is a leaf (`FlatLayout.tree`).  What the readers of lines make of it:

* each line is a piece of the document (`FlatRow.reads`, `segmented_pieces`);
* an assignment is a leaf below the header that governs it (`mem_leaves`);
* the position that is found for a key in a section is that of its assignment
  (`targetIndex?_assignment`).
-/
import TomlKeep.Proofs.Cutting
import TomlKeep.Proofs.Spelling
import TomlKeep.Proofs.Targets
import TomlKeep.Proofs.Trees

namespace TomlKeep

open Text

/-! ## 1. Layouts

A layout keeps all that a person may write between keys and values, and nothing that has to be
parsed.  Its text and its tree are read off the layout by two functions, so that a statement about
saving can compare texts character by character and trees value by value.  Whether a layout is well
formed can be computed.
-/

/-- An assignment with everything around its key and its value. -/
structure FlatAssignment where
  indent : List Char
  spelling : KeySpelling
  before : List Char
  after : List Char
  value : Value
  gap : List Char
  comment : List Char

/-- A line of a flat document; a comment is empty or begins with `#`. -/
inductive FlatLine where
  | blank (gap : List Char)
  | remark (indent comment : List Char)
  | header (indent : List Char) (parts : List NamePart) (gap comment : List Char)
  | assignment (assignment : FlatAssignment)

/-- A line with its end. -/
structure FlatRow where
  line : FlatLine
  ending : LineEnd

/-- **A flat document:** the entries of the root table, and sections under headers. -/
abbrev FlatLayout := List FlatRow

/-- A comment, or nothing. -/
structure IsComment (comment : List Char) : Prop where
  head : ∀ c, comment.head? = some c → c = '#'
  feed : '\n' ∉ comment
  ret : '\r' ∉ comment

instance (comment : List Char) : Decidable (IsComment comment) :=
  decidable_of_iff (comment.head?.all (· == '#') = true ∧ '\n' ∉ comment ∧ '\r' ∉ comment) <| by
    have hhead : comment.head?.all (· == '#') = true ↔ ∀ c, comment.head? = some c → c = '#' := by
      cases comment <;> simp
    rw [hhead]
    exact ⟨fun h => ⟨h.1, h.2.1, h.2.2⟩, fun h => ⟨h.head, h.feed, h.ret⟩⟩

namespace FlatAssignment

/-- What stands before the value. -/
def lead (a : FlatAssignment) : List Char :=
  a.indent ++ (a.spelling.chars ++ a.before) ++ '=' :: a.after

/-- The value as it is written. -/
def literal (a : FlatAssignment) : List Char := a.value.literal?.getD []

/-- Whether the pieces can be written so. -/
structure Valid (a : FlatAssignment) : Prop where
  indent : IsGapText a.indent
  spelling : a.spelling.Valid
  before : IsGapText a.before
  after : IsGapText a.after
  value : a.value.isPlain = true
  gap : IsGapText a.gap
  comment : IsComment a.comment

instance (a : FlatAssignment) : Decidable a.Valid :=
  decidable_of_iff (IsGapText a.indent ∧ a.spelling.Valid ∧ IsGapText a.before ∧ IsGapText a.after
    ∧ a.value.isPlain = true ∧ IsGapText a.gap ∧ IsComment a.comment)
    ⟨fun h => ⟨h.1, h.2.1, h.2.2.1, h.2.2.2.1, h.2.2.2.2.1, h.2.2.2.2.2.1, h.2.2.2.2.2.2⟩,
      fun h => ⟨h.indent, h.spelling, h.before, h.after, h.value, h.gap, h.comment⟩⟩

end FlatAssignment

namespace FlatLine

/-- The text of the line. -/
def content : FlatLine → List Char
  | .blank gap => gap
  | .remark indent comment => indent ++ comment
  | .header indent parts gap comment =>
    indent ++ '[' :: (nameChars parts ++ ']' :: (gap ++ comment))
  | .assignment a => a.lead ++ a.literal ++ (a.gap ++ a.comment)

/-- Whether the line can be written so. -/
def Valid : FlatLine → Prop
  | .blank gap => IsGapText gap
  | .remark indent comment => IsGapText indent ∧ IsComment comment ∧ comment ≠ []
  | .header indent parts gap comment => IsGapText indent ∧ parts ≠ [] ∧ (∀ p ∈ parts, p.Valid)
    ∧ IsGapText gap ∧ IsComment comment
  | .assignment a => a.Valid

instance : (line : FlatLine) → Decidable line.Valid
  | .blank gap => inferInstanceAs (Decidable (IsGapText gap))
  | .remark indent comment =>
    inferInstanceAs (Decidable (IsGapText indent ∧ IsComment comment ∧ comment ≠ []))
  | .header indent parts gap comment => inferInstanceAs (Decidable (IsGapText indent ∧ parts ≠ []
    ∧ (∀ p ∈ parts, p.Valid) ∧ IsGapText gap ∧ IsComment comment))
  | .assignment a => inferInstanceAs (Decidable a.Valid)

end FlatLine

/-- The line with the value that another tree has for it; `current` is the section. -/
def FlatRow.revise (tree : Value) (current : List String) (row : FlatRow) : FlatRow :=
  match row.line with
  | .assignment a =>
    ⟨.assignment { a with value := (tree.at? (current ++ [a.spelling.key])).getD a.value },
      row.ending⟩
  | _ => row

/-- The path that the parts of a header name. -/
def pathOf (parts : List NamePart) : List String := parts.map fun p => p.spelling.key

/-- A value with its key and the section that it stands in. -/
structure Leaf where
  place : List String
  key : String
  value : Value

/-- The path of a value from the root. -/
def Leaf.path (leaf : Leaf) : List String := leaf.place ++ [leaf.key]

namespace FlatLayout

/-- The text of the document. -/
def text (d : FlatLayout) : List Char :=
  d.flatMap fun row => row.line.content ++ row.ending.chars

/-- The tree under construction when the lines that are left are read; `current` is the section. -/
def build (current : List String) (table : Table) : FlatLayout → Table
  | [] => table
  | ⟨.header _ parts _ _, _⟩ :: rest => build (pathOf parts) (updateAt id (pathOf parts) table) rest
  | ⟨.assignment a, _⟩ :: rest =>
    build current (updateAt (Keyed.insert a.spelling.key a.value) current table) rest
  | _ :: rest => build current table rest

/-- **The tree that the document denotes.** -/
def tree (d : FlatLayout) : Value := .table (build [] [] d)

/-- The paths of the headers. -/
def headers : FlatLayout → List (List String)
  | [] => []
  | ⟨.header _ parts _ _, _⟩ :: rest => pathOf parts :: headers rest
  | _ :: rest => headers rest

/-- The assignments below a section. -/
def leaves (current : List String) : FlatLayout → List Leaf
  | [] => []
  | ⟨.header _ parts _ _, _⟩ :: rest => leaves (pathOf parts) rest
  | ⟨.assignment a, _⟩ :: rest => ⟨current, a.spelling.key, a.value⟩ :: leaves current rest
  | _ :: rest => leaves current rest

/-- **A well-formed layout.**  Only the last line may lack an end, no section has two headers, no
key is assigned twice in one section, and no key has the name of a section. -/
structure WellFormed (d : FlatLayout) : Prop where
  valid : ∀ row ∈ d, row.line.Valid
  ended : ∀ row ∈ d.dropLast, row.ending ≠ .none
  sections : (headers d).Nodup
  keys : ((leaves [] d).map Leaf.path).Nodup
  clash : ∀ leaf ∈ leaves [] d, ∀ path ∈ headers d, ¬ leaf.path <+: path

/-- The layout with the values of another tree. -/
def revise (tree : Value) (current : List String) : FlatLayout → FlatLayout
  | [] => []
  | ⟨.header indent parts gap comment, ending⟩ :: rest =>
    ⟨.header indent parts gap comment, ending⟩ :: revise tree (pathOf parts) rest
  | row :: rest => row.revise tree current :: revise tree current rest

instance (d : FlatLayout) : Decidable d.WellFormed :=
  decidable_of_iff ((∀ row ∈ d, row.line.Valid) ∧ (∀ row ∈ d.dropLast, row.ending ≠ .none)
    ∧ (headers d).Nodup ∧ ((leaves [] d).map Leaf.path).Nodup
    ∧ ∀ leaf ∈ leaves [] d, ∀ path ∈ headers d, ¬ leaf.path <+: path)
    ⟨fun h => ⟨h.1, h.2.1, h.2.2.1, h.2.2.2.1, h.2.2.2.2⟩,
      fun h => ⟨h.valid, h.ended, h.sections, h.keys, h.clash⟩⟩

/-- Whether every assignment has the literal that its value has in another tree. -/
def agrees (d : FlatLayout) (tree : Value) : Bool :=
  (leaves [] d).all fun leaf => (tree.at? leaf.path).bind Value.literal? == leaf.value.literal?

end FlatLayout

/-! ## 2. The pieces of a flat document

Every line is one piece.  An assignment is an entry in which any literal may stand; a blank line, a
comment or a header is fixed text; and an empty last line without an end is no line at all, but the
empty piece does no harm.
-/

/-- The piece that a line makes. -/
def FlatRow.piece (row : FlatRow) : Piece :=
  match row.line with
  | .assignment a =>
    .entry ⟨⟨[a.spelling.key]⟩, a.lead, a.literal, a.gap ++ a.comment ++ row.ending.chars⟩
  | line => .fixed (line.content ++ row.ending.chars)

/-- The pieces make up the text. -/
theorem textOf_pieces (d : FlatLayout) : textOf (d.map FlatRow.piece) = d.text := by
  induction d with
  | nil => rfl
  | cons row rest ih =>
    obtain ⟨line, ending⟩ := row
    rw [List.map_cons, textOf_cons, ih]
    cases line <;> simp [FlatLayout.text, FlatRow.piece, Piece.text, Entry.text, FlatLine.content]

/-- A gap has no line feed and no carriage return. -/
theorem IsGapText.not_return {gap : List Char} (h : IsGapText gap) : '\n' ∉ gap ∧ '\r' ∉ gap :=
  ⟨h.not_mem (by decide), h.not_mem (by decide)⟩

/-- A gap and a comment may stand behind a value. -/
theorem IsComment.isTail {gap comment : List Char} (hg : IsGapText gap) (hc : IsComment comment) :
    IsTail gap comment := ⟨hg, hc.head⟩

/-- An assignment of a flat document is a place for a literal. -/
theorem FlatAssignment.Valid.fits {a : FlatAssignment} (h : a.Valid) (value : List Char)
    (ending : LineEnd) :
    (Entry.mk ⟨[a.spelling.key]⟩ a.lead value (a.gap ++ a.comment ++ ending.chars)).Fits := by
  obtain ⟨hi1, hi2⟩ := h.indent.not_return
  obtain ⟨hb1, hb2⟩ := h.before.not_return
  obtain ⟨ha1, ha2⟩ := h.after.not_return
  obtain ⟨hg1, hg2⟩ := h.gap.not_return
  refine ⟨a.gap, a.comment, ending, rfl, h.spelling.isLead h.indent h.before h.after,
    h.comment.isTail h.gap, ?_, fun _ hr => ?_⟩
  · have hs := h.spelling.not_feed
    have hc := h.comment.feed
    simp [FlatAssignment.lead, hi1, hb1, ha1, hg1, hs, hc]
  · have := List.mem_of_mem_getLast? hr
    simp [hg2, h.comment.ret] at this

/-- The value of an assignment is written as a literal. -/
theorem FlatAssignment.Valid.isLiteral {a : FlatAssignment} (h : a.Valid) :
    IsLiteral a.literal := by
  obtain ⟨literal, hl⟩ := literal?_of_isPlain h.value
  rw [FlatAssignment.literal, hl]
  exact isLiteral_of_literal? h.value hl

/-- What the search for a target sees of a line. -/
def FlatLine.head : FlatLine → Head
  | .header _ parts _ _ => .header ⟨⟨pathOf parts⟩, false⟩
  | .assignment a => .key ⟨[a.spelling.key]⟩
  | _ => .other

/-- The name of a section stays on its line. -/
theorem not_feed_nameChars : ∀ {parts : List NamePart}, (∀ p ∈ parts, p.Valid) →
    '\n' ∉ nameChars parts
  | [], _ => by simp [nameChars]
  | [p], hv => by
    obtain ⟨hb, hk, ha⟩ := hv p (by simp)
    simp [nameChars, NamePart.chars, hb.not_return.1, hk.not_feed, ha.not_return.1]
  | p :: q :: rest, hv => by
    obtain ⟨hb, hk, ha⟩ := hv p (by simp)
    have ih : '\n' ∉ nameChars (q :: rest) :=
      not_feed_nameChars fun r hr => hv r (by simp [List.mem_cons.mp hr])
    simp [nameChars, NamePart.chars, hb.not_return.1, hk.not_feed, ha.not_return.1, ih]

/-- A line that is no assignment holds no line end, and it is what it looks like. -/
theorem FlatLine.Valid.classify {line : FlatLine} (h : line.Valid)
    (hn : ∀ a, line ≠ .assignment a) : (classify line.content).head = line.head
      ∧ (∀ a, classify line.content ≠ .assignment a) ∧ '\n' ∉ line.content
      ∧ line.content.getLast? ≠ some '\r' := by
  -- each kind of line is classified by its first character that is no blank
  cases line with
  | blank gap =>
    obtain ⟨h1, h2⟩ := IsGapText.not_return h
    have ht : trimStart gap = [] := by
      have := trimStart_gap h (fun c (hc : ([] : List Char).head? = some c) => by simp at hc)
      simpa using this
    refine ⟨?_, ?_, h1, fun hr => h2 (List.mem_of_mem_getLast? hr)⟩
    · simp [TomlKeep.classify, FlatLine.content, ht, LineKind.head, FlatLine.head]
    · simp [TomlKeep.classify, FlatLine.content, ht]
  | remark indent comment =>
    obtain ⟨hi, hc, hne⟩ := h
    obtain ⟨h1, h2⟩ := hi.not_return
    obtain ⟨c, rest, rfl⟩ := List.exists_cons_of_ne_nil hne
    obtain rfl := hc.head c rfl
    have ht : trimStart (indent ++ '#' :: rest) = '#' :: rest :=
      trimStart_gap hi (by
        simp only [List.head?_cons, Option.some.injEq, forall_eq']
        decide)
    refine ⟨?_, ?_, by simp [FlatLine.content, h1, hc.feed], fun hr => ?_⟩
    · simp [TomlKeep.classify, FlatLine.content, ht, startsIn, LineKind.head, FlatLine.head]
    · simp [TomlKeep.classify, FlatLine.content, ht, startsIn]
    · have := List.mem_of_mem_getLast? hr
      simp only [FlatLine.content, List.mem_append] at this
      exact this.elim h2 hc.ret
  | header indent parts gap comment =>
    obtain ⟨hi, hp, hv, hg, hc⟩ := h
    have hk := classify_header hp hv hi (hc.isTail hg)
    refine ⟨?_, ?_, ?_, ?_⟩
    · rw [FlatLine.content, hk]
      rfl
    · rw [FlatLine.content, hk]
      simp
    · simp [FlatLine.content, hi.not_return.1, not_feed_nameChars hv, hg.not_return.1, hc.feed]
    · intro hr
      have hlast : (']' :: (gap ++ comment)).getLast? = some '\r' := by
        rw [FlatLine.content, ← List.cons_append, ← List.append_assoc,
          List.getLast?_append_of_ne_nil _ (by simp)] at hr
        exact hr
      have := List.mem_of_mem_getLast? hlast
      simp [hg.not_return.2, hc.ret] at this
  | assignment a => exact absurd rfl (hn a)

/-- Nothing at all is read on its own. -/
theorem reads_nothing (behind : List Char) : (Piece.fixed []).Reads behind := by
  refine ⟨fun offset => ?_, fun line ls a hl _ => ?_⟩
  · simp [lines, together]
  · simp [lines] at hl

/-- **Each line is a piece of the document.** -/
theorem FlatRow.reads {row : FlatRow} (h : row.line.Valid) (behind : List Char) :
    row.piece.Reads behind ∧ row.piece.head = row.line.head := by
  obtain ⟨line, ending⟩ := row
  by_cases ha : ∃ a, line = .assignment a
  · obtain ⟨a, rfl⟩ := ha
    have hr := (FlatAssignment.Valid.fits h a.literal ending).reads
      (FlatAssignment.Valid.isLiteral h).oneLine behind
    exact ⟨hr, hr.head⟩
  · have hn : ∀ a, line ≠ .assignment a := fun a he => ha ⟨a, he⟩
    obtain ⟨hhead, hk, hfeed, hret⟩ := FlatLine.Valid.classify h hn
    have hpiece : FlatRow.piece ⟨line, ending⟩ = .fixed (line.content ++ ending.chars) := by
      cases line <;> first | rfl | exact absurd rfl (hn _)
    rw [hpiece]
    -- an empty line without an end is the empty text, which is cut into no line
    by_cases hempty : ending = .none ∧ line.content = []
    · rw [hempty.1, hempty.2]
      refine ⟨reads_nothing behind, ?_⟩
      rw [← hhead, hempty.2]
      rfl
    · have hp : (Line.mk line.content ending).Proper :=
        ⟨hfeed, fun _ => hret, fun he hc => hempty ⟨he, hc⟩⟩
      refine ⟨reads_other hp hk behind, ?_⟩
      have hl : lines (line.content ++ ending.chars) = [⟨line.content, ending⟩] := lines_line hp
      simp only [Piece.head, Piece.text, hl]
      exact hhead

/-- **A flat document is in pieces.** -/
theorem segmented_pieces : ∀ {d : FlatLayout}, (∀ row ∈ d, row.line.Valid) →
    (∀ row ∈ d.dropLast, row.ending ≠ .none) → Segmented (d.map FlatRow.piece)
  | [], _, _ => trivial
  | [row], hv, _ => ⟨fun behind _ => (FlatRow.reads (hv row (by simp)) behind).1, .inl rfl, trivial⟩
  | row :: next :: rest, hv, he => by
    have ih : Segmented ((next :: rest).map FlatRow.piece) :=
      segmented_pieces (fun r hr => hv r (by simp [List.mem_cons.mp hr]))
        fun r hr => he r (by simp [hr])
    refine ⟨fun behind _ => (FlatRow.reads (hv row (by simp)) behind).1, .inr ?_, ih⟩
    have hend : row.ending ≠ .none := he row (by simp)
    have hlast (text : List Char) : (text ++ row.ending.chars).getLast? = some '\n' :=
      (getLast?_ending text fun h => absurd h hend).resolve_right (List.cons_ne_nil 'x' [])
    obtain ⟨line, ending⟩ := row
    cases line <;> exact hlast _

/-- The heads of the pieces are told by the lines. -/
theorem heads_pieces {d : FlatLayout} (hv : ∀ row ∈ d, row.line.Valid) :
    (d.map FlatRow.piece).map Piece.head = d.map fun row => row.line.head := by
  rw [List.map_map]
  exact List.map_congr_left fun row hr => (FlatRow.reads (hv row hr) []).2

/-! ## 3. Positions of assignments

The leaves of a layout are listed with their sections, and the heads are a list in which the section
of a position has to be found.  Both walk down the lines in the same way, so a position that holds
an assignment is a leaf of the section that governs it.  That no key is assigned twice in one
section then makes the position unique.
-/

namespace FlatLayout

/-- The section that a header opens. -/
def sectionOf : Option Header → List String
  | none => []
  | some h => h.path.parts

/-- The assignment at a position. -/
def assignmentAt? (d : FlatLayout) (n : Nat) : Option FlatAssignment :=
  d[n]?.bind fun row =>
    match row.line with
    | .assignment a => some a
    | _ => none

/-- The heads of the lines. -/
def heads (d : FlatLayout) : List Head := d.map fun row => row.line.head

/-- **An assignment at a position is a leaf** of the section that governs the position. -/
theorem mem_leaves {s : List String} {k : String} {v : Value} :
    ∀ {d : FlatLayout} {above : Option Header},
      ⟨s, k, v⟩ ∈ leaves (sectionOf above) d ↔ ∃ n a, assignmentAt? d n = some a
        ∧ a.spelling.key = k ∧ a.value = v ∧ sectionOf (governing above (heads d) n) = s
  | [], _ => by simp [leaves, assignmentAt?]
  | ⟨line, ending⟩ :: rest, above => by
    -- behind a line that is no assignment the positions are one greater, and the section is that of
    -- the line if it is a header
    have shift (above' : Option Header)
        (hg : ∀ n, governing above (heads (⟨line, ending⟩ :: rest)) (n + 1)
          = governing above' (heads rest) n)
        (hz : ∀ a, line ≠ .assignment a) :
        (∃ n a, assignmentAt? (⟨line, ending⟩ :: rest) n = some a ∧ a.spelling.key = k
          ∧ a.value = v ∧ sectionOf (governing above (heads (⟨line, ending⟩ :: rest)) n) = s)
        ↔ ⟨s, k, v⟩ ∈ leaves (sectionOf above') rest := by
      rw [mem_leaves]
      constructor
      · rintro ⟨n, a, ha, hk, hv, hs⟩
        cases n with
        | zero => cases line <;> simp_all [assignmentAt?]
        | succ n => exact ⟨n, a, by simpa [assignmentAt?] using ha, hk, hv, by rw [← hg]; exact hs⟩
      · rintro ⟨n, a, ha, hk, hv, hs⟩
        exact ⟨n + 1, a, by simpa [assignmentAt?] using ha, hk, hv, by rw [hg]; exact hs⟩
    cases line with
    | blank gap => rw [shift above (fun n => rfl) (by simp)]; rfl
    | remark indent comment => rw [shift above (fun n => rfl) (by simp)]; rfl
    | header indent parts gap comment =>
      rw [shift (some ⟨⟨pathOf parts⟩, false⟩) (fun n => rfl) (by simp)]
      rfl
    | assignment a =>
      simp only [leaves, List.mem_cons, Leaf.mk.injEq]
      rw [mem_leaves]
      constructor
      -- the assignment of this line, or one of a later line
      · rintro (⟨rfl, rfl, rfl⟩ | ⟨n, b, hb, hk, hv, hs⟩)
        · exact ⟨0, a, rfl, rfl, rfl, rfl⟩
        · exact ⟨n + 1, b, by simpa [assignmentAt?] using hb, hk, hv, hs⟩
      · rintro ⟨n, b, hb, hk, hv, hs⟩
        cases n with
        | zero =>
          obtain rfl : a = b := by simpa [assignmentAt?] using hb
          exact .inl ⟨hs.symm, hk.symm, hv.symm⟩
        | succ n => exact .inr ⟨n, b, by simpa [assignmentAt?] using hb, hk, hv, hs⟩

/-- Two assignments of one key in one section are at one position. -/
theorem position_unique : ∀ {d : FlatLayout} {above : Option Header},
    ((leaves (sectionOf above) d).map Leaf.path).Nodup →
      ∀ {m n : Nat} {a b : FlatAssignment}, m < n → assignmentAt? d m = some a →
        assignmentAt? d n = some b → a.spelling.key = b.spelling.key →
          sectionOf (governing above (heads d) m) ≠ sectionOf (governing above (heads d) n)
  | [], _, _, _, _, _, _, _, ha, _, _ => by simp [assignmentAt?] at ha
  | _, _, _, _, 0, _, _, h, _, _, _ => absurd h (Nat.not_lt_zero _)
  | ⟨line, ending⟩ :: rest, above, hn, m, n + 1, a, b, hlt, ha, hb, hk => by
    have hb' : assignmentAt? rest n = some b := by simpa [assignmentAt?] using hb
    -- both assignments stand behind the first line
    have later (above' : Option Header)
        (hg : ∀ l, governing above (heads (⟨line, ending⟩ :: rest)) (l + 1)
          = governing above' (heads rest) l)
        (hn' : ((leaves (sectionOf above') rest).map Leaf.path).Nodup) (hz : 0 < m) :
        sectionOf (governing above (heads (⟨line, ending⟩ :: rest)) m)
          ≠ sectionOf (governing above (heads (⟨line, ending⟩ :: rest)) (n + 1)) := by
      obtain ⟨l, rfl⟩ : ∃ l, m = l + 1 := ⟨m - 1, by omega⟩
      have ha' : assignmentAt? rest l = some a := by simpa [assignmentAt?] using ha
      rw [hg, hg]
      exact position_unique hn' (by omega) ha' hb' hk
    have hpos (hz : ∀ c, line ≠ .assignment c) : 0 < m := by
      cases m with
      | zero => cases line <;> simp_all [assignmentAt?]
      | succ m => exact Nat.succ_pos m
    cases line with
    | blank gap => exact later above (fun l => rfl) hn (hpos (by simp))
    | remark indent comment => exact later above (fun l => rfl) hn (hpos (by simp))
    | header indent parts gap comment =>
      exact later (some ⟨⟨pathOf parts⟩, false⟩) (fun l => rfl) hn (hpos (by simp))
    | assignment c =>
      simp only [leaves, List.map_cons, List.nodup_cons] at hn
      rcases Nat.eq_zero_or_pos m with rfl | hz
      · obtain rfl : c = a := by simpa [assignmentAt?] using ha
        -- the first line has the one assignment; the other would be a second leaf at its path
        intro hs
        refine hn.1 (List.mem_map.mpr ⟨⟨sectionOf above, b.spelling.key, b.value⟩, ?_,
          by simp [Leaf.path, hk]⟩)
        exact mem_leaves.mpr ⟨n, b, hb', rfl, rfl, hs.symm⟩
      · exact later above (fun l => rfl) hn.2 hz

/-- A header at a position is among the headers. -/
theorem mem_headers {path : List String} : ∀ {d : FlatLayout} {n : Nat},
    (heads d)[n]? = some (.header ⟨⟨path⟩, false⟩) → path ∈ headers d
  | [], _, h => by simp [heads] at h
  | ⟨line, ending⟩ :: rest, 0, h => by
    cases line with
    | header indent parts gap comment =>
      obtain rfl : pathOf parts = path := by simpa [heads, FlatLine.head] using h
      exact List.mem_cons_self
    | blank | remark | assignment => simp [heads, FlatLine.head] at h
  | ⟨line, ending⟩ :: rest, n + 1, h => by
    have ih : path ∈ headers rest := mem_headers (n := n) (by simpa [heads] using h)
    cases line with
    | header indent parts gap comment => exact List.mem_cons_of_mem _ ih
    | blank | remark | assignment => exact ih

/-- Two headers at different positions open different sections. -/
theorem header_unique {p q : List String} : ∀ {d : FlatLayout} (m n : Nat), (headers d).Nodup →
    m < n → (heads d)[m]? = some (.header ⟨⟨p⟩, false⟩) →
      (heads d)[n]? = some (.header ⟨⟨q⟩, false⟩) → p ≠ q
  | [], _, _, _, _, h, _ => by simp [heads] at h
  | _, _, 0, _, h, _, _ => absurd h (Nat.not_lt_zero _)
  | ⟨line, ending⟩ :: rest, 0, n + 1, hd, _, hm, hn => by
    have hn' : (heads rest)[n]? = some (.header ⟨⟨q⟩, false⟩) := by simpa [heads] using hn
    cases line with
    | header indent parts gap comment =>
      obtain rfl : pathOf parts = p := by simpa [heads, FlatLine.head] using hm
      rintro rfl
      exact (List.nodup_cons.mp hd).1 (mem_headers hn')
    | blank | remark | assignment => simp [heads, FlatLine.head] at hm
  | ⟨line, ending⟩ :: rest, m + 1, n + 1, hd, hlt, hm, hn => by
    have hn' : (heads rest)[n]? = some (.header ⟨⟨q⟩, false⟩) := by simpa [heads] using hn
    have hm' : (heads rest)[m]? = some (.header ⟨⟨p⟩, false⟩) := by simpa [heads] using hm
    have hd' : (headers rest).Nodup := by
      cases line with
      | header indent parts gap comment => exact (List.nodup_cons.mp hd).2
      | blank | remark | assignment => exact hd
    exact header_unique m n hd' (Nat.lt_of_succ_lt_succ hlt) hm' hn'

/-- Every header of a flat document is that of a section that is not the root. -/
theorem header_spec {d : FlatLayout} (hv : ∀ row ∈ d, row.line.Valid) {n : Nat} {h : Header}
    (hn : (heads d)[n]? = some (.header h)) : ∃ path, path ≠ [] ∧ h = ⟨⟨path⟩, false⟩ := by
  obtain ⟨row, hr, hhead⟩ := List.getElem?_map .. ▸ hn |> Option.map_eq_some_iff.mp
  have hvalid := hv row (List.mem_of_getElem? hr)
  cases hl : row.line with
  | header indent parts gap comment =>
    rw [hl] at hhead hvalid
    refine ⟨pathOf parts, ?_, by simpa [FlatLine.head] using hhead.symm⟩
    simp [pathOf, hvalid.2.1]
  | blank | remark | assignment =>
    rw [hl] at hhead
    simp [FlatLine.head] at hhead

/-- **An assignment answers for its section and its key,** and for nothing else. -/
theorem answers_iff {d : FlatLayout} (hv : ∀ row ∈ d, row.line.Valid) {s : List String} {k : String}
    {n : Nat} : Answers ⟨s⟩ k (heads d) n ↔ ∃ a, assignmentAt? d n = some a ∧ a.spelling.key = k
      ∧ sectionOf (governing none (heads d) n) = s := by
  -- the section that is open is told by the header that governs, none of which is that of an array
  have hsection : opensSection ⟨s⟩ (governing none (heads d) n) = true
      ↔ sectionOf (governing none (heads d) n) = s := by
    cases hg : governing none (heads d) n with
    | none => exact List.isEmpty_iff.trans eq_comm
    | some h =>
      obtain ⟨m, -, hm, -⟩ := header_of_governing hg
      obtain ⟨path, hne, rfl⟩ := header_spec hv hm
      simp only [opensSection, SectionPath.isRoot, sectionOf, Bool.and_eq_true, Bool.not_eq_true',
        beq_iff_eq, SectionPath.mk.injEq, List.isEmpty_eq_false_iff]
      constructor
      · rintro ⟨-, h⟩
        exact h
      · rintro rfl
        exact ⟨⟨hne, trivial⟩, rfl⟩
  rw [Answers, hsection]
  constructor
  · rintro ⟨hs, path, hp, hk⟩
    obtain ⟨row, hr, hhead⟩ := List.getElem?_map .. ▸ hp |> Option.map_eq_some_iff.mp
    cases hl : row.line with
    | assignment a =>
      rw [hl] at hhead
      obtain rfl : (⟨[a.spelling.key]⟩ : KeyPath) = path := by simpa [FlatLine.head] using hhead
      exact ⟨a, by simp [assignmentAt?, hr, hl], by simpa [KeyPath.isSingle] using hk, hs⟩
    | blank | remark | header =>
      rw [hl] at hhead
      simp [FlatLine.head] at hhead
  · rintro ⟨a, ha, rfl, hs⟩
    obtain ⟨row, hr, hrow⟩ := Option.bind_eq_some_iff.mp ha
    cases hl : row.line with
    | assignment b =>
      rw [hl] at hrow
      obtain rfl : b = a := by simpa using hrow
      exact ⟨hs, ⟨[b.spelling.key]⟩, by simp [heads, hr, hl, FlatLine.head],
        by simp [KeyPath.isSingle]⟩
    | blank | remark | header =>
      rw [hl] at hrow
      simp at hrow

/-- **The position that is found for a target is that of its assignment.**  It is the only
position that answers, and the header of its section is the only one that opens it. -/
theorem targetIndex?_assignment {d : FlatLayout} (h : d.WellFormed) {n : Nat} {a : FlatAssignment}
    (ha : assignmentAt? d n = some a) {i : Instruction} (hk : i.key = a.spelling.key)
    (hs : i.target.parts = sectionOf (governing none (heads d) n)) :
    targetIndex? i (heads d) = some n := by
  have hanswer : Answers i.target i.key (heads d) n :=
    (answers_iff h.valid).mpr ⟨a, ha, hk.symm, hs.symm⟩
  refine targetIndex?_eq_some hanswer (fun m hm hother => ?_) fun l m x y hlt hl hm hx => ?_
  -- no earlier position answers, as no key is assigned twice
  · obtain ⟨b, hb, hbk, hbs⟩ := (answers_iff h.valid).mp hother
    have hkeys : ((leaves (sectionOf none) d).map Leaf.path).Nodup := h.keys
    exact position_unique hkeys hm hb ha (hbk.trans hk) (hbs.trans hs)
  -- no second header opens the section, as no section has two headers
  · cases x with
    | header x =>
      cases y with
      | header y =>
        obtain ⟨p, -, rfl⟩ := header_spec h.valid hl
        obtain ⟨q, -, rfl⟩ := header_spec h.valid hm
        have hpq := header_unique l m h.sections hlt hl hm
        have hp : p = i.target.parts := by
          simp only [Head.opens, Bool.not_false, Bool.true_and, beq_iff_eq] at hx
          rw [← hx]
        rw [Bool.eq_false_iff]
        intro hy
        simp only [Head.opens, Bool.not_false, Bool.true_and, beq_iff_eq] at hy
        exact hpq (hp.trans (by rw [← hy]))
      | key | other => rfl
    | key | other => simp [Head.opens] at hx

end FlatLayout

end TomlKeep
