/-
# The lines of a text and of its quoted form

The text that is parsed has its bare words in quotes, and the text that is patched has not.  Both
have the same lines: the two scans are related line by line (`Requoted`), for every text, whether
it is a document of TOML or not (`Segmented.requoted`).  So quoting a second time changes
nothing, and a target is found in one text exactly if it is found in the other, on the same line
(`scan_quoteBareWords`).

The offsets of the two scans differ, and so does the offset at which a multi-line string ends.
The relation is therefore shown piece by piece: in a piece with a bare word only the first line
changes, and that line leaves nothing open; a piece without one does not change at all.
-/
import TomlKeep.Proofs.BareWords
import TomlKeep.Proofs.Sequential

namespace TomlKeep

open Text

/-! ## 1. Quoting piece by piece

A bare word is the value of an entry on one line.  Quoting it is writing a literal in its place, so
all that is known of places for literals holds: the piece is read again, its head is the same, and
nothing behind it moves to another line.
-/

/-- The entry with its value in quotes, if that is a bare word. -/
def Entry.quoted (e : Entry) : Entry :=
  if isBareWord e.value then { e with value := quote (trim e.value) } else e

/-- The piece with its value in quotes, if that is a bare word. -/
def Piece.quoted : Piece → Piece
  | .fixed text => .fixed text
  | .entry e => .entry e.quoted

/-- A bare word opens neither a string nor a bracket. -/
theorem startsIn_isQuotedStart {value : List Char} (h : isBareWord value = true) :
    startsIn Assignment.isQuotedStart value = false := by
  rw [Bool.eq_false_iff]
  intro hq
  rw [isBareWord_of_isQuotedStart hq] at h
  cases h

/-- A multi-line string is no bare word. -/
theorem isBareWord_of_tripleQuote? {value : List Char} (h : (tripleQuote? value).isSome = true) :
    isBareWord value = false := by
  obtain ⟨quote, hq⟩ := Option.isSome_iff_exists.mp h
  obtain ⟨rest, rfl⟩ := exists_triple hq
  refine isBareWord_of_isQuotedStart ?_
  rcases tripleQuote?_cases hq with rfl | rfl <;> rfl

/-- **The place of a bare word is a place for a literal.** -/
theorem Entry.Reads.fits_of_isBareWord {e : Entry} {behind : List Char} (h : e.Reads behind)
    (hw : isBareWord e.value = true) : e.Fits := by
  refine h.fits ?_
  have hstart := startsIn_isQuotedStart hw
  -- a value that is neither in brackets nor between three quotes is on its line
  have hbracket : startsIn (fun c => c == '[' || c == '{') e.value = false := by
    cases hv : e.value with
    | nil => rfl
    | cons c rest =>
      rw [hv, startsIn, Assignment.isQuotedStart] at hstart
      simp only [Bool.or_eq_false_iff] at hstart
      rw [startsIn, hstart.1.2, hstart.2]
      rfl
  have htriple : tripleQuote? e.value = none := by
    rw [← Option.not_isSome_iff_eq_none]
    intro ht
    rw [isBareWord_of_tripleQuote? ht] at hw
    cases hw
  rw [isInline, hbracket, htriple]
  rfl

/-- The first line of an entry shows whether its value is a bare word. -/
theorem isBareWord_of_wholeValue? {text : List Char} {start : Nat} {a : Assignment}
    {value : List Char}
    (h : wholeValue? text start a = some value) : isBareWord a.value = isBareWord value
      ∧ (isBareWord value = true → a.value = value) := by
  unfold wholeValue? at h
  split at h
  · obtain rfl := Option.some.inj h
    exact ⟨rfl, fun _ => rfl⟩
  · next hq =>
    -- what begins with three quotes is no bare word, on the first line or on all of them
    have hfirst := isBareWord_of_tripleQuote? (Option.isSome_of_eq_some hq)
    have hwhole : isBareWord value = false := by
      split at h
      · cases h
      · obtain ⟨⟨_, behind⟩, hs, rfl⟩ := Option.map_eq_some_iff.mp h
        obtain ⟨-, quote, hquote, -, rest, hv⟩ := splitMultiline?_eq_some hs
        refine isBareWord_of_isQuotedStart ?_
        rw [hv]
        rcases tripleQuote?_cases hquote with rfl | rfl <;> rfl
    rw [hfirst, hwhole]
    exact ⟨rfl, by simp⟩

/-- A piece is read with its value in quotes. -/
theorem Piece.Reads.quoted {p : Piece} {behind : List Char} (h : p.Reads behind) :
    p.quoted.Reads behind ∧ p.quoted.head = p.head := by
  cases p with
  | fixed text => exact ⟨h, rfl⟩
  | entry e =>
    rw [Piece.quoted, Entry.quoted]
    cases hw : isBareWord e.value with
    | false => exact ⟨h, rfl⟩
    | true =>
      have hread : ({ e with value := quote (trim e.value) } : Entry).Reads behind :=
        (Entry.Reads.fits_of_isBareWord h hw).reads (IsLiteral.quoted _).oneLine behind
      rw [if_pos rfl]
      exact ⟨hread, by rw [hread.head, Entry.Reads.head h]⟩

/-- What may be followed may be followed with its value in quotes. -/
theorem Piece.Followed.quoted {p : Piece} (h : p.Followed) : p.quoted.Followed := by
  cases p with
  | fixed text => exact h
  | entry e =>
    rw [Piece.quoted, Entry.quoted]
    split <;> exact h

/-- **A document in pieces stays one** when its bare words are put in quotes.  No head changes,
so no target is found elsewhere. -/
theorem Segmented.quoted : ∀ {ps : List Piece}, Segmented ps → Segmented (ps.map Piece.quoted)
    ∧ (ps.map Piece.quoted).map Piece.head = ps.map Piece.head
  | [], _ => ⟨trivial, rfl⟩
  | p :: ps, h => by
    obtain ⟨hseg, hheads⟩ := Segmented.quoted h.2.2
    refine ⟨⟨?_, ?_, hseg⟩, ?_⟩
    · intro behind hb
      exact (h.1 behind (by simpa using hb)).quoted.1
    · exact h.2.1.imp (by simp) Piece.Followed.quoted
    · rw [List.map_cons, List.map_cons, List.map_cons, hheads, h.reads.quoted.2]

/-- A quoted value is no bare word. -/
theorem isBareWord_quote (text : List Char) : isBareWord (quote text) = false :=
  isBareWord_of_isQuotedStart rfl

/-- A piece is quoted once. -/
theorem Piece.quoted_quoted (p : Piece) : p.quoted.quoted = p.quoted := by
  cases p with
  | fixed text => rfl
  | entry e =>
    simp only [Piece.quoted, Entry.quoted]
    cases hw : isBareWord e.value <;> simp [hw, isBareWord_quote]

/-! ## 2. Quoting line by line

The relation between two lines says nothing of where they stand, because quoting makes a line longer
and moves all offsets behind.  It is proved for the lines of one piece, at any two offsets, and then
for all pieces one after the other.
-/

/-- The assignment with its value in quotes. -/
def Assignment.quoted (a : Assignment) : Assignment :=
  { a with value := quote (trim a.value) }

/-- **A line and what quoting makes of it,** wherever the two stand.  An assignment of a bare
word keeps its key, its lead, its gap, its comment and its line ending; every other line is kept
as it is. -/
inductive Requoted : ScannedLine → ScannedLine → Prop where
  | kept {here there : Nat} {line : Line} {kind : LineKind}
      (h : ∀ a, kind = .assignment a → isBareWord a.value = false) :
      Requoted ⟨here, line, kind⟩ ⟨there, line, kind⟩
  | quoted {here there : Nat} {ending : LineEnd} {a : Assignment} (h : isBareWord a.value = true) :
      Requoted ⟨here, ⟨a.chars, ending⟩, .assignment a⟩
        ⟨there, ⟨a.quoted.chars, ending⟩, .assignment a.quoted⟩

/-- The line ending is kept. -/
theorem Requoted.ending {s t : ScannedLine} (h : Requoted s t) : t.line.ending = s.line.ending := by
  cases h <;> rfl

/-- Quoting a line writes what it is related to. -/
theorem Requoted.quoteLine {s t : ScannedLine} (h : Requoted s t) : quoteLine s = t.line.chars := by
  cases h with
  | kept h =>
    rename_i here there line kind
    -- a line that is kept is written as it is
    cases kind with
    | assignment a => simp [TomlKeep.quoteLine, h a rfl, Line.chars]
    | header _ | other => rfl
  | quoted h => simp [TomlKeep.quoteLine, h, Line.chars, Assignment.chars, Assignment.quoted]

/-- **The quoted line is an assignment,** of the same key at the same place. -/
theorem classify_quoted {line : List Char} {a : Assignment} (h : classify line = .assignment a) :
    classify a.quoted.chars = .assignment a.quoted := by
  obtain ⟨hform, -⟩ := classify_eq_assignment_iff.mp h
  exact classify_eq_assignment_iff.mpr ⟨(IsLiteral.quoted _).oneLine.formed hform.lead hform.tail,
    rfl⟩

/-- The quoted line is a line of a text, as the line is. -/
theorem proper_quoted {line : Line} {a : Assignment} (hp : line.Proper)
    (hk : classify line.content = .assignment a) : (Line.mk a.quoted.chars line.ending).Proper := by
  obtain ⟨hform, hchars⟩ := classify_eq_assignment_iff.mp hk
  have hquote : OneLine (quote (trim a.value)) := (IsLiteral.quoted _).oneLine
  refine ⟨?_, fun hlf => ?_, fun _ => ?_⟩
  · have hfeed := hp.noFeed
    rw [← hchars] at hfeed
    simp only [Assignment.chars, Assignment.quoted, List.mem_append, not_or] at hfeed ⊢
    exact ⟨⟨⟨hfeed.1.1.1, hquote.feed⟩, hfeed.1.2⟩, hfeed.2⟩
  -- the line ends in its comment or gap as before, or in the closing quote
  · cases htail : a.gap ++ a.comment with
    | nil =>
      simpa [Assignment.chars, Assignment.quoted, List.append_assoc, htail,
        List.getLast?_append_of_ne_nil _ hquote.ne_nil] using hquote.ret
    | cons c rest =>
      have hlast := hp.noReturn hlf
      rw [← hchars] at hlast
      simp only [Assignment.chars, Assignment.quoted, List.append_assoc, htail] at hlast ⊢
      simpa [List.getLast?_append_of_ne_nil] using hlast
  · simp [Assignment.chars, Assignment.quoted, hquote.ne_nil]

/-- Lines that continue a value are kept. -/
theorem requoted_continued : ∀ (ls : List Line) (here there : Nat),
    List.Forall₂ Requoted (continued here ls) (continued there ls)
  | [], _, _ => .nil
  | _ :: ls, _, _ => .cons (.kept fun _ h => nomatch h) (requoted_continued ls _ _)

/-- Lines that belong together are kept if the first of them assigns no bare word. -/
theorem HasNoBareWord.requoted {text : List Char} (h : HasNoBareWord text) (here there : Nat) :
    List.Forall₂ Requoted (together here (lines text)) (together there (lines text)) := by
  cases hl : lines text with
  | nil => exact .nil
  | cons line ls => exact .cons (.kept fun a ha => h line ls a hl ha) (requoted_continued ls _ _)

/-- Fixed text assigns no bare word on its first line. -/
theorem Piece.Reads.hasNoBareWord {text behind : List Char} (h : (Piece.fixed text).Reads behind) :
    HasNoBareWord text := by
  intro line ls a hl hk
  have hnone := h.2 line ls a hl hk
  refine isBareWord_of_tripleQuote? (Option.isSome_iff_ne_none.mpr fun hq => ?_)
  simp [wholeValue?, hq] at hnone

/-- **The lines of an entry with a bare word:** the first one is quoted, the others are kept. -/
theorem Entry.Reads.lines_quoted {e : Entry} {behind : List Char} (h : e.Reads behind)
    (hw : isBareWord e.value = true) :
    ∃ a ending ls, isBareWord a.value = true ∧ classify a.chars = .assignment a
      ∧ lines e.text = ⟨a.chars, ending⟩ :: ls
      ∧ lines e.quoted.text = ⟨a.quoted.chars, ending⟩ :: ls := by
  obtain ⟨line, ls, a, hl, hk, -, hlead, hvalue⟩ := h.opens
  obtain ⟨-, hchars⟩ := classify_eq_assignment_iff.mp hk
  obtain ⟨hword, hsame⟩ := isBareWord_of_wholeValue? hvalue
  have hv : a.value = e.value := hsame hw
  have hproper := properLines_lines e.text
  rw [hl] at hproper
  -- behind the value stands the same in the line and in the entry
  have hrest : a.gap ++ a.comment ++ line.ending.chars ++ ls.flatMap Line.chars = e.rest := by
    have hflat := flatten_lines e.text
    rw [hl, List.flatMap_cons, Line.chars, ← hchars, Assignment.chars, hlead, hv, Entry.text]
      at hflat
    simpa using hflat
  have htext : e.quoted.text
      = (Line.mk a.quoted.chars line.ending :: ls).flatMap Line.chars := by
    rw [Entry.quoted, if_pos hw, Entry.text, ← hrest]
    simp [Line.chars, Assignment.chars, Assignment.quoted, hlead, hv]
  have hquoted : ProperLines (Line.mk a.quoted.chars line.ending :: ls) :=
    ⟨proper_quoted hproper.1 hk, hproper.2⟩
  exact ⟨a, line.ending, ls, by rw [hword, hw], by rw [hchars, hk], by rw [hl, hchars],
    by rw [htext, lines_flatten hquoted]⟩

/-- **The lines of a piece and of its quoted form.**  In an entry with a bare word the first line
is quoted, and in every other piece nothing is. -/
theorem Piece.Reads.requoted {p : Piece} {behind : List Char} (h : p.Reads behind)
    (here there : Nat) :
    List.Forall₂ Requoted (together here (lines p.text))
    (together there (lines p.quoted.text)) := by
  cases p with
  | fixed text => exact h.hasNoBareWord.requoted here there
  | entry e =>
    cases hw : isBareWord e.value with
    | true =>
      obtain ⟨a, ending, ls, hword, hk, hl, hq⟩ := Entry.Reads.lines_quoted h hw
      rw [Piece.text, Piece.quoted, Piece.text, hl, hq, together, together, hk, classify_quoted hk]
      exact .cons (.quoted hword) (requoted_continued ls _ _)
    | false =>
      have hno : HasNoBareWord e.text := by
        intro line ls a hl hk
        obtain ⟨line', ls', a', hl', hk', -, -, hvalue⟩ := Entry.Reads.opens h
        obtain ⟨rfl, -⟩ := List.cons.inj (hl.symm.trans hl')
        obtain rfl := LineKind.assignment.inj (hk.symm.trans hk')
        rw [(isBareWord_of_wholeValue? hvalue).1, hw]
      rw [Piece.text, Piece.quoted, Piece.text, Entry.quoted, if_neg (by simp [hw])]
      exact hno.requoted here there

/-- **The lines of a document in pieces and of its quoted form,** piece by piece. -/
theorem Segmented.requoted : ∀ {ps : List Piece}, Segmented ps → ∀ here there : Nat,
    List.Forall₂ Requoted (reportAll here ps) (reportAll there (ps.map Piece.quoted))
  | [], _, _, _ => .nil
  | _ :: _, h, here, there =>
    List.rel_append (h.reads.requoted here there) (Segmented.requoted h.2.2 _ _)

/-- **The text with its bare words in quotes** is that of the pieces.  So the scan of the quoted
text is known without scanning it again. -/
theorem quoteBareWords_textOf {ps : List Piece} (h : Segmented ps) :
    quoteBareWords (textOf ps) = textOf (ps.map Piece.quoted) := by
  have hwrite : ∀ {ss ts : List ScannedLine}, List.Forall₂ Requoted ss ts →
      ss.flatMap quoteLine = ts.flatMap fun t => t.line.chars := by
    intro ss ts hst
    induction hst with
    | nil => rfl
    | cons hs _ ih => rw [List.flatMap_cons, List.flatMap_cons, hs.quoteLine, ih]
  rw [quoteBareWords, scan_textOf h, hwrite (h.requoted 0 0), ← scan_textOf h.quoted.1,
    flatten_scan]

/-! ## 3. Targets and their lines

An instruction is looked for among heads, and those are the same in both texts.  The edit that is
planned stands behind the lead of its entry, so the number of its line is the number of line feeds
before; quoting neither brings nor takes one.
-/

/-- An instruction means the same with the bare words in quotes. -/
theorem pieceFor?_quoted {ps : List Piece} (h : Segmented ps) (i : Instruction) :
    pieceFor? (ps.map Piece.quoted) i = (pieceFor? ps i).map fun (n, p) => (n, p.quoted) := by
  rw [pieceFor?, h.quoted.2, pieceFor?]
  cases targetIndex? i (ps.map Piece.head) with
  | none => rfl
  | some n =>
    rw [Option.bind_some, Option.bind_some, List.getElem?_map]
    cases ps[n]? <;> rfl

/-- An instruction hits in both or in neither. -/
theorem hits_quoted {ps : List Piece} (h : Segmented ps) (i : Instruction) :
    hits (ps.map Piece.quoted) i = hits ps i := by
  rw [hits, hits, pieceFor?_quoted h]
  rcases pieceFor? ps i with _ | ⟨n, p⟩
  · rfl
  · cases p <;> rfl

/-- The number of the line on which an offset of a text lies, counted from zero. -/
def lineNumber? (text : List Char) (offset : Nat) : Option Nat :=
  (splitAt? offset text).map fun (before, _) => before.count '\n'

/-- A character in front of a line changes no ending. -/
theorem countP_pushFront (c : Char) (ls : List Line) :
    (pushFront c ls).countP (·.ending != .none) = ls.countP (·.ending != .none) := by
  cases ls <;> simp [pushFront, List.countP_cons]

/-- A text has as many line feeds as lines with an end. -/
theorem count_feed (text : List Char) :
    text.count '\n' = (lines text).countP (·.ending != .none) := by
  fun_induction lines text with
  | case1 => rfl
  | case2 rest ih => simp [ih]
  | case3 rest ih => simp [ih]
  | case4 c rest hfeed _ ih =>
    have hc : c ≠ '\n' := fun h => hfeed h
    rw [List.count_cons_of_ne hc, ih, countP_pushFront]

/-- Quoting moves no line feed. -/
theorem Piece.Reads.count_quoted {p : Piece} {behind : List Char} (h : p.Reads behind) :
    p.quoted.text.count '\n' = p.text.count '\n' := by
  cases p with
  | fixed text => rfl
  | entry e =>
    cases hw : isBareWord e.value with
    -- the lines of the two have the same endings
    | true =>
      obtain ⟨a, ending, ls, -, -, hl, hq⟩ := Entry.Reads.lines_quoted h hw
      simp only [Piece.quoted, Piece.text, count_feed, hl, hq, List.countP_cons]
    | false => rw [Piece.quoted, Entry.quoted, if_neg (by simp [hw])]

/-- As many line feeds stand before a piece as before its quoted form. -/
theorem Segmented.count_quoted : ∀ {ps : List Piece}, Segmented ps → ∀ n : Nat,
    (textOf ((ps.map Piece.quoted).take n)).count '\n' = (textOf (ps.take n)).count '\n'
  | _, _, 0 => by simp
  | [], _, _ + 1 => rfl
  | p :: ps, h, n + 1 => by
    rw [List.map_cons, List.take_succ_cons, List.take_succ_cons, textOf_cons, textOf_cons,
      List.count_append, List.count_append, h.reads.count_quoted, Segmented.count_quoted h.2.2]

/-- The line of the edit of an entry is told by what stands before its value. -/
theorem lineNumber?_edit {ps : List Piece} (h : Segmented ps) {n : Nat} {e : Entry}
    (hn : ps[n]? = some (.entry e)) (literal : List Char) :
    lineNumber? (textOf ps) (e.edit (byteLength (textOf (ps.take n))) literal).start
      = some ((textOf (ps.take n)).count '\n' + e.lead.count '\n') := by
  obtain ⟨post, -, htext, -⟩ := h.getElem? hn
  have hsplit :=
    splitAt?_byteLength (textOf (ps.take n) ++ e.lead) (e.value ++ e.rest ++ textOf post)
  simp only [byteLength_append, List.append_assoc] at hsplit
  rw [lineNumber?, (e.edit_spec _ _).1, htext]
  simp only [Piece.text, Entry.text, List.append_assoc, hsplit]
  simp

/-- **Quoting keeps the lines of a text.**  The lines of the quoted text are those of the text
one by one: a header, a line that is nothing on its own and an assignment of anything but a bare
word stay as they are, and an assignment of a bare word stays an assignment of its key, with its
value at the same place in the line.  A second quoting changes nothing.  An instruction finds its
target in one text exactly if it finds it in the other, on the same line. -/
theorem scan_quoteBareWords (text : List Char) :
    List.Forall₂ Requoted (scan text) (scan (quoteBareWords text))
      ∧ quoteBareWords (quoteBareWords text) = quoteBareWords text
      ∧ ∀ i, Option.Rel
          (fun a b => ∃ n, lineNumber? text a.start = some n
            ∧ lineNumber? (quoteBareWords text) b.start = some n)
          (planEdit? text i) (planEdit? (quoteBareWords text) i) := by
  obtain ⟨ps, rfl, hseg⟩ := exists_segmented text
  obtain ⟨hquoted, -⟩ := hseg.quoted
  rw [quoteBareWords_textOf hseg, quoteBareWords_textOf hquoted]
  refine ⟨?_, ?_, fun i => ?_⟩
  · rw [scan_textOf hseg, scan_textOf hquoted]
    exact hseg.requoted 0 0
  · have htwice : Piece.quoted ∘ Piece.quoted = Piece.quoted := funext Piece.quoted_quoted
    rw [List.map_map, htwice]
  · rw [planEdit?_textOf hseg, planEdit?_textOf hquoted, pieceFor?_quoted hseg]
    rcases hp : pieceFor? ps i with _ | ⟨n, p⟩
    · exact .none
    · cases p with
      | fixed text => exact .none
      | entry e =>
        have hn : ps[n]? = some (.entry e) := (pieceFor?_eq_some.mp hp).2
        have hn' : (ps.map Piece.quoted)[n]? = some (.entry e.quoted) := by
          rw [List.getElem?_map, hn]
          rfl
        have hlead : e.quoted.lead = e.lead := by
          unfold Entry.quoted
          split <;> rfl
        have hline := lineNumber?_edit hquoted hn' i.literal
        rw [hseg.count_quoted, hlead] at hline
        exact .some ⟨_, lineNumber?_edit hseg hn i.literal, hline⟩

end TomlKeep
