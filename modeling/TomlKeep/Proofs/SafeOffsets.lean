/-
# Documents by offsets

The scan of a document, the quoting of bare words and the planning of an edit by offsets
(`Offsets`) give what they give in pieces (`scan?_eq`, `normalize?_eq`, `plan?_eq`).  The scan in
pieces counts the bytes that a multi-line string has to go; the scan by offsets keeps the offset
where it ends.  `Stands` ties the two.

With this the text layer is safe (`scan_offsets_safe`): what is reported of a text are offsets of
the text, an edit that is planned applies, and no cut on the way is at a number that is no
offset.
-/
import TomlKeep.Proofs.OffsetsAgree
import TomlKeep.Proofs.Regions

namespace TomlKeep

open Text

/-! ## 1. Where a scanned line stands

A line is reported with its offset, and an assignment with its pieces.  Together they say where the
value stands in the whole text, which is what a plan needs.
-/

/-- **An assignment that is reported stands in the text,** its pieces behind the lines above. -/
theorem exists_front_of_scan {text : List Char} {above below : List ScannedLine} {s : ScannedLine}
    {a : Assignment} (hscan : scan text = above ++ s :: below) (hk : s.kind = .assignment a) :
    a.Formed ∧ a.chars = s.line.content
      ∧ ∃ front rest, text = front ++ (a.value ++ rest)
        ∧ byteLength front = s.offset + a.valueStart := by
  obtain ⟨hoffset, hclass⟩ := scanLines_split hscan
  rw [hk] at hclass
  obtain ⟨hform, hchars⟩ := classify_eq_assignment_iff.mp (hclass.resolve_left (by simp))
  refine ⟨hform, hchars, above.flatMap (fun t => t.line.chars) ++ a.lead,
    a.gap ++ a.comment ++ s.line.ending.chars ++ below.flatMap fun t => t.line.chars, ?_, ?_⟩
  · have hflat := flatten_scan text
    rw [hscan] at hflat
    rw [← hflat]
    simp [Line.chars, ← hchars, Assignment.chars]
  · rw [byteLength_append, hoffset, Nat.zero_add, Assignment.valueStart]

namespace ByOffset

/-! ## 2. The scan

The two scans agree line by line if they agree on what is open, and this is the invariant: a string
that has so many bytes to go ends at so many bytes behind the offset.  A string that ends before the
offset has none to go.
-/

/-- **What is open, counted from an offset on and in the whole text.** -/
inductive Stands (offset : Nat) : Pending → Continuation → Prop where
  | closed : Stands offset .closed .closed
  | string {left stop : Nat} : left = stop - offset →
      Stands offset (.string left) (.stringUntil stop)
  | endless : Stands offset .endless .endless
  | brackets (depth : Int) : Stands offset (.brackets depth) (.brackets depth)

/-- Brackets are counted alike. -/
theorem Stands.ofDepth (offset : Nat) (depth : Int) :
    Stands offset (Pending.ofDepth depth) (Continuation.ofDepth depth) := by
  unfold Pending.ofDepth Continuation.ofDepth
  split
  · exact .brackets depth
  · exact .closed

/-- A string stands behind a line as it stood in front of it. -/
theorem Stands.pastLine {offset left stop : Nat} (line : Line) (h : left = stop - offset) :
    Stands (offset + byteLength line.chars) (.pastLine line left)
      (.past stop (offset + byteLength line.content)) := by
  -- the string ends on this line, or it is as many bytes nearer to its end as the line has
  unfold Pending.pastLine Continuation.past
  split
  · rw [if_pos (by omega)]
    exact .closed
  · rw [if_neg (by omega)]
    exact .string (by omega)

/-- Whether a text begins with three quotes of either kind. -/
theorem beginsWith_triple_eq (text : List Char) :
    (beginsWith ['"', '"', '"'] text || beginsWith ['\'', '\'', '\''] text)
      = (tripleQuote? text).isSome := by
  unfold tripleQuote?
  cases beginsWith ['"', '"', '"'] text
  · cases beginsWith ['\'', '\'', '\''] text <;> rfl
  · rfl

/-- The end of a string that begins at an offset, by the string that is split off there. -/
theorem tripleEnd?_append (front suffix : List Char) :
    tripleEnd? (front ++ suffix) (byteLength front)
      = (splitMultiline? suffix).map fun parts => byteLength front + byteLength parts.1 := by
  rw [tripleEnd?_eq, multilineEnd?, splitAt?_byteLength]
  dsimp only
  rcases splitMultiline? suffix with _ | ⟨value, behind⟩ <;> rfl

/-- **What an assignment leaves open, by offsets.** -/
theorem opened?_eq (front : List Char) {line : Line} (rest : List Line) {a : Assignment}
    (h : a.chars = line.content) :
    ∃ next, opened? (front ++ (line :: rest).flatMap Line.chars) (byteLength front) line
        (.ofAssignment a) = some next
      ∧ Stands (byteLength front + byteLength line.chars) (.ofAssignment a line rest) next := by
  have hbody := from?_valueStart a
  rw [h] at hbody
  -- the whole text, cut where the value begins: a string is looked for from there on
  have htext : front ++ (line :: rest).flatMap Line.chars
      = front ++ a.lead ++ (a.value ++ a.gap ++ a.comment ++ line.ending.chars
          ++ rest.flatMap Line.chars) := by
    simp [Line.chars, ← h, Assignment.chars]
  have hend := tripleEnd?_append (front ++ a.lead) (a.value ++ a.gap ++ a.comment
    ++ line.ending.chars ++ rest.flatMap Line.chars)
  rw [← htext, byteLength_append] at hend
  simp only [opened?, Marks.ofAssignment, hbody, Option.bind_eq_bind, Option.bind_some,
    beginsWith_triple_eq, Pending.ofAssignment]
  -- a string, which is looked for in the whole text, or brackets, which are counted on the line
  cases tripleQuote? (a.value ++ a.gap ++ a.comment) with
  | some quote =>
    rw [Option.isSome_some, if_pos rfl]
    unfold Assignment.valueStart
    rw [hend]
    dsimp only
    rcases splitMultiline? (a.value ++ a.gap ++ a.comment ++ line.ending.chars
      ++ rest.flatMap Line.chars) with _ | ⟨value, behind⟩
    · exact ⟨_, rfl, .endless⟩
    · have hleft : byteLength a.lead + byteLength value
          = byteLength front + byteLength a.lead + byteLength value - byteLength front := by omega
      exact ⟨_, rfl, .pastLine line hleft⟩
  | none =>
    rw [Option.isSome_none, if_neg Bool.false_ne_true]
    dsimp only
    split
    · rw [bracketDelta?_zero]
      exact ⟨_, rfl, .ofDepth _ _⟩
    · exact ⟨_, rfl, .closed⟩

/-- **One step of the scan.** -/
theorem step?_eq (front : List Char) (line : Line) (rest : List Line) {pending : Pending}
    {state : Continuation} (h : Stands (byteLength front) pending state) :
    ∃ kind pending' state',
      scanLines (byteLength front) pending (line :: rest)
          = ⟨byteLength front, line, kind⟩
            :: scanLines (byteLength front + byteLength line.chars) pending' rest
        ∧ step? (front ++ (line :: rest).flatMap Line.chars) (byteLength front) line state
          = some (.ofKind kind, state')
        ∧ Stands (byteLength front + byteLength line.chars) pending' state' := by
  -- inside a value the line is not looked at but for its brackets; outside it is classified
  cases h with
  | string hleft => exact ⟨_, _, _, rfl, rfl, .pastLine line hleft⟩
  | endless => exact ⟨_, _, _, rfl, rfl, .endless⟩
  | brackets depth =>
    refine ⟨_, _, _, rfl, ?_, .ofDepth _ _⟩
    rw [step?, bracketDelta?_zero]
    rfl
  | closed =>
    rw [step?, classify?_eq, scanLines]
    cases hk : classify line.content with
    | header header => exact ⟨_, _, _, rfl, rfl, .closed⟩
    | other => exact ⟨_, _, _, rfl, rfl, .closed⟩
    | assignment a =>
      obtain ⟨next, hopened, hstands⟩ := opened?_eq front rest (classify_eq_assignment_iff.mp hk).2
      refine ⟨_, _, _, rfl, ?_, hstands⟩
      simp only [Option.bind_eq_bind, Option.bind_some, MarkedKind.ofKind, hopened]
      rfl

/-- A line of a document, by offsets. -/
def MarkedLine.ofScanned (s : ScannedLine) : MarkedLine :=
  ⟨s.offset, s.line, .ofKind s.kind⟩

/-- The scans agree from any line on, if they agree on what is open in front of it. -/
theorem scanLines?_eq : ∀ (ls : List Line) (front : List Char) {pending : Pending}
    {state : Continuation}, Stands (byteLength front) pending state →
    scanLines? (front ++ ls.flatMap Line.chars) (byteLength front) state ls
      = some ((scanLines (byteLength front) pending ls).map .ofScanned)
  | [], _, _, _, _ => by
    simp [scanLines?, scanLines]
  | line :: rest, front, _, _, h => by
    obtain ⟨kind, pending', state', hscan, hstep, hstands⟩ := step?_eq front line rest h
    rw [← byteLength_append] at hscan hstands
    have ih := scanLines?_eq rest (front ++ line.chars) hstands
    rw [List.append_assoc, ← List.flatMap_cons] at ih
    rw [hscan, scanLines?, hstep]
    simp only [Option.bind_eq_bind, Option.bind_some, ← byteLength_append, ih]
    rfl

/-- **The scan by offsets.** -/
theorem scan?_eq (text : List Char) : scan? text = some ((scan text).map .ofScanned) := by
  have h := scanLines?_eq (lines text) [] .closed
  rw [flatten_lines] at h
  exact h

/-! ## 3. Bare words

A line is put together again of what was cut out of it.
-/

/-- A line is quoted alike, as its pieces are those that were read. -/
theorem quoteLine?_eq {s : ScannedLine}
    (h : ∀ a, s.kind = .assignment a → a.chars = s.line.content) :
    quoteLine? (.ofScanned s) = some (quoteLine s) := by
  unfold quoteLine? quoteLine
  cases hk : s.kind with
  | header header => simp [MarkedLine.ofScanned, MarkedKind.ofKind, hk]
  | other => simp [MarkedLine.ofScanned, MarkedKind.ofKind, hk]
  | assignment a =>
    have hchars := h a hk
    simp only [MarkedLine.ofScanned, MarkedKind.ofKind, hk, Marks.ofAssignment, ← hchars,
      between?_value, upTo?_valueStart, from?_valueEnd, Option.bind_eq_bind, Option.bind_some]
    split
    · simp
    · simp [Line.chars, ← hchars, Assignment.chars]

/-- **The quoting of bare words by offsets.** -/
theorem quoteLines?_eq : ∀ {scanned : List ScannedLine},
    (∀ s ∈ scanned, ∀ a, s.kind = .assignment a → a.chars = s.line.content) →
    quoteLines? (scanned.map .ofScanned) = some (scanned.flatMap quoteLine)
  | [], _ => rfl
  | s :: rest, h => by
    obtain ⟨hs, hrest⟩ := List.forall_mem_cons.mp h
    rw [List.map_cons, quoteLines?, quoteLine?_eq hs, quoteLines?_eq hrest]
    rfl

/-- The text with its bare words quoted. -/
theorem normalize?_eq (text : List Char) : normalize? text = some (quoteBareWords text) := by
  have hlines : ∀ s ∈ scan text, ∀ a, s.kind = .assignment a → a.chars = s.line.content := by
    intro s hs a hk
    obtain ⟨above, below, hscan⟩ := List.append_of_mem hs
    exact (exists_front_of_scan hscan hk).2.1
  rw [normalize?, scan?_eq]
  exact quoteLines?_eq hlines

/-! ## 4. Plans

A plan is a search for the line and a cut at its value.  By offsets both are done in one pass over
the lines; in pieces the line is found first.
-/

/-- The edit of the value of an assignment on a line that begins at an offset. -/
def located? (text : List Char) (literal : List Char) (place : Nat × Assignment) : Option Edit :=
  (wholeValue? text (place.1 + place.2.valueStart) place.2).map fun value =>
    ⟨place.1 + place.2.valueStart, place.1 + place.2.valueStart + byteLength value, literal, value⟩

/-- A plan is the edit of the line that is found. -/
theorem planEdit?_eq_located? (text : List Char) (i : Instruction) :
    planEdit? text i
      = (findTarget? i.target i.key (scan text)).bind (located? text i.literal) := by
  unfold planEdit?
  rcases findTarget? i.target i.key (scan text) with _ | ⟨offset, a⟩ <;> rfl

/-- **The value of an assignment by offsets.** -/
theorem locate?_eq {text literal : List Char} {above below : List ScannedLine} {s : ScannedLine}
    {a : Assignment} (hscan : scan text = above ++ s :: below) (hk : s.kind = .assignment a) :
    locate? text literal (.ofScanned s) (.ofAssignment a)
      = some (located? text literal (s.offset, a)) := by
  obtain ⟨-, hchars, front, rest, htext, hfront⟩ := exists_front_of_scan hscan hk
  have hvalue := between?_value a
  rw [hchars] at hvalue
  have hstop : (if beginsWith ['"', '"', '"'] a.value || beginsWith ['\'', '\'', '\''] a.value
      then tripleEnd? text (s.offset + a.valueStart) else some (s.offset + a.valueEnd))
      = a.stop? text s.offset := by
    rw [beginsWith_triple_eq, tripleEnd?_eq, Assignment.stop?]
    cases tripleQuote? a.value <;> rfl
  simp only [locate?, MarkedLine.ofScanned, Marks.ofAssignment, hvalue, Option.bind_eq_bind,
    Option.bind_some, hstop, a.stop?_eq, located?]
  -- nothing closes the string, or the value stands between two offsets of the text
  cases hwhole : wholeValue? text (s.offset + a.valueStart) a with
  | none => rfl
  | some value =>
    rw [htext, ← hfront] at hwhole
    obtain ⟨behind, hbehind, -⟩ := exists_behind_of_wholeValue? hwhole
    have hcut := between?_append front value behind
    rw [List.append_assoc, ← hbehind, ← htext, hfront] at hcut
    simp only [Option.map_some, hcut, Option.bind_some]
    rfl

/-- The search for the line, inside the section and in front of it; one induction serves for
both, since a header leads from the one to the other. -/
theorem planIn?_eq (text : List Char) (i : Instruction) : ∀ {scanned : List ScannedLine},
    (∀ s ∈ scanned, ∀ a, s.kind = .assignment a →
      locate? text i.literal (.ofScanned s) (.ofAssignment a)
        = some (located? text i.literal (s.offset, a))) →
    planIn? text i true (scanned.map .ofScanned)
        = some ((findKey? i.key scanned).bind (located? text i.literal))
      ∧ planIn? text i false (scanned.map .ofScanned)
        = some ((findKey? i.key (behindHeader i.target scanned)).bind (located? text i.literal))
  | [], _ => ⟨rfl, rfl⟩
  | s :: rest, h => by
    obtain ⟨hs, hrest⟩ := List.forall_mem_cons.mp h
    obtain ⟨hinside, houtside⟩ := planIn?_eq text i hrest
    simp only [List.map_cons, planIn?, findKey?, behindHeader, MarkedLine.ofScanned]
    cases hk : s.kind with
    | header header =>
      refine ⟨rfl, ?_⟩
      dsimp only [MarkedKind.ofKind]
      cases !header.array && header.path == i.target
      · exact houtside
      · exact hinside
    | assignment a =>
      refine ⟨?_, houtside⟩
      have hlocate := hs a hk
      dsimp only [MarkedKind.ofKind]
      have hkey : (Marks.ofAssignment a).key = a.key := rfl
      rw [hkey, Bool.true_and]
      split
      · exact hlocate
      · exact hinside
    | other => exact ⟨hinside, houtside⟩

/-- **Plans by offsets.** -/
theorem plan?_eq (text : List Char) (i : Instruction) : plan? text i = some (planEdit? text i) := by
  have hplaces : ∀ s ∈ scan text, ∀ a, s.kind = .assignment a →
      locate? text i.literal (.ofScanned s) (.ofAssignment a)
        = some (located? text i.literal (s.offset, a)) := by
    intro s hs a hk
    obtain ⟨above, below, hscan⟩ := List.append_of_mem hs
    exact locate?_eq hscan hk
  obtain ⟨hinside, houtside⟩ := planIn?_eq text i hplaces
  rw [plan?, scan?_eq, planEdit?_eq_located?, findTarget?]
  simp only [Option.bind_eq_bind, Option.bind_some]
  cases i.target.isRoot
  · exact houtside
  · exact hinside

end ByOffset

/-! ## 5. What is reported of a text

That no check fails would be worth little without this: the offsets that are reported are where they
are said to be.
-/

/-- **The lines of a text.**  Their contents and endings are the text, each stands at the length
of all in front of it, none holds a line feed, and only the last may be without an end. -/
structure Partitions (scanned : List ScannedLine) (text : List Char) : Prop where
  flatten : scanned.flatMap (fun s => s.line.content ++ s.line.ending.chars) = text
  offset : ∀ above s below, scanned = above ++ s :: below →
    s.offset = byteLength (above.flatMap fun t => t.line.content ++ t.line.ending.chars)
  noFeed : ∀ s ∈ scanned, '\n' ∉ s.line.content
  last : ∀ above s below, scanned = above ++ s :: below → s.line.ending.chars = [] → below = []

/-- Whether a number is an offset of the text: no character stands across it. -/
def IsOffset (n : Nat) (text : List Char) : Prop :=
  (splitAt? n text).isSome = true

/-- Where the gap behind a value ends: at the comment or at the end of the line. -/
def Assignment.gapEnd (a : Assignment) (line : List Char) : Nat :=
  a.commentStart?.getD (byteLength line)

/-- **The offsets of an assignment in its line.**  They are in order and are offsets of the line,
between the value and the comment are spaces and tabs only, and a comment begins with a hash. -/
structure Assignment.MarksLine (a : Assignment) (line : List Char) : Prop where
  start_le_end : a.valueStart ≤ a.valueEnd
  end_le_gapEnd : a.valueEnd ≤ a.gapEnd line
  gapEnd_le : a.gapEnd line ≤ byteLength line
  valueStart : IsOffset a.valueStart line
  valueEnd : IsOffset a.valueEnd line
  gapEnd : IsOffset (a.gapEnd line) line
  gap : ∃ cut, span? a.valueEnd (a.gapEnd line) line = some cut
    ∧ ∀ c ∈ cut.inside, c = ' ' ∨ c = '\t'
  comment : ∀ n, a.commentStart? = some n →
    ∃ before rest, splitAt? n line = some (before, '#' :: rest)

/-- The length of what stands in front is an offset. -/
theorem isOffset_byteLength (before behind : List Char) :
    IsOffset (byteLength before) (before ++ behind) := by
  rw [IsOffset, splitAt?_byteLength]
  rfl

/-- The lines that are reported are those of the text. -/
theorem partitions_scan (text : List Char) : Partitions (scan text) text := by
  -- a line and those below it are proper as the lines of the text are
  have hproper {above below : List ScannedLine} {s : ScannedLine}
      (h : scan text = above ++ s :: below) :
      ProperLines (s.line :: below.map ScannedLine.line) := by
    have hlines : (scan text).map ScannedLine.line = lines text := map_line_scanLines 0 .closed _
    rw [h, List.map_append, List.map_cons] at hlines
    have hall := properLines_lines text
    rw [← hlines] at hall
    exact hall.right
  refine ⟨flatten_scan text, fun above s below h => ?_, fun s hs => ?_,
    fun above s below h hend => ?_⟩
  · have hoffset := (scanLines_split h).1
    rw [Nat.zero_add] at hoffset
    exact hoffset
  · obtain ⟨above, below, h⟩ := List.append_of_mem hs
    exact (hproper h).1.noFeed
  · have hnone : s.line.ending = .none := by
      cases he : s.line.ending with
      | none => rfl
      | lf | crlf => simp [he, LineEnd.chars] at hend
    exact List.map_eq_nil_iff.mp ((hproper h).2.1 hnone)

/-- The gap ends in front of the comment, whether there is one or not. -/
theorem Assignment.gapEnd_chars (a : Assignment) :
    a.gapEnd a.chars = byteLength (a.lead ++ a.value ++ a.gap) := by
  unfold Assignment.gapEnd Assignment.commentStart?
  cases hc : a.comment with
  | nil => simp [Assignment.chars, hc]
  | cons c rest => simp [Nat.add_assoc]

/-- **Pieces that fit together have offsets that do.** -/
theorem Assignment.Formed.marksLine {a : Assignment} (h : a.Formed) : a.MarksLine a.chars := by
  have hend : a.valueEnd = byteLength (a.lead ++ a.value) := (byteLength_append _ _).symm
  have hgapEnd := a.gapEnd_chars
  have hgap := span?_append (a.lead ++ a.value) a.gap a.comment
  constructor
  case start_le_end => exact Nat.le_add_right _ _
  case end_le_gapEnd =>
    rw [hend, hgapEnd, byteLength_append (a.lead ++ a.value)]
    exact Nat.le_add_right _ _
  case gapEnd_le =>
    rw [hgapEnd, Assignment.chars, byteLength_append _ a.comment]
    exact Nat.le_add_right _ _
  case valueStart =>
    rw [Assignment.chars, List.append_assoc, List.append_assoc]
    exact isOffset_byteLength _ _
  case valueEnd =>
    rw [hend, Assignment.chars, List.append_assoc]
    exact isOffset_byteLength _ _
  case gapEnd =>
    rw [hgapEnd]
    exact isOffset_byteLength _ _
  case gap =>
    refine ⟨⟨a.lead ++ a.value, a.gap, a.comment⟩, ?_, fun c hc => ?_⟩
    · rw [hend, hgapEnd, byteLength_append (a.lead ++ a.value)]
      exact hgap
    · have hblank := h.tail.gap c hc
      simpa [isGap] using hblank
  case comment =>
    intro n hn
    unfold Assignment.commentStart? at hn
    split at hn
    · cases hn
    · next hne =>
      obtain ⟨c, rest, hc⟩ := List.exists_cons_of_ne_nil fun he => hne (List.isEmpty_iff.mpr he)
      obtain rfl := h.tail.comment c (by rw [hc]; rfl)
      obtain rfl := Option.some.inj hn
      refine ⟨a.lead ++ a.value ++ a.gap, rest, ?_⟩
      rw [Assignment.chars, hc, ← byteLength_append, ← byteLength_append]
      exact splitAt?_byteLength _ _

/-! ## 6. What is planned applies

An edit is refused if its range is none or if something else stands there.  The plan was made from
the same text, so neither can be.
-/

/-- **A planned edit applies.**  Its range is one of the text, and what it expects stands there. -/
theorem apply_of_planEdit? {text : List Char} {i : Instruction} {edit : Edit}
    (h : planEdit? text i = some edit) :
    ∃ cut, span? edit.start edit.stop text = some cut
      ∧ edit.apply text = .ok (cut.before ++ i.literal ++ cut.behind)
      ∧ patch? text i = some (cut.before ++ i.literal ++ cut.behind) := by
  obtain ⟨s, a, ⟨⟨region, hregion, hfirst⟩, hkind, -⟩, value, hwhole, rfl⟩ :=
    planEdit?_eq_some_iff.mp h
  obtain ⟨above, below, hscan⟩ :=
    List.append_of_mem (mem_of_region? hregion (List.mem_of_find?_eq_some hfirst))
  obtain ⟨-, -, front, rest, htext, hfront⟩ := exists_front_of_scan hscan hkind
  rw [htext, ← hfront] at hwhole
  obtain ⟨behind, hbehind, -⟩ := exists_behind_of_wholeValue? hwhole
  rw [hbehind, ← List.append_assoc] at htext
  rw [← hfront] at h ⊢
  rw [htext] at h ⊢
  refine ⟨⟨front, value, behind⟩, span?_append _ _ _, ?_, patch?_of_planEdit? h⟩
  simp only [Edit.apply, span?_append]
  simp

/-- **The text layer is safe.**  What the scan reports of a text are its lines and offsets of
these lines.  Every edit that is planned applies, so that an instruction is carried out if there
is a plan for it.  And read by offsets, with every cut and every look at a byte checked, the text
is what it is in pieces: no check ever fails, neither on a line nor in the scan, the quoting of
bare words or the planning of an edit. -/
theorem scan_offsets_safe (text : List Char) :
    Partitions (scan text) text
      ∧ (∀ s ∈ scan text, ∀ a, s.kind = .assignment a → a.MarksLine s.line.content)
      ∧ (∀ i edit, planEdit? text i = some edit →
          ∃ cut, span? edit.start edit.stop text = some cut
            ∧ edit.apply text = .ok (cut.before ++ i.literal ++ cut.behind)
            ∧ patch? text i = some (cut.before ++ i.literal ++ cut.behind))
      ∧ (∀ line, ByOffset.classify? line = some (.ofKind (classify line)))
      ∧ ByOffset.scan? text = some ((scan text).map .ofScanned)
      ∧ ByOffset.normalize? text = some (quoteBareWords text)
      ∧ ∀ i, ByOffset.plan? text i = some (planEdit? text i) := by
  refine ⟨partitions_scan text, fun s hs a hk => ?_, fun i edit => apply_of_planEdit?,
    ByOffset.classify?_eq, ByOffset.scan?_eq text, ByOffset.normalize?_eq text,
    ByOffset.plan?_eq text⟩
  obtain ⟨above, below, hscan⟩ := List.append_of_mem hs
  obtain ⟨hform, hchars, -⟩ := exists_front_of_scan hscan hk
  rw [← hchars]
  exact hform.marksLine

/-- A string of two lines is replaced between two offsets, and a value ends in front of its gap
and its comment, in a text with characters of two bytes. -/
theorem scan_offsets_safe_accents :
    (∃ cut, span? 5 15 "ß = '''é\ny''' # c\nk = ü\t# é".toList = some cut
        ∧ patch? "ß = '''é\ny''' # c\nk = ü\t# é".toList ⟨⟨[]⟩, "ß", ['7']⟩
          = some (cut.before ++ ['7'] ++ cut.behind))
      ∧ Assignment.MarksLine ⟨⟨["k"]⟩, "k = ".toList, "ü".toList, "\t".toList, "# é".toList⟩
          "k = ü\t# é".toList := by
  obtain ⟨-, hmarks, hplans, -⟩ := scan_offsets_safe "ß = '''é\ny''' # c\nk = ü\t# é".toList
  have hplan : planEdit? "ß = '''é\ny''' # c\nk = ü\t# é".toList ⟨⟨[]⟩, "ß", ['7']⟩
      = some ⟨5, 15, ['7'], "'''é\ny'''".toList⟩ := by decide +kernel
  obtain ⟨cut, hcut, -, hpatch⟩ := hplans ⟨⟨[]⟩, "ß", ['7']⟩ _ hplan
  refine ⟨⟨cut, hcut, hpatch⟩, ?_⟩
  exact hmarks ⟨20, ⟨"k = ü\t# é".toList, .none⟩, _⟩ (by decide +kernel) _ rfl

end TomlKeep
