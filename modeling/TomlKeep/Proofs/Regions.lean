/-
# Where a value is replaced

The search for a target goes through the scanned lines one by one.  Here its outcome is said
without a search.  The region of a section is what stands between its header and the next header
(`region?`), and the place of a key is the first assignment of that key in the region, with the
offset at which its value ends (`IsPlace`).

An edit is planned exactly for a place (`planEdit?_eq_some_iff`), and carrying it out replaces the
value of that place and no other character (`patch?_exact`).  Nothing else that the scan reports as
a header or an assignment touches the replaced span: a line behind the place that is one begins
behind the value, although the value may go on over several lines.
-/
import TomlKeep.Proofs.Sequential

namespace TomlKeep

open Text

/-! ## 1. Regions and places

Nothing here mentions a search.  A region is a stretch of the scanned lines between two headers, and
the place of a key is told by the region, the key and where the value ends.  What continues a value
is neither a header nor an assignment for the scan, so it can neither end a region nor be a place.
-/

namespace ScannedLine

/-- Whether the line is a header. -/
def isHeader (s : ScannedLine) : Bool :=
  match s.kind with
  | .header _ => true
  | _ => false

/-- Whether the line is the header of a section; that of an array of tables is none. -/
def opens (target : SectionPath) (s : ScannedLine) : Bool :=
  match s.kind with
  | .header h => !h.array && h.path == target
  | _ => false

/-- Whether the line is an assignment of the plain key `key`. -/
def assigns (key : String) (s : ScannedLine) : Bool :=
  match s.kind with
  | .assignment a => a.key.isSingle key
  | _ => false

/-- What the search for a key gives at a line: where it begins, and its assignment. -/
def assignment? (s : ScannedLine) : Option (Nat × Assignment) :=
  match s.kind with
  | .assignment a => some (s.offset, a)
  | _ => none

end ScannedLine

/-- **The region of a section.**  For the root it is what stands before the first header, for any
other section what stands strictly between its first header and the next header of any kind. -/
def region? (target : SectionPath) (scanned : List ScannedLine) : Option (List ScannedLine) :=
  if target.isRoot then some (scanned.takeWhile fun s => !s.isHeader)
  else
    match scanned.dropWhile fun s => !s.opens target with
    | [] => none
    | _ :: behind => some (behind.takeWhile fun s => !s.isHeader)

/-- Where the value of an assignment ends; a multi-line string ends behind its closing quotes, if it
has them. -/
def Assignment.stop? (text : List Char) (offset : Nat) (a : Assignment) : Option Nat :=
  match tripleQuote? a.value with
  | some _ => multilineEnd? text (offset + a.valueStart)
  | none => some (offset + a.valueEnd)

/-- **The place of a key in a section** of a text: the first assignment of the key in the region,
and where its value ends. -/
structure IsPlace (text : List Char) (target : SectionPath) (key : String) (s : ScannedLine)
    (a : Assignment) (stop : Nat) : Prop where
  first : ∃ region, region? target (scan text) = some region
    ∧ region.find? (ScannedLine.assigns key) = some s
  kind : s.kind = .assignment a
  ends : a.stop? text s.offset = some stop

/-! ## 2. The search stays in the region

The two searches walk down the lines and stop where a region ends or begins.  Each is shown to be a
`takeWhile` or a `dropWhile` with a `find?` behind it, line by line; put together they are the
place.
-/

/-- The search for a key looks at the lines before the next header. -/
theorem findKey?_eq (key : String) : ∀ scanned : List ScannedLine,
    findKey? key scanned
      = ((scanned.takeWhile fun s => !s.isHeader).find? (ScannedLine.assigns key)).bind
          ScannedLine.assignment?
  | [] => rfl
  | s :: rest => by
    have ih := findKey?_eq key rest
    -- a header ends the search, an assignment may be of the key, and anything else is passed over
    rcases hk : s.kind with h | a | _
    · simp [findKey?, ScannedLine.isHeader, hk]
    · by_cases ha : a.key.isSingle key = true
      · simp [findKey?, ScannedLine.isHeader, ScannedLine.assigns, ScannedLine.assignment?, hk, ha]
      · simp [findKey?, ScannedLine.isHeader, ScannedLine.assigns, hk, ha, ih]
    · simp [findKey?, ScannedLine.isHeader, ScannedLine.assigns, hk, ih]

/-- The search for a section goes on behind the first line that opens it. -/
theorem behindHeader_eq (target : SectionPath) : ∀ scanned : List ScannedLine,
    behindHeader target scanned = (scanned.dropWhile fun s => !s.opens target).tail
  | [] => rfl
  | s :: rest => by
    have ih := behindHeader_eq target rest
    rcases hk : s.kind with h | a | _
    -- only a header of the section itself opens it, not one of an array of tables
    · by_cases hh : (!h.array && h.path == target) = true
      · simp only [behindHeader, List.dropWhile_cons, ScannedLine.opens, hk, hh, if_true,
          Bool.not_true, Bool.false_eq_true, if_false, List.tail_cons]
      · simp only [Bool.not_eq_true] at hh
        simp only [behindHeader, List.dropWhile_cons, ScannedLine.opens, hk, hh, Bool.not_false,
          Bool.false_eq_true, if_true, if_false, ih]
    · simp [behindHeader, ScannedLine.opens, hk, ih]
    · simp [behindHeader, ScannedLine.opens, hk, ih]

/-- **What is searched is the first assignment of the key in the region.**  Later assignments of
the key are never looked at, and neither is a second header of the section. -/
theorem findTarget?_eq (target : SectionPath) (key : String) (scanned : List ScannedLine) :
    findTarget? target key scanned
      = (region? target scanned).bind fun region =>
          (region.find? (ScannedLine.assigns key)).bind ScannedLine.assignment? := by
  unfold findTarget? region?
  split
  · exact findKey?_eq key scanned
  · rw [behindHeader_eq]
    cases scanned.dropWhile fun s => !s.opens target with
    | nil => rfl
    | cons s behind => exact findKey?_eq key behind

/-- The value that is found for an assignment reaches up to where it ends. -/
theorem Assignment.stop?_eq (text : List Char) (offset : Nat) (a : Assignment) :
    a.stop? text offset = (wholeValue? text (offset + a.valueStart) a).map fun value =>
      offset + a.valueStart + byteLength value := by
  unfold Assignment.stop? wholeValue? multilineEnd?
  -- a value of one line ends where the assignment has it; a multi-line string is searched in the
  -- text, in both definitions by the same cut
  cases tripleQuote? a.value with
  | none => simp [Assignment.valueStart, Assignment.valueEnd, Nat.add_assoc]
  | some quote =>
    rcases splitAt? (offset + a.valueStart) text with _ | ⟨front, suffix⟩
    · rfl
    · dsimp only
      cases splitMultiline? suffix <;> rfl

/-- **An edit is planned exactly for a place.**  It replaces what stands between the beginning of
the value and its end, and it expects the value there. -/
theorem planEdit?_eq_some_iff {text : List Char} {i : Instruction} {edit : Edit} :
    planEdit? text i = some edit ↔ ∃ s a, IsPlace text i.target i.key s a edit.stop
      ∧ ∃ value, wholeValue? text (s.offset + a.valueStart) a = some value
        ∧ edit = ⟨s.offset + a.valueStart, s.offset + a.valueStart + byteLength value, i.literal,
            value⟩ := by
  constructor
  · intro h
    -- from a plan: the search stopped at a line of the region, and a value was found there
    unfold planEdit? at h
    split at h
    · simp at h
    · next offset a hfind =>
      rw [findTarget?_eq] at hfind
      obtain ⟨region, hregion, hfind⟩ := Option.bind_eq_some_iff.mp hfind
      obtain ⟨s, hs, hplace⟩ := Option.bind_eq_some_iff.mp hfind
      obtain ⟨value, hvalue, rfl⟩ := Option.map_eq_some_iff.mp h
      have hkind : s.kind = .assignment a ∧ s.offset = offset := by
        unfold ScannedLine.assignment? at hplace
        split at hplace
        · next b hb => simp_all
        · simp at hplace
      obtain ⟨hkind, rfl⟩ := hkind
      exact ⟨s, a, ⟨⟨region, hregion, hs⟩, hkind, by rw [a.stop?_eq, hvalue]; rfl⟩, value, hvalue,
        rfl⟩
  -- from a place: the search stops at that line
  · rintro ⟨s, a, ⟨⟨region, hregion, hs⟩, hkind, -⟩, value, hvalue, hedit⟩
    have hfind : findTarget? i.target i.key (scan text) = some (s.offset, a) := by
      simp [findTarget?_eq, hregion, hs, ScannedLine.assignment?, hkind]
    rw [planEdit?, hfind, hedit]
    simp [hvalue]

/-- There is a plan exactly if there is a place. -/
theorem isSome_planEdit?_iff (text : List Char) (i : Instruction) :
    (planEdit? text i).isSome = true ↔ ∃ s a stop, IsPlace text i.target i.key s a stop := by
  constructor
  · intro h
    obtain ⟨edit, hedit⟩ := Option.isSome_iff_exists.mp h
    obtain ⟨s, a, hplace, -⟩ := planEdit?_eq_some_iff.mp hedit
    exact ⟨s, a, edit.stop, hplace⟩
  · rintro ⟨s, a, stop, hplace⟩
    have hends := hplace.ends
    rw [a.stop?_eq] at hends
    obtain ⟨value, hvalue, rfl⟩ := Option.map_eq_some_iff.mp hends
    rw [planEdit?_eq_some_iff.mpr ⟨s, a, hplace, value, hvalue, rfl⟩]
    rfl

/-! ## 3. Where a scanned line stands

A plan has an offset, and a place is a line.  So it has to be said at which offset a line stands,
and that a header or an assignment which is reported begins a piece of the document.  Pieces do not
overlap, and with that no header and no assignment lies inside a value.
-/

/-- One step of the scan reports a line where it begins, as it is or as a continuation. -/
theorem scanLines_cons (offset : Nat) (pending : Pending) (line : Line) (rest : List Line) :
    ∃ kind next, (kind = .other ∨ classify line.content = kind)
      ∧ scanLines offset pending (line :: rest)
        = ⟨offset, line, kind⟩ :: scanLines (offset + byteLength line.chars) next rest := by
  cases pending with
  | closed =>
    rw [scanLines]
    cases hk : classify line.content with
    | header h => exact ⟨_, _, .inr rfl, rfl⟩
    | assignment a => exact ⟨_, _, .inr rfl, rfl⟩
    | other => exact ⟨_, _, .inl rfl, rfl⟩
  | string left => exact ⟨_, _, .inl rfl, rfl⟩
  | endless => exact ⟨_, _, .inl rfl, rfl⟩
  | brackets depth => exact ⟨_, _, .inl rfl, rfl⟩

/-- **A scanned line stands behind the lines above it,** and is what it is on its own unless it
continues a value. -/
theorem scanLines_split {s : ScannedLine} {below : List ScannedLine} :
    ∀ {ls : List Line} {offset : Nat} {pending : Pending} {above : List ScannedLine},
      scanLines offset pending ls = above ++ s :: below →
        s.offset = offset + byteLength (above.flatMap fun t => t.line.chars)
          ∧ (s.kind = .other ∨ classify s.line.content = s.kind)
  | [], _, _, above, h => by simp [scanLines] at h
  | line :: rest, offset, pending, above, h => by
    obtain ⟨kind, next, hkind, hstep⟩ := scanLines_cons offset pending line rest
    rw [hstep] at h
    cases above with
    | nil =>
      obtain ⟨rfl, -⟩ := List.cons.inj h
      exact ⟨by simp, hkind⟩
    | cons t above =>
      obtain ⟨rfl, hrest⟩ := List.cons.inj h
      obtain ⟨hoffset, hclass⟩ := scanLines_split hrest
      exact ⟨by simp [hoffset, Nat.add_assoc], hclass⟩

/-- A header or an assignment that is reported begins a piece. -/
theorem begins_of_mem_reportAll {s : ScannedLine} (hk : s.kind ≠ .other) :
    ∀ {ps : List Piece} {offset : Nat}, s ∈ reportAll offset ps →
      ∃ n, n < ps.length ∧ s.offset = offset + byteLength (textOf (ps.take n))
  | [], _, h => by simp [reportAll] at h
  | p :: ps, offset, h => by
    -- lines that continue a value are reported as neither
    have hcontinued : ∀ (ls : List Line) (o : Nat), s ∉ continued o ls := by
      intro ls
      induction ls with
      | nil => simp [continued]
      | cons line ls ih =>
        intro o hmem
        rcases List.mem_cons.mp hmem with rfl | hmem
        · exact hk rfl
        · exact ih _ hmem
    rcases List.mem_append.mp h with h | h
    · cases hl : lines p.text with
      | nil => simp [hl, together] at h
      | cons line ls =>
        rw [hl, together] at h
        rcases List.mem_cons.mp h with rfl | h
        · exact ⟨0, Nat.succ_pos _, by simp⟩
        · exact absurd h (hcontinued _ _)
    · obtain ⟨n, hn, hoffset⟩ := begins_of_mem_reportAll hk h
      exact ⟨n + 1, Nat.succ_lt_succ hn, by rw [hoffset, byteLength_take_succ, Nat.add_assoc]⟩

/-- **No header and no assignment begins inside a value.**  A line that is one and begins behind
the line of a place begins behind its value.  Both begin pieces, and the value ends inside the
first of the two. -/
theorem stop_le_of_mem_scan {text : List Char} {i : Instruction} {edit : Edit} {s t : ScannedLine}
    {a : Assignment} (hedit : planEdit? text i = some edit)
    (hs : findTarget? i.target i.key (scan text) = some (s.offset, a)) (ht : t ∈ scan text)
    (hk : t.kind ≠ .other) (hlt : s.offset < t.offset) : edit.stop ≤ t.offset := by
  obtain ⟨ps, rfl, hseg⟩ := exists_segmented text
  obtain ⟨n, e, hp, rfl⟩ := planEdit?_eq_some hseg hedit
  obtain ⟨hn, he⟩ := pieceFor?_eq_some.mp hp
  have hoffset : s.offset = byteLength (textOf (ps.take n)) := by
    rw [findTarget?_textOf hseg, hn, Option.bind_some, assignmentAt?, he] at hs
    obtain ⟨b, -, hb⟩ := Option.map_eq_some_iff.mp hs
    simpa using (congrArg Prod.fst hb).symm
  rw [scan_textOf hseg] at ht
  obtain ⟨m, hm, htm⟩ := begins_of_mem_reportAll hk ht
  rw [Nat.zero_add] at htm
  -- the line begins further down, so its piece comes later
  have hnm : n < m := by
    by_contra hle
    rcases Nat.lt_or_eq_of_le (Nat.le_of_not_lt hle) with hmn | rfl
    · have := byteLength_take_le (List.getElem?_eq_getElem hm) hmn
      omega
    · omega
  have hbefore := byteLength_take_le he hnm
  have hspec := e.edit_spec (byteLength (textOf (ps.take n))) i.literal
  simp only [Piece.text] at hbefore
  omega

/-! ## 4. What a patch does

A patch is a plan carried out, and a plan that was made for a text always can be.  The text is cut
at the value in the order in which it was put together: the lines above, the lead, the value, and
all that stands behind.
-/

/-- The lines of a region are lines of the document. -/
theorem mem_of_region? {target : SectionPath} {scanned region : List ScannedLine}
    (h : region? target scanned = some region) {s : ScannedLine} (hs : s ∈ region) :
    s ∈ scanned := by
  unfold region? at h
  split at h
  · obtain rfl := Option.some.inj h
    exact (List.takeWhile_prefix _).subset hs
  · split at h
    · simp at h
    · next t behind hbehind =>
      obtain rfl := Option.some.inj h
      have hmem : s ∈ t :: behind := List.mem_cons_of_mem _ ((List.takeWhile_prefix _).subset hs)
      rw [← hbehind] at hmem
      exact (List.dropWhile_suffix _).subset hmem

/-- The value of an assignment begins where the assignment has it; one that is no multi-line
string is the value on the line. -/
theorem exists_behind_of_wholeValue? {front rest value : List Char} {a : Assignment}
    (h : wholeValue? (front ++ (a.value ++ rest)) (byteLength front) a = some value) :
    ∃ behind, a.value ++ rest = value ++ behind
      ∧ (tripleQuote? a.value = none → value = a.value ∧ behind = rest) := by
  unfold wholeValue? at h
  rw [splitAt?_byteLength] at h
  -- a value of one line is what the assignment has; a multi-line string may go beyond its line
  cases hq : tripleQuote? a.value with
  | none =>
    rw [hq] at h
    obtain rfl := Option.some.inj h
    exact ⟨rest, rfl, fun _ => ⟨rfl, rfl⟩⟩
  | some quote =>
    rw [hq] at h
    obtain ⟨⟨whole, behind⟩, hsplit, rfl⟩ := Option.map_eq_some_iff.mp h
    exact ⟨behind, (splitMultiline?_eq_some hsplit).1, by simp⟩

/-- A plan for a part of a text is carried out there. -/
theorem patch?_of_planEdit? {front value behind : List Char} {i : Instruction}
    (h : planEdit? (front ++ value ++ behind) i
      = some ⟨byteLength front, byteLength front + byteLength value, i.literal, value⟩) :
    patch? (front ++ value ++ behind) i = some (front ++ i.literal ++ behind) := by
  rw [patch?, h]
  simp only [Edit.apply, span?_append]
  simp

/-- **A patch replaces the value at its place and nothing else.**  There is a plan exactly if the
section has a place for the key.  The text then falls into what stands before the value, the value,
and what stands behind it, and the patch puts the literal between the first and the last.

Before the value stand the lines above and the lead of the assignment; behind a value of one line
stand its gap, its comment, its line ending and the lines below.  A multi-line value takes lines
below, but none that is reported as a header or an assignment. -/
theorem patch?_exact (text : List Char) (i : Instruction) :
    ((planEdit? text i).isSome = true ↔ ∃ s a stop, IsPlace text i.target i.key s a stop)
      ∧ ∀ s a stop, IsPlace text i.target i.key s a stop →
        ∃ above below front value behind,
          scan text = above ++ s :: below
          ∧ front = above.flatMap (fun t => t.line.chars) ++ a.lead
          ∧ text = front ++ value ++ behind
          ∧ byteLength front = s.offset + a.valueStart
          ∧ byteLength (front ++ value) = stop
          ∧ planEdit? text i = some ⟨s.offset + a.valueStart, stop, i.literal, value⟩
          ∧ patch? text i = some (front ++ i.literal ++ behind)
          ∧ (tripleQuote? a.value = none → value = a.value
            ∧ behind = a.gap ++ a.comment ++ s.line.ending.chars
                ++ below.flatMap fun t => t.line.chars)
          ∧ ∀ t ∈ below, t.kind ≠ .other → stop ≤ t.offset := by
  refine ⟨isSome_planEdit?_iff text i, fun s a stop hplace => ?_⟩
  obtain ⟨⟨region, hregion, hfirst⟩, hkind, hends⟩ := id hplace
  rw [a.stop?_eq] at hends
  obtain ⟨value, hvalue, rfl⟩ := Option.map_eq_some_iff.mp hends
  have hedit := planEdit?_eq_some_iff.mpr ⟨s, a, hplace, value, hvalue, rfl⟩
  have hfind : findTarget? i.target i.key (scan text) = some (s.offset, a) := by
    simp [findTarget?_eq, hregion, hfirst, ScannedLine.assignment?, hkind]
  -- the place is one of the scanned lines, so there are lines above and below it
  obtain ⟨above, below, hscan⟩ :=
    List.append_of_mem (mem_of_region? hregion (List.mem_of_find?_eq_some hfirst))
  obtain ⟨hoffset, hclass⟩ := scanLines_split hscan
  rw [hkind] at hclass
  obtain ⟨hform, hchars⟩ := classify_eq_assignment_iff.mp (hclass.resolve_left (by simp))
  -- the text, cut at the beginning of the value
  have htext : text = above.flatMap (fun t => t.line.chars) ++ a.lead
      ++ (a.value ++ (a.gap ++ a.comment ++ s.line.ending.chars
        ++ below.flatMap fun t => t.line.chars)) := by
    have hflat := flatten_scan text
    rw [hscan] at hflat
    rw [← hflat]
    simp [Line.chars, ← hchars, Assignment.chars]
  have hfront : byteLength (above.flatMap (fun t => t.line.chars) ++ a.lead)
      = s.offset + a.valueStart := by
    rw [byteLength_append, hoffset, Nat.zero_add, Assignment.valueStart]
  have hwhole := hvalue
  rw [htext, ← hfront] at hwhole
  obtain ⟨behind, hbehind, hline⟩ := exists_behind_of_wholeValue? hwhole
  rw [hbehind, ← List.append_assoc] at htext
  refine ⟨above, below, _, value, behind, hscan, rfl, htext, hfront, ?_, hedit, ?_, hline, ?_⟩
  · rw [byteLength_append, hfront]
  · have hplan := hedit
    rw [htext, ← hfront] at hplan
    rw [htext]
    exact patch?_of_planEdit? hplan
  · intro t ht hk
    -- a line below that is a header or an assignment begins behind the value
    obtain ⟨between, last, rfl⟩ := List.append_of_mem ht
    have hmem : t ∈ scan text := by simp [hscan]
    have hcut : scan text = (above ++ s :: between) ++ t :: last := by simp [hscan]
    have hafter := (scanLines_split hcut).1
    have hlead : 0 < byteLength s.line.chars := by
      obtain ⟨left, gap, hlead, -⟩ := hform.lead
      exact byteLength_pos (by simp [Line.chars, ← hchars, Assignment.chars, hlead])
    have hlt : s.offset < t.offset := by
      rw [hafter, hoffset]
      simp only [List.flatMap_append, List.flatMap_cons, byteLength_append]
      omega
    exact stop_le_of_mem_scan hedit hfind hmem hk hlt

/-- A string of two lines is replaced whole; a later duplicate, the same key at the root and in an
array of tables are left alone. -/
theorem patch?_string_of_two_lines :
    ∃ front behind,
      "k = 1\n[s]\n k = '''x\ny''' # c\nk = 2\n[[s]]\nk = 3\n".toList
          = front ++ "'''x\ny'''".toList ++ behind
        ∧ byteLength front = 15
        ∧ patch? "k = 1\n[s]\n k = '''x\ny''' # c\nk = 2\n[[s]]\nk = 3\n".toList
            ⟨⟨["s"]⟩, "k", ['7']⟩ = some (front ++ ['7'] ++ behind) := by
  let a : Assignment := ⟨⟨["k"]⟩, " k = ".toList, "'''x".toList, [], []⟩
  let s : ScannedLine := ⟨10, ⟨a.chars, .lf⟩, .assignment a⟩
  have hplace : IsPlace "k = 1\n[s]\n k = '''x\ny''' # c\nk = 2\n[[s]]\nk = 3\n".toList
      ⟨["s"]⟩ "k" s a 24 :=
    ⟨Option.bind_eq_some_iff.mp (by decide +kernel), rfl, by decide +kernel⟩
  obtain ⟨-, -, front, value, behind, -, -, htext, hfront, -, hplan, hpatch, -⟩ :=
    (patch?_exact _ ⟨⟨["s"]⟩, "k", ['7']⟩).2 s a 24 hplace
  have hexpected : planEdit? "k = 1\n[s]\n k = '''x\ny''' # c\nk = 2\n[[s]]\nk = 3\n".toList
      ⟨⟨["s"]⟩, "k", ['7']⟩ = some ⟨15, 24, ['7'], "'''x\ny'''".toList⟩ := by decide +kernel
  have hvalue : value = "'''x\ny'''".toList := by
    have := Option.some.inj (hplan.symm.trans hexpected)
    exact congrArg Edit.expected this
  rw [hvalue] at htext
  exact ⟨front, behind, htext, hfront, hpatch⟩

end TomlKeep
