/-
# The grammar of dotted paths

A dotted path is a segment, or several with a dot between each two, and blanks may stand around
every segment.  Here this is said of the text alone (`IsSegment`, `IsPathText`), with the names
that the segments stand for, and `segments` is shown to read exactly the texts of the grammar
(`segments_first_iff`): one that it refuses has no derivation, and one that it reads has only the
derivation with the names that it gives.

The reader keeps nothing but its place in a segment.  So the argument is about what may follow at
each place (`PathPlace.Continues`), by the reader's recursion in the one direction and by the
derivation in the other.
-/
import TomlKeep.Proofs.QuotedPaths

namespace TomlKeep

open Text

/-! ## 1. The grammar

Nothing in it refers to the reader.  What an escape stands for is a table of the grammar itself,
and the theorems below would fail for a reader with another one.
-/

/-- Blanks only. -/
def IsBlanks (text : List Char) : Prop := ∀ c ∈ text, isBlank c = true

/-- **What an escape stands for** between double quotes: the letters `n`, `t` and `r` for a line
feed, a tab and a carriage return, any other character for itself. -/
inductive IsEscape : Char → Char → Prop where
  | feed : IsEscape 'n' '\n'
  | tab : IsEscape 't' '\t'
  | ret : IsEscape 'r' '\r'
  | self {c : Char} : c ∉ ['n', 't', 'r'] → IsEscape c c

/-- **A text between double quotes,** and the name that it stands for.  A quote stands in it only
behind a backslash, and so does a backslash. -/
inductive IsQuotedText : List Char → List Char → Prop where
  | nil : IsQuotedText [] []
  | char {c : Char} {body name : List Char} : c ≠ '"' → c ≠ '\\' → IsQuotedText body name →
      IsQuotedText (c :: body) (c :: name)
  | escape {c d : Char} {body name : List Char} : IsEscape c d → IsQuotedText body name →
      IsQuotedText ('\\' :: c :: body) (d :: name)

/-- **A segment** as it is written, and the name that it stands for. -/
inductive IsSegment : List Char → List Char → Prop where
  | bare {name : List Char} : IsPlain name → IsSegment name name
  | single {name : List Char} : '\'' ∉ name → IsSegment ('\'' :: (name ++ ['\''])) name
  | double {body name : List Char} : IsQuotedText body name →
      IsSegment ('"' :: (body ++ ['"'])) name

/-- **A dotted path** as it is written, and the names of its segments. -/
inductive IsPathText : List Char → List (List Char) → Prop where
  | last {before segment behind name : List Char} : IsBlanks before → IsSegment segment name →
      IsBlanks behind → IsPathText (before ++ segment ++ behind) [name]
  | dot {before segment behind name rest : List Char} {names : List (List Char)} :
      IsBlanks before → IsSegment segment name → IsBlanks behind → IsPathText rest names →
      IsPathText (before ++ segment ++ behind ++ '.' :: rest) (name :: names)

/-- What may stand behind a segment: blanks, and then the end or a dot and another path. -/
inductive IsBehind : List Char → List (List Char) → Prop where
  | done {blanks : List Char} : IsBlanks blanks → IsBehind blanks []
  | dot {blanks rest : List Char} {names : List (List Char)} : IsBlanks blanks →
      IsPathText rest names → IsBehind (blanks ++ '.' :: rest) names

/-- The reader has the table of the grammar.  This is the one place where the two tables meet. -/
theorem isEscape_iff {c d : Char} : IsEscape c d ↔ unescapeKeyChar c = d := by
  constructor
  · rintro (_ | _ | _ | hc)
    · rfl
    · rfl
    · rfl
    · simp only [List.mem_cons, List.not_mem_nil, or_false, not_or] at hc
      rw [unescapeKeyChar, if_neg hc.1, if_neg hc.2.1, if_neg hc.2.2]
  · rintro rfl
    rw [unescapeKeyChar]
    split
    · next hc => exact hc ▸ .feed
    · next hn =>
      split
      · next hc => exact hc ▸ .tab
      · next ht =>
        split
        · next hc => exact hc ▸ .ret
        · next hr => exact .self (by simp [hn, ht, hr])

/-- **A text between double quotes ends at its quote,** and the reader makes its name of it.  So
the two halves of reading, where the text ends and what it stands for, are one relation of the
grammar. -/
theorem isQuotedText_iff {body name : List Char} :
    IsQuotedText body name ↔ QuotedBody body ∧ unescapeKey body = name := by
  constructor
  · intro h
    induction h with
    | nil => exact ⟨.nil, rfl⟩
    | char hq hs _ ih =>
      obtain ⟨hbody, rfl⟩ := ih
      exact ⟨.char hq hs hbody, unescapeKey_char hs _⟩
    | escape he _ ih =>
      obtain ⟨hbody, rfl⟩ := ih
      exact ⟨.hidden hbody, by rw [unescapeKey, isEscape_iff.mp he]⟩
  · rintro ⟨h, rfl⟩
    induction h with
    | nil => exact .nil
    | char hq hs _ ih =>
      rw [unescapeKey_char hs]
      exact .char hq hs ih
    | hidden _ ih =>
      rw [unescapeKey]
      exact .escape (isEscape_iff.mpr rfl) ih

/-- No blanks are blanks. -/
theorem isBlanks_nil : IsBlanks [] := List.forall_mem_nil _

/-- One more blank in front. -/
theorem IsBlanks.cons {c : Char} {blanks : List Char} (hc : isBlank c = true)
    (h : IsBlanks blanks) : IsBlanks (c :: blanks) :=
  List.forall_mem_cons.mpr ⟨hc, h⟩

/-- A blank more behind a segment changes nothing of what follows. -/
theorem IsBehind.cons {c : Char} {text : List Char} {names : List (List Char)}
    (hc : isBlank c = true) (h : IsBehind text names) : IsBehind (c :: text) names := by
  cases h with
  | done hb => exact .done (hb.cons hc)
  | dot hb hr => exact .dot (hb.cons hc) hr

/-- A blank more in front of a path changes none of its names. -/
theorem IsPathText.cons {c : Char} {text : List Char} {names : List (List Char)}
    (hc : isBlank c = true) (h : IsPathText text names) : IsPathText (c :: text) names := by
  cases h with
  | last hb hs ha => exact .last (hb.cons hc) hs ha
  | dot hb hs ha hr => exact .dot (hb.cons hc) hs ha hr

/-- A segment and what stands behind it are a path. -/
theorem IsSegment.path {segment name rest : List Char} {names : List (List Char)}
    (h : IsSegment segment name) (hr : IsBehind rest names) :
    IsPathText (segment ++ rest) (name :: names) := by
  cases hr with
  | done hb => exact .last isBlanks_nil h hb
  | @dot blanks tail _ hb ht =>
    rw [← List.append_assoc]
    exact .dot isBlanks_nil h hb ht

/-- What stands behind a segment ends it for the reader, too. -/
theorem IsBehind.endsSegment {text : List Char} {names : List (List Char)}
    (h : IsBehind text names) : EndsSegment text := by
  cases h with
  | @done blanks hb =>
    rw [← List.append_nil text]
    exact endsSegment_blanks hb (.inl rfl)
  | dot hb _ => exact endsSegment_blanks hb (.inr ⟨_, rfl⟩)

/-! ## 2. What is read is a path

The induction follows the reader from place to place, and at each place the text still to come is a
part of a derivation: the rest of a name and what follows it, or what may follow a segment.  The
lemmas before `continues_of_segments` are its steps, each for a character that the reader takes.
-/

/-- **What stands from a place on,** with the names that are read from there.  In a segment the
first name is the rest of its own. -/
def PathPlace.Continues : PathPlace → List Char → List (List Char) → Prop
  | .first, text, names | .next, text, names => IsPathText text names
  | .behind, text, names => IsBehind text names
  | .bare, text, names => ∃ name rest more, text = name ++ rest ∧ names = name :: more
      ∧ (∀ c ∈ name, isPlainChar c = true) ∧ IsBehind rest more
  | .single, text, names => ∃ name rest more, text = name ++ '\'' :: rest ∧ names = name :: more
      ∧ '\'' ∉ name ∧ IsBehind rest more
  | .double, text, names => ∃ body name rest more, text = body ++ '"' :: rest
      ∧ names = name :: more ∧ IsQuotedText body name ∧ IsBehind rest more

/-- At the start of a segment, first or not, a path is to come. -/
theorem continues_of_isStart {place : PathPlace} (hp : place.IsStart) {text : List Char}
    {names : List (List Char)} : PathPlace.Continues place text names ↔ IsPathText text names := by
  cases place with
  | first | next => exact Iff.rfl
  | bare | single | double | behind => exact absurd hp (by simp [PathPlace.IsStart])

/-- A bare name may end wherever what follows a segment stands. -/
theorem continues_bare_of_behind {text : List Char} {names : List (List Char)}
    (h : IsBehind text names) : PathPlace.Continues .bare text ([] :: names) :=
  ⟨[], text, names, rfl, rfl, List.forall_mem_nil _, h⟩

/-- A plain character more in a bare name. -/
theorem PathPlace.Continues.bareChar {c : Char} (hc : isPlainChar c = true) {text : List Char}
    {names : List (List Char)} (h : PathPlace.Continues .bare text names) :
    PathPlace.Continues .bare (c :: text) (pushHead c names) := by
  obtain ⟨name, rest, more, rfl, rfl, hname, hr⟩ := h
  exact ⟨c :: name, rest, more, rfl, rfl, List.forall_mem_cons.mpr ⟨hc, hname⟩, hr⟩

/-- The first character of a bare segment begins a path. -/
theorem PathPlace.Continues.begin {c : Char} (hc : isPlainChar c = true) {text : List Char}
    {names : List (List Char)} (h : PathPlace.Continues .bare text names) :
    IsPathText (c :: text) (pushHead c names) := by
  obtain ⟨name, rest, more, rfl, rfl, hname, hr⟩ := h
  have hplain : IsPlain (c :: name) :=
    ⟨List.cons_ne_nil c name, List.forall_mem_cons.mpr ⟨hc, hname⟩⟩
  exact (IsSegment.bare hplain).path hr

/-- An opening single quote: the rest of the name between quotes becomes a segment. -/
theorem PathPlace.Continues.openSingle {text : List Char} {names : List (List Char)}
    (h : PathPlace.Continues .single text names) : IsPathText ('\'' :: text) names := by
  obtain ⟨name, rest, more, rfl, rfl, hname, hr⟩ := h
  have hpath := (IsSegment.single hname).path hr
  rwa [List.cons_append, List.append_assoc] at hpath

/-- An opening double quote, likewise. -/
theorem PathPlace.Continues.openDouble {text : List Char} {names : List (List Char)}
    (h : PathPlace.Continues .double text names) : IsPathText ('"' :: text) names := by
  obtain ⟨body, name, rest, more, rfl, rfl, hbody, hr⟩ := h
  have hpath := (IsSegment.double hbody).path hr
  rwa [List.cons_append, List.append_assoc] at hpath

/-- **What the reader reads is there.**  The cases are those of the reader: first the ends of the
text and the characters that it refuses, and then place by place the ones that it takes. -/
theorem continues_of_segments (place : PathPlace) (text : List Char) :
    ∀ {names : List (List Char)}, segments place text = .ok names →
      PathPlace.Continues place text names := by
  fun_induction segments place text with
  -- the text is refused
  | case1 | case2 | case5 | case6 | case13 | case17 | case19 | case20 =>
    intro names h
    cases h
  | case3 =>
    intro names h
    obtain rfl := Except.ok.inj h
    exact continues_bare_of_behind (.done isBlanks_nil)
  | case4 =>
    intro names h
    obtain rfl := Except.ok.inj h
    exact .done isBlanks_nil
  -- between single quotes: the one that closes, and a character
  | case7 rest ih =>
    intro names h
    obtain ⟨more, hm, rfl⟩ := map_eq_ok.mp h
    exact ⟨[], rest, more, rfl, rfl, List.not_mem_nil, ih hm⟩
  | case8 c rest hc ih =>
    intro names h
    obtain ⟨more, hm, rfl⟩ := map_eq_ok.mp h
    obtain ⟨name, tail, others, rfl, rfl, hname, hr⟩ := ih hm
    exact ⟨c :: name, tail, others, rfl, rfl, by simp [hname, Ne.symm hc], hr⟩
  -- between double quotes: an escape, the quote that closes, and a character
  | case9 c rest ih =>
    intro names h
    obtain ⟨more, hm, rfl⟩ := map_eq_ok.mp h
    obtain ⟨body, name, tail, others, rfl, rfl, hbody, hr⟩ := ih hm
    have hescape : IsEscape c (unescapeKeyChar c) := isEscape_iff.mpr rfl
    exact ⟨'\\' :: c :: body, unescapeKeyChar c :: name, tail, others, rfl, rfl,
      .escape hescape hbody, hr⟩
  | case10 rest _ ih =>
    intro names h
    obtain ⟨more, hm, rfl⟩ := map_eq_ok.mp h
    exact ⟨[], [], rest, more, rfl, rfl, .nil, ih hm⟩
  | case11 c rest hlone hc ih =>
    intro names h
    obtain ⟨more, hm, rfl⟩ := map_eq_ok.mp h
    obtain ⟨body, name, tail, others, rfl, rfl, hbody, hr⟩ := ih hm
    -- a backslash has a character behind it, since the string is closed
    have hslash : c ≠ '\\' := by
      rintro rfl
      cases body with
      | nil => exact hlone _ _ rfl rfl
      | cons d body => exact hlone _ _ rfl rfl
    exact ⟨c :: body, c :: name, tail, others, rfl, rfl, .char hc hslash hbody, hr⟩
  -- in a bare name: a dot, a blank, and a plain character
  | case12 rest ih =>
    intro names h
    obtain ⟨more, hm, rfl⟩ := map_eq_ok.mp h
    exact continues_bare_of_behind (.dot isBlanks_nil (ih hm))
  | case14 c rest _ _ hb ih =>
    intro names h
    obtain ⟨more, hm, rfl⟩ := map_eq_ok.mp h
    exact continues_bare_of_behind (IsBehind.cons hb (ih hm))
  | case15 c rest h1 h2 h3 ih =>
    intro names h
    obtain ⟨more, hm, rfl⟩ := map_eq_ok.mp h
    exact (ih hm).bareChar (isPlainChar_iff.mpr ⟨h1, h2, h3⟩)
  -- behind a segment: a dot, and a blank
  | case16 rest ih => exact fun h => IsBehind.dot isBlanks_nil (ih h)
  | case18 c rest _ _ hb ih => exact fun h => IsBehind.cons hb (ih h)
  -- at the start of a segment: the quotes, a blank, and a plain character
  | case21 place rest h1 h2 h3 h4 _ _ ih =>
    intro names h
    have hs := PathPlace.isStart_of_ne h1 h2 h3 h4
    exact (continues_of_isStart hs).mpr (ih h).openDouble
  | case22 place rest h1 h2 h3 h4 _ _ _ ih =>
    intro names h
    have hs := PathPlace.isStart_of_ne h1 h2 h3 h4
    exact (continues_of_isStart hs).mpr (ih h).openSingle
  | case23 place c rest h1 _ h2 h3 h4 _ _ _ hb ih =>
    intro names h
    have hs := PathPlace.isStart_of_ne h1 h2 h3 h4
    exact (continues_of_isStart hs).mpr (((continues_of_isStart hs).mp (ih h)).cons hb)
  | case24 place c rest h1 _ h2 h3 h4 hd hq hq' hb ih =>
    intro names h
    obtain ⟨more, hm, rfl⟩ := map_eq_ok.mp h
    have hs := PathPlace.isStart_of_ne h1 h2 h3 h4
    have hplain := isPlainChar_iff.mpr ⟨hd, not_or.mpr ⟨hq, hq'⟩, hb⟩
    exact (continues_of_isStart hs).mpr ((ih hm).begin hplain)

/-! ## 3. A path is read

For the other direction the derivation says where each segment ends, and the reader, which does not
know this, comes to the same end: a bare name ends at what may follow it, a quoted one at its quote.
-/

/-- A segment is read as its name, whatever it is followed by. -/
theorem IsSegment.segments {segment name : List Char} (h : IsSegment segment name)
    {place : PathPlace} (hp : place.IsStart) {rest : List Char} (hr : EndsSegment rest) :
    segments place (segment ++ rest) = (segments .behind rest).map (name :: ·) := by
  cases h with
  | bare hplain => exact segments_part hp hplain hr
  | @single name hname =>
    have hbody := segments_single rest hname
    rw [List.cons_append, List.append_assoc, List.singleton_append]
    cases place with
    | first | next => simp [TomlKeep.segments, hbody]
    | bare | single | double | behind => exact absurd hp (by simp [PathPlace.IsStart])
  | @double body name htext =>
    obtain ⟨hquoted, rfl⟩ := isQuotedText_iff.mp htext
    have hbody := segments_double hquoted rest
    rw [List.cons_append, List.append_assoc, List.singleton_append]
    cases place with
    | first | next => simp [TomlKeep.segments, hbody]
    | bare | single | double | behind => exact absurd hp (by simp [PathPlace.IsStart])

/-- **Every path of the grammar is read,** as the names of its segments. -/
theorem IsPathText.segments {text : List Char} {names : List (List Char)}
    (h : IsPathText text names) :
    ∀ {place : PathPlace}, place.IsStart → segments place text = .ok names := by
  -- the blanks in front, the segment, what follows it
  induction h with
  | @last before segment behind name hb hs ha =>
    intro place hp
    have hend := (IsBehind.done ha).endsSegment
    have hbehind : TomlKeep.segments .behind behind = .ok [] := by
      rw [← List.append_nil behind, segments_behind_blanks [] ha, TomlKeep.segments]
    rw [List.append_assoc, segments_blanks hp _ hb, hs.segments hp hend, hbehind]
    rfl
  | @dot before segment behind name rest names hb hs ha hr ih =>
    intro place hp
    have hend := (IsBehind.dot ha hr).endsSegment
    have hnext : PathPlace.next.IsStart := trivial
    rw [List.append_assoc, List.append_assoc, segments_blanks hp _ hb, hs.segments hp hend,
      segments_behind_blanks _ ha, TomlKeep.segments, if_pos rfl, ih hnext]
    rfl

/-- **The reader accepts the grammar and nothing else.**  As the reader is a function, a text has
one list of names at most, so the grammar is not ambiguous either. -/
theorem segments_first_iff {text : List Char} {names : List (List Char)} :
    segments .first text = .ok names ↔ IsPathText text names :=
  ⟨fun h => continues_of_segments .first text h, fun h => h.segments trivial⟩

/-! ## 4. Names in quotes with blanks around them

The last part of the grammar is how a path is to be written: any names can be, each in quotes.
-/

/-- A name that is written in double quotes, with blanks around it. -/
structure SpacedName where
  before : List Char
  name : String
  behind : List Char
  blankBefore : IsBlanks before
  blankBehind : IsBlanks behind

/-- The name as it is written. -/
def SpacedName.chars (s : SpacedName) : List Char :=
  s.before ++ quotedPart s.name.toList ++ s.behind

/-- A part in quotes is a segment of its own name. -/
theorem isSegment_quotedPart (part : List Char) : IsSegment (quotedPart part) part :=
  .double (isQuotedText_iff.mpr (guarded part))

/-- **Names in quotes are a path,** whatever blanks stand around them. -/
theorem isPathText_spaced : ∀ {parts : List SpacedName}, parts ≠ [] →
    IsPathText (['.'].intercalate (parts.map SpacedName.chars)) (parts.map (·.name.toList))
  | [], hne => absurd rfl hne
  | [s], _ => by
    rw [List.map_singleton, List.intercalate_singleton, List.map_singleton]
    exact .last s.blankBefore (isSegment_quotedPart _) s.blankBehind
  -- the other names are a path by the induction, and the dot stands in front of it
  | s :: next :: more, _ => by
    have ih := isPathText_spaced (List.cons_ne_nil next more)
    rw [List.map_cons] at ih
    rw [List.map_cons, List.map_cons, List.intercalate_cons_cons, List.append_assoc,
      List.singleton_append, List.map_cons]
    exact .dot s.blankBefore (isSegment_quotedPart _) s.blankBehind ih

/-! ## 5. Key paths and section paths

The two readers of the program are one reader with two names for its results, and their names are
strings.
-/

/-- A section path is read as a key path is. -/
theorem sectionPath_parse_eq_ok {text : List Char} {names : List String} :
    SectionPath.parse text = .ok ⟨names⟩ ↔ KeyPath.parse text = .ok ⟨names⟩ := by
  rw [KeyPath.parse, SectionPath.parse]
  cases segments .first text <;> simp

/-- A key path is read as the names of a derivation, and only so. -/
theorem parse_eq_ok_iff_isPathText {text : List Char} {names : List String} :
    KeyPath.parse text = .ok ⟨names⟩ ↔ IsPathText text (names.map String.toList) :=
  parse_eq_ok.trans segments_first_iff

/-- A text has a derivation exactly if it is read. -/
theorem exists_isPathText_iff {text : List Char} :
    (∃ names, IsPathText text names) ↔ ∃ key, KeyPath.parse text = .ok key := by
  constructor
  · rintro ⟨names, h⟩
    refine ⟨⟨names.map String.ofList⟩, parse_eq_ok_iff_isPathText.mpr ?_⟩
    simpa [List.map_map, Function.comp_def] using h
  · rintro ⟨⟨names⟩, h⟩
    exact ⟨_, parse_eq_ok_iff_isPathText.mp h⟩

/-- **The key-path reader accepts exactly the grammar,** and so does the section-path reader;
both give the names of the segments in order.  Hence every list of names can be written so that
both read it: in double quotes, with a dot between each two and any blanks around each of them. -/
theorem parse_accepts_grammar :
    (∀ text, ((∃ key, KeyPath.parse text = .ok key) ↔ ∃ names, IsPathText text names)
        ∧ ((∃ path, SectionPath.parse text = .ok path) ↔ ∃ names, IsPathText text names))
      ∧ (∀ (text : List Char) (names : List String),
        (KeyPath.parse text = .ok ⟨names⟩ ↔ IsPathText text (names.map String.toList))
          ∧ (SectionPath.parse text = .ok ⟨names⟩ ↔ IsPathText text (names.map String.toList)))
      ∧ ∀ parts : List SpacedName, parts ≠ [] →
        KeyPath.parse (['.'].intercalate (parts.map SpacedName.chars))
            = .ok ⟨parts.map SpacedName.name⟩
          ∧ SectionPath.parse (['.'].intercalate (parts.map SpacedName.chars))
            = .ok ⟨parts.map SpacedName.name⟩ := by
  have hsection (text : List Char) : (∃ path, SectionPath.parse text = .ok path)
      ↔ ∃ key, KeyPath.parse text = .ok key := by
    constructor
    · rintro ⟨⟨names⟩, h⟩
      exact ⟨⟨names⟩, sectionPath_parse_eq_ok.mp h⟩
    · rintro ⟨⟨names⟩, h⟩
      exact ⟨⟨names⟩, sectionPath_parse_eq_ok.mpr h⟩
  -- what is accepted, the names, and the names in quotes
  refine ⟨fun text => ⟨exists_isPathText_iff.symm, ?_⟩, fun text names => ⟨?_, ?_⟩,
    fun parts hne => ?_⟩
  · exact (hsection text).trans exists_isPathText_iff.symm
  · exact parse_eq_ok_iff_isPathText
  · exact sectionPath_parse_eq_ok.trans parse_eq_ok_iff_isPathText
  · have hpath := isPathText_spaced hne
    have hnames : parts.map (·.name.toList) = (parts.map SpacedName.name).map String.toList := by
      rw [List.map_map]
      rfl
    rw [hnames] at hpath
    have hparse := parse_eq_ok_iff_isPathText.mpr hpath
    exact ⟨hparse, sectionPath_parse_eq_ok.mpr hparse⟩

/-- An empty name, one with a dot and a quote and one with a backslash in front of an `n`, with a
wide space, a tab and a line feed around them. -/
theorem parse_accepts_grammar_names :
    let text := "\u3000\"\"\t.\"a.\\\"b\" .\n\"\\\\n\"".toList
    let parts : List SpacedName := [
      ⟨['\u3000'], "", ['\t'], by simp [IsBlanks]; rfl, by simp [IsBlanks]; rfl⟩,
      ⟨[], "a.\"b", [' '], isBlanks_nil, by simp [IsBlanks]; rfl⟩,
      ⟨['\n'], "\\n", [], by simp [IsBlanks]; rfl, isBlanks_nil⟩]
    parts ≠ [] ∧ text = ['.'].intercalate (parts.map SpacedName.chars)
      ∧ KeyPath.parse text = .ok ⟨["", "a.\"b", "\\n"]⟩
      ∧ SectionPath.parse text = .ok ⟨["", "a.\"b", "\\n"]⟩ := by
  intro text parts
  have hne : parts ≠ [] := List.cons_ne_nil _ _
  have htext : text = ['.'].intercalate (parts.map SpacedName.chars) := by decide
  rw [htext]
  exact ⟨hne, rfl, parse_accepts_grammar.2.2 parts hne⟩

end TomlKeep
