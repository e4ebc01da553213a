/-
# Keys in a line

A key is a text that the path reader reads as names and that every search of a line steps over
(`IsKey`).  Keys are made of simple keys with dots between them (`IsSimpleKey.isKey`,
`IsSimpleKey.dot`), and a simple key is bare, in single quotes or in double quotes.

* A key in front of an equals sign makes the lead of an assignment (`IsKey.isLead`); any blanks
  may stand around it (`IsKey.isLead_blanks`).
* A key in brackets makes a header (`IsKey.classify_header`).
-/
import TomlKeep.Proofs.Quotes
import TomlKeep.Proofs.Shape
import TomlKeep.Proofs.Literals
import TomlKeep.Toml.Term

namespace TomlKeep

open Text

/-! ## 1. Characters

A bare key, a gap and a blank are told by their characters.  What is needed of each is what it is
not: no quote, no dot, no bracket, no hash and no equals sign, since these are what the searches and
the path reader stop at.
-/

/-- A character of a bare key is none that is excluded. -/
theorem isBareKeyChar_ne {c d : Char} (h : Toml.isBareKeyChar c = true)
    (hd : Toml.isBareKeyChar d = false) : c ≠ d := by
  rintro rfl
  simp [h] at hd

/-- A character of a bare key is no blank. -/
theorem not_isBlank_of_isBareKeyChar {c : Char} (h : Toml.isBareKeyChar c = true) :
    isBlank c = false := by
  simp only [Toml.isBareKeyChar, Bool.or_eq_true, beq_iff_eq] at h
  rcases h with (h | rfl) | rfl
  · rw [isAlphanum_iff] at h
    simp only [isBlank, Bool.or_eq_false_iff, Bool.and_eq_false_iff, decide_eq_false_iff_not,
      beq_eq_false_iff_ne]
    omega
  · decide
  · decide

/-- Spaces and tabs only. -/
def IsGapText (text : List Char) : Prop := ∀ c ∈ text, isGap c = true

instance (text : List Char) : Decidable (IsGapText text) :=
  decidable_of_iff (text.all isGap = true) List.all_eq_true

/-- A character of a gap is a blank and separates nothing. -/
theorem IsGapText.not_quote {c : Char} (h : isGap c = true) :
    c ≠ '.' ∧ c ≠ '"' ∧ c ≠ '\'' ∧ isBlank c = true := by
  refine ⟨?_, ?_, ?_, isBlank_of_isGap h⟩
  all_goals
    rintro rfl
    exact absurd h (by decide)

/-- A search goes through a gap, if spaces and tabs are not what it looks for. -/
theorem IsGapText.outside {gap : List Char} (h : IsGapText gap) {p : Char → Bool}
    (h1 : p ' ' = true) (h2 : p '\t' = true) : Outside p gap := by
  refine outside_of_forall fun c hc => ?_
  have := h c hc
  simp only [isGap, Bool.or_eq_true, beq_iff_eq] at this
  rcases this with rfl | rfl
  · exact ⟨by decide, by decide, h1⟩
  · exact ⟨by decide, by decide, h2⟩

theorem IsGapText.not_mem {gap : List Char} (h : IsGapText gap) {c : Char} (hc : isGap c = false) :
    c ∉ gap := by
  intro hm
  simp [h c hm] at hc

theorem IsGapText.append {a b : List Char} (ha : IsGapText a) (hb : IsGapText b) :
    IsGapText (a ++ b) := fun c hc => (List.mem_append.mp hc).elim (ha c) (hb c)

/-- Blanks in front of a text are trimmed, up to its first other character. -/
theorem trimStart_blanks {blanks text : List Char} (hb : ∀ c ∈ blanks, isBlank c = true)
    (ht : ∀ c, text.head? = some c → isBlank c = false) : trimStart (blanks ++ text) = text :=
  (takeWhile_append_stop hb ht).2

theorem trimStart_gap {gap text : List Char} (hg : IsGapText gap)
    (ht : ∀ c, text.head? = some c → isBlank c = false) : trimStart (gap ++ text) = text :=
  trimStart_blanks (fun c hc => isBlank_of_isGap (hg c hc)) ht

/-- Blanks around a text are trimmed with those of its own. -/
theorem trim_blanks {before text after : List Char} (hb : ∀ c ∈ before, isBlank c = true)
    (ha : ∀ c ∈ after, isBlank c = true) : trim (before ++ (text ++ after)) = trim text := by
  have hafter : after.dropWhile isBlank = [] := List.dropWhile_eq_nil_iff.mpr ha
  have hstart : trimStart (before ++ (text ++ after)) = (text ++ after).dropWhile isBlank :=
    List.dropWhile_append_of_pos hb
  rw [trim, hstart, List.dropWhile_append, trim, trimStart, trimEnd, trimEnd, hafter]
  -- a text of blanks only, or one that keeps its first character
  split
  · next hnil => rw [List.isEmpty_iff.mp hnil]
  · exact dropEnd_append_of_forall ha

theorem trim_append_blanks {text after : List Char} (ha : ∀ c ∈ after, isBlank c = true) :
    trim (text ++ after) = trim text :=
  trim_blanks (List.forall_mem_nil _) ha

/-- A text without blanks at its ends is left by trimming. -/
theorem trim_of_ends {text : List Char}
    (h : ∀ c, text.head? = some c ∨ text.getLast? = some c → isBlank c = false) :
    trim text = text := by
  cases text with
  | nil => rfl
  | cons c rest =>
    have hstart : trimStart (c :: rest) = c :: rest := by
      simp [trimStart, h c (.inl rfl)]
    have hend : dropEnd isBlank (c :: rest ++ []) = c :: rest :=
      dropEnd_append (fun d hd => h d (.inr hd)) (by simp)
    rw [trim, hstart, trimEnd, ← List.append_nil (c :: rest), hend, List.append_nil]

/-! ## 2. Reading segments

The path reader is an automaton with the places of a segment for its states.  Each part of a key
takes it from one place to another: blanks leave it where it is, and a segment takes it from where
one may begin to where one has ended, with its name put in front of what is read of the rest.
-/

/-- Where a segment may begin. -/
def PathPlace.IsStart : PathPlace → Prop
  | .first | .next => True
  | _ => False

/-- A place that is none of the others is where a segment may begin. -/
theorem PathPlace.isStart_of_ne {place : PathPlace} (h1 : place = .single → False)
    (h2 : place = .double → False) (h3 : place = .bare → False) (h4 : place = .behind → False) :
    place.IsStart := by
  cases place with
  | first | next => trivial
  | single => exact h1 rfl
  | double => exact h2 rfl
  | bare => exact h3 rfl
  | behind => exact h4 rfl

/-- A blank is neither a dot nor a quote. -/
theorem ne_of_isBlank {c : Char} (h : isBlank c = true) : c ≠ '.' ∧ c ≠ '"' ∧ c ≠ '\'' := by
  refine ⟨?_, ?_, ?_⟩
  all_goals
    rintro rfl
    exact absurd h (by decide)

/-- Blanks in front of a segment do not count. -/
theorem segments_blanks {place : PathPlace} (hp : place.IsStart) (rest : List Char) :
    ∀ {blanks : List Char}, (∀ c ∈ blanks, isBlank c = true) →
      segments place (blanks ++ rest) = segments place rest
  | [], _ => rfl
  | c :: blanks, h => by
    obtain ⟨hc, hb⟩ := List.forall_mem_cons.mp h
    obtain ⟨h1, h2, h3⟩ := ne_of_isBlank hc
    rw [← segments_blanks hp rest hb]
    -- only where a segment may begin are blanks passed over
    cases place with
    | first | next => simp [segments, h1, h2, h3, hc]
    | bare | single | double | behind => exact absurd hp (by simp [PathPlace.IsStart])

/-- Blanks behind a segment do not count. -/
theorem segments_behind_blanks (rest : List Char) : ∀ {blanks : List Char},
    (∀ c ∈ blanks, isBlank c = true) → segments .behind (blanks ++ rest) = segments .behind rest
  | [], _ => rfl
  | c :: blanks, h => by
    obtain ⟨hc, hb⟩ := List.forall_mem_cons.mp h
    obtain ⟨h1, h2, h3⟩ := ne_of_isBlank hc
    rw [← segments_behind_blanks rest hb]
    simp [segments, h1, h2, h3, hc]

theorem IsGapText.isBlank {gap : List Char} (h : IsGapText gap) : ∀ c ∈ gap, isBlank c = true :=
  fun c hc => isBlank_of_isGap (h c hc)

/-- A character in front of the first name of a result. -/
theorem map_map_pushHead (c : Char) (text : List Char)
    (result : Except PathFault (List (List Char))) :
    (result.map (text :: ·)).map (pushHead c) = result.map ((c :: text) :: ·) := by
  cases result <;> rfl

/-- What may stand behind a bare segment. -/
def EndsSegment (rest : List Char) : Prop :=
  ∀ c, rest.head? = some c → c = '.' ∨ (isBlank c = true ∧ c ≠ '"' ∧ c ≠ '\'')

/-- Blanks end a bare segment, and so does a dot behind them. -/
theorem endsSegment_blanks {blanks rest : List Char} (h : ∀ c ∈ blanks, isBlank c = true)
    (hr : rest = [] ∨ ∃ tail, rest = '.' :: tail) : EndsSegment (blanks ++ rest) := by
  intro c hc
  cases blanks with
  | nil =>
    rcases hr with rfl | ⟨tail, rfl⟩
    · simp at hc
    · exact .inl (by simpa [eq_comm] using hc)
  | cons d blanks =>
    obtain rfl : d = c := by simpa using hc
    have hd := h d (by simp)
    exact .inr ⟨hd, (ne_of_isBlank hd).2⟩

/-- A bare segment is read up to what ends it. -/
theorem segments_bare {rest : List Char} (hr : EndsSegment rest) : ∀ {text : List Char},
    (∀ c ∈ text, Toml.isBareKeyChar c = true) →
      segments .bare (text ++ rest) = (segments .behind rest).map (text :: ·)
  | [], _ => by
    cases rest with
    | nil => rfl
    | cons c rest =>
      rcases hr c rfl with rfl | ⟨hb, h1, h2⟩
      · simp [segments]
      · by_cases hd : c = '.'
        · simp [segments, hd]
        · simp [segments, hb, h1, h2, hd]
  | c :: text, h => by
    obtain ⟨hc, ht⟩ := List.forall_mem_cons.mp h
    have h1 := isBareKeyChar_ne (d := '.') hc (by decide)
    have h2 := isBareKeyChar_ne (d := '"') hc (by decide)
    have h3 := isBareKeyChar_ne (d := '\'') hc (by decide)
    have h4 := not_isBlank_of_isBareKeyChar hc
    simp [segments, h1, h2, h3, h4, segments_bare hr ht, map_map_pushHead]

/-- A segment in single quotes is read up to its quote. -/
theorem segments_single (rest : List Char) : ∀ {text : List Char}, '\'' ∉ text →
    segments .single (text ++ '\'' :: rest) = (segments .behind rest).map (text :: ·)
  | [], _ => by simp [segments]
  | c :: text, h => by
    simp only [List.mem_cons, not_or] at h
    simp [segments, Ne.symm h.1, segments_single rest h.2, map_map_pushHead]

/-- What the path reader makes of the body of a string in double quotes. -/
def unescapeKey : List Char → List Char
  | '\\' :: c :: rest => unescapeKeyChar c :: unescapeKey rest
  | c :: rest => c :: unescapeKey rest
  | [] => []

/-- A character that is no backslash stands for itself. -/
theorem unescapeKey_char {c : Char} (hc : c ≠ '\\') (rest : List Char) :
    unescapeKey (c :: rest) = c :: unescapeKey rest := by
  cases rest with
  | nil => simp [unescapeKey]
  | cons d rest => simp [unescapeKey, hc]

/-- A segment in double quotes is read up to its quote, with its escapes undone.  The induction
is on the body, whose cases are those of the reader. -/
theorem segments_double {body : List Char} (h : QuotedBody body) (rest : List Char) :
    segments .double (body ++ '"' :: rest)
      = (segments .behind rest).map (unescapeKey body :: ·) := by
  induction h with
  | nil => simp [segments, unescapeKey]
  | @char c text h1 h2 _ ih =>
    simp [segments, h1, h2, ih, unescapeKey_char h2, map_map_pushHead]
  | hidden _ ih => simp [segments, ih, unescapeKey, map_map_pushHead]

/-! ## 3. Simple keys

A simple key says all that the readers need to know of a segment: how it begins, that it ends in no
blank, that it has no line feed, that every search goes through it, and which name is read.  After
this section nothing depends on how a key is spelled.
-/

/-- **A key without dots,** and its name. -/
structure IsSimpleKey (text name : List Char) : Prop where
  head : ∃ c rest, text = c :: rest ∧ (c = '"' ∨ c = '\'' ∨ Toml.isBareKeyChar c = true)
  last : ∀ c, text.getLast? = some c → isBlank c = false
  feed : '\n' ∉ text
  outside : ∀ p : Char → Bool, (∀ c, Toml.isBareKeyChar c = true → p c = true) → Outside p text
  segments : ∀ {place : PathPlace} {rest : List Char}, place.IsStart → EndsSegment rest →
    segments place (text ++ rest) = (segments .behind rest).map (name :: ·)

/-- A bare key is its own name. -/
theorem isSimpleKey_bare {text : List Char} (hne : text ≠ [])
    (h : ∀ c ∈ text, Toml.isBareKeyChar c = true) : IsSimpleKey text text := by
  obtain ⟨c, rest, rfl⟩ := List.exists_cons_of_ne_nil hne
  obtain ⟨hc, ht⟩ := List.forall_mem_cons.mp h
  refine ⟨⟨c, rest, rfl, .inr (.inr hc)⟩, fun d hd => ?_, fun hm => ?_, fun p hp => ?_,
    fun {place tail} hs hr => ?_⟩
  · exact not_isBlank_of_isBareKeyChar (h d (List.mem_of_mem_getLast? hd))
  · exact isBareKeyChar_ne (h _ hm) (by decide) rfl
  · exact outside_of_forall fun d hd => ⟨isBareKeyChar_ne (h d hd) (by decide),
      isBareKeyChar_ne (h d hd) (by decide), hp d (h d hd)⟩
  -- its first character is the one that opens the segment
  · have h1 := isBareKeyChar_ne (d := '.') hc (by decide)
    have h2 := isBareKeyChar_ne (d := '"') hc (by decide)
    have h3 := isBareKeyChar_ne (d := '\'') hc (by decide)
    have h4 := not_isBlank_of_isBareKeyChar hc
    have hrest := segments_bare hr ht
    cases place with
    | first | next => simp [TomlKeep.segments, h1, h2, h3, h4, hrest, map_map_pushHead]
    | bare | single | double | behind => exact absurd hs (by simp [PathPlace.IsStart])

/-- The name of a key in single quotes is what stands between them. -/
theorem isSimpleKey_single {text : List Char} (h : '\'' ∉ text) (hn : '\n' ∉ text) :
    IsSimpleKey ('\'' :: (text ++ ['\''])) text := by
  refine ⟨⟨_, _, rfl, .inr (.inl rfl)⟩, fun c hc => ?_, by simp [hn], fun p _ => .single h .nil,
    fun {place rest} hs _ => ?_⟩
  · rw [← List.cons_append, List.getLast?_concat] at hc
    rw [← Option.some.inj hc]
    decide
  · have hrest := segments_single rest h
    cases place with
    | first | next => simp [TomlKeep.segments, hrest]
    | bare | single | double | behind => exact absurd hs (by simp [PathPlace.IsStart])

/-- The name of a key in double quotes is what stands between them, with the escapes undone. -/
theorem isSimpleKey_double {body : List Char} (h : QuotedBody body) (hn : '\n' ∉ body) :
    IsSimpleKey ('"' :: (body ++ ['"'])) (unescapeKey body) := by
  refine ⟨⟨_, _, rfl, .inl rfl⟩, fun c hc => ?_, by simp [hn], fun p _ => .double h .nil,
    fun {place rest} hs _ => ?_⟩
  · rw [← List.cons_append, List.getLast?_concat] at hc
    rw [← Option.some.inj hc]
    decide
  · have hrest := segments_double h rest
    cases place with
    | first | next => simp [TomlKeep.segments, hrest]
    | bare | single | double | behind => exact absurd hs (by simp [PathPlace.IsStart])

/-! ## 4. Keys

A key is a simple key, or one with a dot and a key behind it.  In front of an equals sign it is
found by the search for that sign and read again when what stands around it is trimmed; blanks that
are no gaps may stand there as well.
-/

/-- **A key,** and its names. -/
structure IsKey (text : List Char) (names : List (List Char)) : Prop where
  head : ∃ c rest, text = c :: rest ∧ (c = '"' ∨ c = '\'' ∨ Toml.isBareKeyChar c = true)
  last : ∀ c, text.getLast? = some c → isBlank c = false
  feed : '\n' ∉ text
  outside : ∀ p : Char → Bool, (∀ c, Toml.isBareKeyChar c = true → p c = true) → p ' ' = true →
    p '\t' = true → p '.' = true → Outside p text
  segments : ∀ {place : PathPlace} {gap : List Char}, place.IsStart → IsGapText gap →
    segments place (text ++ gap) = .ok names

/-- A simple key is a key of one name. -/
theorem IsSimpleKey.isKey {text name : List Char} (h : IsSimpleKey text name) :
    IsKey text [name] := by
  refine ⟨h.head, h.last, h.feed, fun p hp _ _ _ => h.outside p hp, fun {place gap} hs hg => ?_⟩
  have hend := endsSegment_blanks hg.isBlank (.inl (rfl : ([] : List Char) = []))
  have hbehind := segments_behind_blanks [] hg.isBlank
  rw [List.append_nil] at hend hbehind
  rw [h.segments hs hend, hbehind]
  rfl

/-- **A key behind a dot.**  The first segment ends at the gap or the dot behind it, and behind
the dot the reader is where a segment may begin. -/
theorem IsSimpleKey.dot {text name more before after : List Char} {names : List (List Char)}
    (h : IsSimpleKey text name) (hb : IsGapText before) (ha : IsGapText after)
    (hm : IsKey more names) :
    IsKey (text ++ (before ++ '.' :: (after ++ more))) (name :: names) := by
  obtain ⟨c, rest, hc, hhead⟩ := h.head
  obtain ⟨d, rest', hd, -⟩ := hm.head
  refine ⟨⟨c, rest ++ (before ++ '.' :: (after ++ more)), by rw [hc]; rfl, hhead⟩,
    fun e he => hm.last e ?_, ?_, fun p hp h1 h2 h3 => ?_, fun {place gap} hs hg => ?_⟩
  · have hsplit : text ++ (before ++ '.' :: (after ++ more))
        = (text ++ (before ++ '.' :: after)) ++ more := by simp
    rwa [hsplit, List.getLast?_append_of_ne_nil _ (by simp [hd])] at he
  · simp [h.feed, hm.feed, hb.not_mem (c := '\n') (by decide), ha.not_mem (c := '\n') (by decide)]
  · exact (h.outside p hp).append ((hb.outside h1 h2).append
      (.char (by decide) (by decide) h3 ((ha.outside h1 h2).append (hm.outside p hp h1 h2 h3))))
  · have hend := endsSegment_blanks hb.isBlank (.inr ⟨after ++ (more ++ gap), rfl⟩)
    have hdot : TomlKeep.segments .behind ('.' :: (after ++ (more ++ gap))) = .ok names := by
      have hnext : TomlKeep.segments .behind ('.' :: (after ++ (more ++ gap)))
          = TomlKeep.segments .next (after ++ (more ++ gap)) := by simp [TomlKeep.segments]
      have hstart : PathPlace.next.IsStart := trivial
      rw [hnext, segments_blanks hstart _ ha.isBlank, hm.segments hstart hg]
    simp only [List.append_assoc, List.cons_append]
    rw [h.segments hs hend, segments_behind_blanks _ hb.isBlank, hdot]
    rfl

/-- Among blanks there is neither an equals sign nor a comment. -/
theorem noKeyEnd_blanks {blanks : List Char} (h : ∀ c ∈ blanks, isBlank c = true) :
    Outside (fun c => !isKeyEnd c) blanks := by
  refine outside_of_forall fun c hc => ?_
  have hblank := h c hc
  obtain ⟨-, h1, h2⟩ := ne_of_isBlank hblank
  refine ⟨h1, h2, ?_⟩
  rw [Bool.not_eq_true', isKeyEnd, Bool.or_eq_false_iff, beq_eq_false_iff_ne, beq_eq_false_iff_ne]
  constructor <;>
  · rintro rfl
    exact absurd hblank (by decide)

namespace IsKey

variable {text : List Char} {names : List (List Char)}

/-- A key is not empty. -/
theorem ne_nil (h : IsKey text names) : text ≠ [] := by
  obtain ⟨c, rest, rfl, -⟩ := h.head
  simp

/-- A key begins with a character that is no blank and opens nothing. -/
theorem head_ne (h : IsKey text names) {c : Char} (hc : text.head? = some c) :
    isBlank c = false ∧ c ≠ '#' ∧ c ≠ '[' := by
  obtain ⟨d, rest, rfl, hd⟩ := h.head
  obtain rfl : d = c := by simpa using hc
  rcases hd with rfl | rfl | hd
  · decide
  · decide
  · exact ⟨not_isBlank_of_isBareKeyChar hd, isBareKeyChar_ne hd (by decide),
      isBareKeyChar_ne hd (by decide)⟩

/-- Outside quotes a key has neither an equals sign nor a comment. -/
theorem noKeyEnd (h : IsKey text names) : Outside (fun c => !isKeyEnd c) text := by
  refine h.outside _ (fun c hc => ?_) (by decide) (by decide) (by decide)
  have h1 := isBareKeyChar_ne (d := '=') hc (by decide)
  have h2 := isBareKeyChar_ne (d := '#') hc (by decide)
  simp [isKeyEnd, h1, h2]

/-- **A key, blanks around it, an equals sign and a gap make a lead.**  The equals sign is the
first one outside quotes, the key is what is left between the blanks, and the line begins as the
key does, so it is neither a comment nor a header. -/
theorem isLead_blanks (h : IsKey text names) {indent before after : List Char}
    (hi : ∀ c ∈ indent, isBlank c = true) (hb : ∀ c ∈ before, isBlank c = true)
    (ha : IsGapText after) :
    IsLead ⟨names.map String.ofList⟩ (indent ++ (text ++ before) ++ '=' :: after) := by
  refine ⟨_, after, rfl, ha, fun rest => ?_, ?_, ?_⟩
  -- up to the equals sign there is nothing that ends a key
  · have hout : Outside (fun c => !isKeyEnd c) (indent ++ (text ++ before)) :=
      (noKeyEnd_blanks hi).append (h.noKeyEnd.append (noKeyEnd_blanks hb))
    have hf (c : Char) (rest : List Char) (hc : (!isKeyEnd c) = true) :
        startsIn isKeyEnd (c :: rest) = false := by
      simpa [startsIn] using hc
    rw [splitOutside?_outside hout hf]
    simp [splitOutside?, startsIn, isKeyEnd]
  · have hseg : TomlKeep.segments .first (text ++ []) = .ok names :=
      h.segments trivial fun c hc => by simp at hc
    have hends (c : Char) (hc : text.head? = some c ∨ text.getLast? = some c) : isBlank c = false :=
      hc.elim (fun hhead => (h.head_ne hhead).1) (h.last c)
    rw [List.append_nil] at hseg
    rw [trim_blanks hi hb, trim_of_ends hends, KeyPath.parse, hseg]
  · obtain ⟨c, rest, hc⟩ := List.exists_cons_of_ne_nil h.ne_nil
    obtain ⟨h1, h2, h3⟩ := h.head_ne (c := c) (by rw [hc]; rfl)
    refine ⟨c, rest ++ before, ?_, h2, h3⟩
    rw [trimStart_blanks hi (by simp [hc, h1]), hc]
    rfl

/-- **A key, an equals sign and gaps make a lead.** -/
theorem isLead (h : IsKey text names) {indent before after : List Char}
    (hi : IsGapText indent) (hb : IsGapText before) (ha : IsGapText after) :
    IsLead ⟨names.map String.ofList⟩ (indent ++ (text ++ before) ++ '=' :: after) :=
  h.isLead_blanks hi.isBlank hb.isBlank ha

end IsKey

/-! ## 5. Headers

A header is a key in one or two pairs of brackets.  The closing brackets are searched outside
quotes, and the name has no bracket there, so it is not cut short.
-/

/-- A text outside quotes begins with a quote or with a character that is allowed. -/
theorem Outside.head {p : Char → Bool} {c : Char} {rest : List Char} (h : Outside p (c :: rest)) :
    c = '"' ∨ c = '\'' ∨ p c = true := by
  cases h with
  | char _ _ hc _ => exact .inr (.inr hc)
  | double _ _ => exact .inl rfl
  | single _ _ => exact .inr (.inl rfl)

/-- The brackets of a header. -/
def headerBrackets (array : Bool) (bracket : Char) : List Char :=
  if array then [bracket, bracket] else [bracket]

/-- A name in brackets is not cut before the brackets behind it. -/
theorem splitOutside?_headerBrackets (array : Bool) {name : List Char}
    (hname : Outside (fun c => c != '[' && c != ']') name) (rest : List Char) :
    splitOutside? (beginsWith (headerBrackets array ']')) .outside
        (name ++ (headerBrackets array ']' ++ rest))
      = some (name, headerBrackets array ']' ++ rest) := by
  have hf (c : Char) (rest : List Char) (hc : (c != '[' && c != ']') = true) :
      beginsWith (headerBrackets array ']') (c :: rest) = false := by
    have hne : ']' ≠ c := by
      rintro rfl
      simp at hc
    cases array <;> simp [beginsWith, headerBrackets, after?, hne]
  rw [splitOutside?_outside hname hf]
  cases array <;> simp [headerBrackets, splitOutside?, beginsWith, after?]

/-- **A name in brackets heads a section,** if it is a path and only a comment stands behind. -/
theorem Header.ofLine?_brackets (array : Bool) {name tail : List Char} {path : SectionPath}
    (hname : Outside (fun c => c != '[' && c != ']') name)
    (hparse : SectionPath.parse name = .ok path)
    (hend : ((trimStart tail).isEmpty || startsIn (· == '#') (trimStart tail)) = true) :
    Header.ofLine? (headerBrackets array '[' ++ (name ++ (headerBrackets array ']' ++ tail)))
      = some ⟨path, array⟩ := by
  have hsplit := splitOutside?_headerBrackets array hname tail
  cases array with
  | true =>
    have htwo : beginsWith ['[', '['] ('[' :: '[' :: (name ++ (headerBrackets true ']' ++ tail)))
        = true := rfl
    simp only [headerBrackets, if_true, List.cons_append, List.nil_append] at hsplit htwo ⊢
    simp only [Header.ofLine?, htwo, if_true, List.length_cons, List.length_nil,
      List.drop_succ_cons, List.drop_zero, hsplit, hend, hparse]
  | false =>
    -- the name does not begin with a bracket, so the one in front of it is alone
    have hone : beginsWith ['[', '['] ('[' :: (name ++ (headerBrackets false ']' ++ tail)))
        = false := by
      have hhead : (name ++ (headerBrackets false ']' ++ tail)).head? ≠ some '[' := by
        cases name with
        | nil => simp [headerBrackets]
        | cons c rest =>
          intro hc
          obtain rfl : c = '[' := by simpa using hc
          rcases hname.head with h | h | h <;> simp at h
      simp [beginsWith, after?, after?_eq_none hhead]
    simp only [headerBrackets, Bool.false_eq_true, if_false, List.cons_append, List.nil_append]
      at hsplit hone ⊢
    simp only [Header.ofLine?, hone, Bool.false_eq_true, if_false, List.length_cons,
      List.length_nil, List.drop_succ_cons, List.drop_zero, hsplit, hend, if_true, hparse]

/-- **A key in brackets is a header.**  Gaps may stand in front of the brackets, inside them and
behind them, and a comment at the end. -/
theorem IsKey.classify_header {text : List Char} {names : List (List Char)} (h : IsKey text names)
    (array : Bool) {indent before after gap comment : List Char} (hi : IsGapText indent)
    (hb : IsGapText before) (ha : IsGapText after) (ht : IsTail gap comment) :
    classify (indent ++ (headerBrackets array '[' ++ (before ++ (text ++ after)
        ++ (headerBrackets array ']' ++ (gap ++ comment)))))
      = .header ⟨⟨names.map String.ofList⟩, array⟩ := by
  have hname : Outside (fun c => c != '[' && c != ']') (before ++ (text ++ after)) := by
    refine (hb.outside (by decide) (by decide)).append
      ((h.outside _ (fun c hc => ?_) (by decide) (by decide) (by decide)).append
        (ha.outside (by decide) (by decide)))
    have h1 := isBareKeyChar_ne (d := '[') hc (by decide)
    have h2 := isBareKeyChar_ne (d := ']') hc (by decide)
    simp [h1, h2]
  have hparse : SectionPath.parse (before ++ (text ++ after)) = .ok ⟨names.map String.ofList⟩ := by
    have hstart : PathPlace.first.IsStart := trivial
    rw [SectionPath.parse, segments_blanks hstart _ hb.isBlank, h.segments hstart ha]
  -- behind the brackets there is nothing but the comment
  have hend : ((trimStart (gap ++ comment)).isEmpty
      || startsIn (· == '#') (trimStart (gap ++ comment))) = true := by
    have hcomment : ∀ c, comment.head? = some c → isBlank c = false := by
      intro c hc
      rw [ht.comment c hc]
      decide
    rw [trimStart_gap ht.gap hcomment]
    cases comment with
    | nil => rfl
    | cons c rest => simp [startsIn, ht.comment c rfl]
  have hheader := Header.ofLine?_brackets array hname hparse hend
  generalize before ++ (text ++ after) = name at hheader ⊢
  have hopen : trimStart (indent ++ (headerBrackets array '[' ++ (name
      ++ (headerBrackets array ']' ++ (gap ++ comment)))))
      = headerBrackets array '[' ++ (name ++ (headerBrackets array ']' ++ (gap ++ comment))) := by
    refine trimStart_gap hi fun c hc => ?_
    obtain rfl : c = '[' := by
      cases array <;> simpa [headerBrackets, eq_comm] using hc
    decide
  have hbracket : startsIn (· == '[') (headerBrackets array '[' ++ (name
      ++ (headerBrackets array ']' ++ (gap ++ comment)))) = true
      ∧ startsIn (· == '#') (headerBrackets array '[' ++ (name
      ++ (headerBrackets array ']' ++ (gap ++ comment)))) = false
      ∧ (headerBrackets array '[' ++ (name
      ++ (headerBrackets array ']' ++ (gap ++ comment)))).isEmpty = false := by
    cases array <;> simp [headerBrackets, startsIn]
  simp only [classify, hopen, hbracket.1, hbracket.2.1, hbracket.2.2, Bool.or_false, if_true,
    hheader, Bool.false_eq_true, if_false]

end TomlKeep
