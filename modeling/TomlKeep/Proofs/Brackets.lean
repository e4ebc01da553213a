/-
# Brackets over lines

The scan counts the brackets of a value line by line, and the grammar reads the same value as a
term.  Here a value is walked from token to token (`Walk`): a walk knows how many brackets are
open, and it crosses a line end only while one is.

* A walk that closes all brackets is a value on whose last line the count of the scan ends
  (`Walk.takeBrackets`).
* What the grammar takes for a term is walked (`walks_takeTerm?`), unless a string in three
  quotes stands in it, of which the count knows nothing (`hasTriple`).
-/
import TomlKeep.Proofs.Cutting
import TomlKeep.Proofs.KeyReading

namespace TomlKeep

open Text Toml

/-! ## 1. The lines of a text, the first apart

The count goes on from line to line, but a walk is in the middle of a line most of the time.  So a
text is seen as what is left of its line and the lines behind.
-/

/-- The first line without its end. -/
def firstContent (text : List Char) : List Char :=
  match lines text with
  | [] => []
  | line :: _ => line.content

/-- The lines behind the first. -/
def laterLines (text : List Char) : List Line := (lines text).tail

/-- A text that stays on its line goes in front of the first line. -/
theorem lines_piece : ∀ {piece : List Char}, '\n' ∉ piece → piece.getLast? ≠ some '\r' →
    ∀ rest, firstContent (piece ++ rest) = piece ++ firstContent rest
      ∧ laterLines (piece ++ rest) = laterLines rest
  | [], _, _, _ => ⟨rfl, rfl⟩
  | c :: piece, hn, hr, rest => by
    simp only [List.mem_cons, not_or] at hn
    have hlast : piece.getLast? ≠ some '\r' := by
      cases piece with
      | nil => simp
      | cons d ds => rwa [List.getLast?_cons_cons] at hr
    obtain ⟨h1, h2⟩ := lines_piece hn.2 hlast rest
    -- a carriage return at the end of the piece would be part of a line end
    have hfeed : c = '\r' → (piece ++ rest).head? ≠ some '\n' := by
      rintro rfl
      cases piece with
      | nil => simp at hr
      | cons d ds =>
        simp only [List.mem_cons, not_or] at hn
        simpa using Ne.symm hn.2.1
    have hpush : lines (c :: (piece ++ rest)) = pushFront c (lines (piece ++ rest)) :=
      lines_cons_of_ne (Ne.symm hn.1) hfeed
    simp only [firstContent, laterLines, List.cons_append, hpush] at h1 h2 ⊢
    cases hl : lines (piece ++ rest) with
    | nil => simp_all [pushFront]
    | cons line ls => simp_all [pushFront]

/-- A line end ends the first line. -/
theorem lines_ending {ending : LineEnd} (he : ending ≠ .none) (rest : List Char) :
    firstContent (ending.chars ++ rest) = [] ∧ laterLines (ending.chars ++ rest) = lines rest := by
  cases ending with
  | none => exact absurd rfl he
  | lf | crlf => exact ⟨rfl, rfl⟩

/-! ## 2. Walks

A walk forgets what the tokens mean and keeps what the count of the scan is made of: the brackets
outside strings and comments, and the line ends.  The condition on line ends is the one under which
the scan takes another line, so the two stay together.
-/

/-- **A walk** from a text with some brackets open to the rest of the text with other brackets open.
It crosses a line end, and a comment in front of it, only while a bracket is open. -/
inductive Walk : Int → List Char → Int → List Char → Prop where
  | here (depth : Int) (text : List Char) : Walk depth text depth text
  | piece {depth depth' : Int} {piece text rest : List Char} : Outside isNoBracket piece →
      '\n' ∉ piece → piece.getLast? ≠ some '\r' → Walk depth text depth' rest →
      Walk depth (piece ++ text) depth' rest
  | opens {depth depth' : Int} {c : Char} {text rest : List Char} : c = '[' ∨ c = '{' →
      Walk (depth + 1) text depth' rest → Walk depth (c :: text) depth' rest
  | closes {depth depth' : Int} {c : Char} {text rest : List Char} : c = ']' ∨ c = '}' →
      Walk (depth - 1) text depth' rest → Walk depth (c :: text) depth' rest
  | feed {depth depth' : Int} {comment text rest : List Char} {ending : LineEnd} : 0 < depth →
      ending ≠ .none → '\n' ∉ comment → comment.getLast? ≠ some '\r' →
      (∀ c, comment.head? = some c → c = '#') → Walk depth text depth' rest →
      Walk depth (comment ++ (ending.chars ++ text)) depth' rest

namespace Walk

variable {depth depth' depth'' : Int} {text more rest : List Char}

/-- Walks can be put together. -/
theorem trans (h : Walk depth text depth' more) (h' : Walk depth' more depth'' rest) :
    Walk depth text depth'' rest := by
  induction h with
  | here => exact h'
  | piece h1 h2 h3 _ ih => exact .piece h1 h2 h3 (ih h')
  | opens h1 _ ih => exact .opens h1 (ih h')
  | closes h1 _ ih => exact .closes h1 (ih h')
  | feed h1 h2 h3 h4 h5 _ ih => exact .feed h1 h2 h3 h4 h5 (ih h')

/-- A walk goes forward. -/
theorem suffix (h : Walk depth text depth' rest) : rest <:+ text := by
  induction h with
  | here => exact List.suffix_rfl
  | piece _ _ _ _ ih => exact ih.trans (List.suffix_append _ _)
  | opens _ _ ih | closes _ _ ih => exact ih.trans (List.suffix_cons _ _)
  | feed _ _ _ _ _ _ ih =>
    exact (ih.trans (List.suffix_append _ _)).trans (List.suffix_append _ _)

/-- A comment has no brackets. -/
theorem bracketBalance_comment {comment : List Char} (h : ∀ c, comment.head? = some c → c = '#') :
    bracketBalance .outside comment = 0 := by
  cases comment with
  | nil => rfl
  | cons c comment =>
    obtain rfl := h c rfl
    simp [bracketBalance]

/-- With no bracket open no line is taken. -/
theorem takeBrackets_of_le (h : depth ≤ 0) (ls : List Line) : takeBrackets depth ls = ([], ls) := by
  cases ls with
  | nil => rfl
  | cons line ls => rw [takeBrackets, if_neg (by omega)]

/-- **The count of the scan ends where a walk has closed all brackets:** it takes the lines of
the walk, whatever lines follow.  By induction on the walk: a piece does not change the count, a
bracket changes it as it changes the depth, and at a line end with brackets open the scan goes on
to the next line with the count it has. -/
theorem takeBrackets (h : Walk depth text depth' rest) (hd : depth' ≤ 0)
    (hr : bracketBalance .outside (firstContent rest) = 0) (hl : laterLines rest = [])
    (ls : List Line) :
    TomlKeep.takeBrackets (depth + bracketBalance .outside (firstContent text))
      (laterLines text ++ ls) = (laterLines text, ls) := by
  induction h with
  | here depth text =>
    rw [hr, hl, Int.add_zero]
    exact takeBrackets_of_le hd ls
  | @piece _ _ piece text _ h1 h2 h3 _ ih =>
    obtain ⟨hf, hls⟩ := lines_piece h2 h3 text
    rw [hf, hls, bracketBalance_outside h1]
    exact ih hd hr hl
  | @opens d _ c text _ h1 _ ih =>
    have hstay : '\n' ∉ [c] ∧ [c].getLast? ≠ some '\r' := by
      rcases h1 with rfl | rfl <;> decide
    obtain ⟨hf, hls⟩ := lines_piece hstay.1 hstay.2 text
    have hcount : bracketBalance .outside ([c] ++ firstContent text)
        = 1 + bracketBalance .outside (firstContent text) := by
      rcases h1 with rfl | rfl <;> simp [bracketBalance]
    rw [← List.singleton_append, hf, hls, hcount, ← Int.add_assoc]
    exact ih hd hr hl
  | @closes d _ c text _ h1 _ ih =>
    have hstay : '\n' ∉ [c] ∧ [c].getLast? ≠ some '\r' := by
      rcases h1 with rfl | rfl <;> decide
    obtain ⟨hf, hls⟩ := lines_piece hstay.1 hstay.2 text
    have hcount : d + bracketBalance .outside ([c] ++ firstContent text)
        = d - 1 + bracketBalance .outside (firstContent text) := by
      rcases h1 with rfl | rfl <;> simp [bracketBalance] <;> omega
    rw [← List.singleton_append, hf, hls, hcount]
    exact ih hd hr hl
  | @feed d _ comment text _ ending h1 h2 h3 h4 h5 _ ih =>
    -- the rest of the line is a comment, so the count at its end is the depth
    obtain ⟨hf, hls⟩ := lines_piece h3 h4 (ending.chars ++ text)
    obtain ⟨hf', hls'⟩ := lines_ending h2 text
    have ih := ih hd hr hl
    rw [hf, hls, hf', hls', List.append_nil, bracketBalance_comment h5, Int.add_zero]
    unfold firstContent laterLines at ih
    cases hlines : lines text with
    | nil =>
      rw [hlines] at ih
      simpa [bracketBalance] using ih
    | cons line later =>
      rw [hlines] at ih
      simp only [List.tail_cons] at ih
      rw [List.cons_append, TomlKeep.takeBrackets, if_pos h1, ih]

end Walk

/-! ## 3. Strings in three quotes

The count reads each line for itself and takes three quotes for an empty string and a quote that
opens another.  What stands in such a string is no token to the grammar and may be a bracket to the
count, so texts with them are left out; whether there are any is told by a search that knows strings
and comments only.
-/

/-- Where the search for strings in three quotes stands. -/
inductive TokenPlace where
  | outside
  | comment
  | single
  | double
  deriving DecidableEq, Repr

/-- Whether a string in three quotes opens in a text, comments and other strings not counted. -/
def hasTriple : TokenPlace → List Char → Bool
  | _, [] => false
  | .comment, c :: rest => hasTriple (if c = '\n' then .outside else .comment) rest
  | .single, c :: rest => hasTriple (if c = '\'' then .outside else .single) rest
  | .double, '\\' :: _ :: rest => hasTriple .double rest
  | .double, c :: rest => hasTriple (if c = '"' then .outside else .double) rest
  | .outside, c :: rest =>
    if (tripleQuote? (c :: rest)).isSome then true
    else if c = '"' then hasTriple .double rest
    else if c = '\'' then hasTriple .single rest
    else if c = '#' then hasTriple .comment rest
    else hasTriple .outside rest

/-- Outside, three quotes are found, one opens a string, and a hash a comment. -/
theorem hasTriple_outside_cons (c : Char) (rest : List Char) :
    hasTriple .outside (c :: rest) =
      if (tripleQuote? (c :: rest)).isSome then true
      else if c = '"' then hasTriple .double rest
      else if c = '\'' then hasTriple .single rest
      else if c = '#' then hasTriple .comment rest
      else hasTriple .outside rest :=
  rfl

/-- A comment ends with its line. -/
theorem hasTriple_comment_cons (c : Char) (rest : List Char) :
    hasTriple .comment (c :: rest) = hasTriple (if c = '\n' then .outside else .comment) rest :=
  rfl

/-- A string in single quotes ends at the next one. -/
theorem hasTriple_single_cons (c : Char) (rest : List Char) :
    hasTriple .single (c :: rest) = hasTriple (if c = '\'' then .outside else .single) rest :=
  rfl

/-- In double quotes a backslash hides the next character, and any other character is looked at. -/
theorem hasTriple_double_hidden (c : Char) (rest : List Char) :
    hasTriple .double ('\\' :: c :: rest) = hasTriple .double rest :=
  rfl

/-- A string in double quotes ends at the next one that is not hidden. -/
theorem hasTriple_double_cons {c : Char} (hc : c ≠ '\\') (rest : List Char) :
    hasTriple .double (c :: rest) = hasTriple (if c = '"' then .outside else .double) rest := by
  rw [hasTriple]
  intro d more he _
  exact hc he

/-- Behind a string in double quotes the search goes on outside. -/
theorem hasTriple_double {body : List Char} (h : QuotedBody body) (rest : List Char) :
    hasTriple .double (body ++ '"' :: rest) = hasTriple .outside rest := by
  induction h with
  | nil => simp [hasTriple_double_cons]
  | char h1 h2 _ ih => simp [hasTriple_double_cons h2, h1, ih]
  | hidden _ ih => simp [hasTriple_double_hidden, ih]

/-- So it does behind a string in single quotes. -/
theorem hasTriple_single {body : List Char} (h : '\'' ∉ body) (rest : List Char) :
    hasTriple .single (body ++ '\'' :: rest) = hasTriple .outside rest := by
  induction body with
  | nil => simp [hasTriple_single_cons]
  | cons c body ih =>
    simp only [List.mem_cons, not_or] at h
    simp [hasTriple_single_cons, Ne.symm h.1, ih h.2]

/-- It goes on outside behind a comment and its line end too. -/
theorem hasTriple_comment {comment : List Char} (h : '\n' ∉ comment) {ending : LineEnd}
    (he : ending ≠ .none) (rest : List Char) :
    hasTriple .comment (comment ++ (ending.chars ++ rest)) = hasTriple .outside rest := by
  induction comment with
  | nil =>
    cases ending with
    | none => exact absurd rfl he
    | lf | crlf => simp [LineEnd.chars, hasTriple_comment_cons]
  | cons c comment ih =>
    simp only [List.mem_cons, not_or] at h
    simp [hasTriple_comment_cons, Ne.symm h.1, ih h.2]

/-- Behind a character that is no quote and no comment the search goes on. -/
theorem hasTriple_char {c : Char} {rest : List Char} (h1 : c ≠ '"') (h2 : c ≠ '\'') (h3 : c ≠ '#') :
    hasTriple .outside (c :: rest) = hasTriple .outside rest := by
  have ht : tripleQuote? (c :: rest) = none := tripleQuote?_eq_none (by simpa) (by simpa)
  simp [hasTriple_outside_cons, ht, h1, h2, h3]

/-- Behind text without comments no string in three quotes opens if none opens in it or behind
it. -/
theorem hasTriple_outside {p : Char → Bool} (hp : p '#' = false) {piece rest : List Char}
    (h : Outside p piece) (ht : hasTriple .outside (piece ++ rest) = false) :
    hasTriple .outside rest = false := by
  induction h with
  | nil => exact ht
  | @char c _ h1 h2 h3 _ ih =>
    have hc : c ≠ '#' := by
      rintro rfl
      simp [hp] at h3
    rw [List.cons_append, hasTriple_char h1 h2 hc] at ht
    exact ih ht
  | double h _ ih =>
    simp only [List.cons_append, List.append_assoc, hasTriple_outside_cons] at ht
    split at ht
    · cases ht
    · simp only [if_true, hasTriple_double h] at ht
      exact ih ht
  | single h _ ih =>
    simp only [List.cons_append, List.append_assoc, hasTriple_outside_cons] at ht
    split at ht
    · cases ht
    -- a single quote that does not begin three of them
    · rw [if_neg (by decide)] at ht
      simp only [if_true, hasTriple_single h] at ht
      exact ih ht

/-- **Behind a walk no string in three quotes opens** if none opens on it or behind it.  The
search and the walk agree on what is a string and what is a comment. -/
theorem Walk.hasTriple {depth depth' : Int} {text rest : List Char}
    (h : Walk depth text depth' rest)
    (ht : hasTriple .outside text = false) : hasTriple .outside rest = false := by
  -- by the steps of the walk; a comment ends with its line, and the search goes on behind it
  induction h with
  | here => exact ht
  | piece h1 _ _ _ ih => exact ih (hasTriple_outside (by decide) h1 ht)
  | @opens _ _ c text _ h1 _ ih =>
    refine ih ?_
    rwa [hasTriple_char] at ht
    all_goals rcases h1 with rfl | rfl <;> decide
  | @closes _ _ c text _ h1 _ ih =>
    refine ih ?_
    rwa [hasTriple_char] at ht
    all_goals rcases h1 with rfl | rfl <;> decide
  | @feed _ _ comment text _ ending h1 h2 h3 h4 h5 _ ih =>
    refine ih ?_
    cases comment with
    | nil =>
      cases ending with
      | none => exact absurd rfl h2
      | lf | crlf => simpa [LineEnd.chars, hasTriple_char] using ht
    | cons c comment =>
      obtain rfl := h5 c rfl
      have hno : tripleQuote? ('#' :: (comment ++ (ending.chars ++ text))) = none :=
        tripleQuote?_eq_none (by simp) (by simp)
      simp only [List.mem_cons, not_or] at h3
      simpa [hasTriple_outside_cons, hno, hasTriple_comment h3.2 h2] using ht

/-! ## 4. What the grammar takes is walked

The readers of the grammar are looked at once more, now with the depth.  Scalars, keys and gaps are
pieces; brackets are opened and closed again around the members of a list; and line ends occur
between members only, where a bracket is open.
-/

/-- A reader takes what can be walked while at least some brackets are open. -/
def Walks {α : Type} (least : Int) (take? : List Char → Option (α × List Char)) : Prop :=
  ∀ ⦃text rest : List Char⦄ ⦃result : α⦄, take? text = some (result, rest) →
    hasTriple .outside text = false → ∀ depth, least ≤ depth → Walk depth text depth rest

theorem Walk.of_piece {piece : List Char} (h : Outside isNoBracket piece) (hn : '\n' ∉ piece)
    (hr : piece.getLast? ≠ some '\r') (depth : Int) (rest : List Char) :
    Walk depth (piece ++ rest) depth rest :=
  .piece h hn hr (.here depth rest)

/-- A string on one line is a piece. -/
theorem walks_takeQuoted? (least : Int) : Walks least takeQuoted? := by
  intro text rest s h _ depth _
  obtain ⟨piece, rfl, hn, hr, houtside⟩ := outside_of_takeQuoted? h
  exact Walk.of_piece (houtside isNoBracket) hn hr depth rest

/-- Where no string in three quotes opens, a string is one on one line. -/
theorem takeString?_eq_takeQuoted? {text : List Char} (h : hasTriple .outside text = false) :
    takeString? text = takeQuoted? text := by
  have ht : tripleQuote? text = none := by
    cases text with
    | nil => rfl
    | cons c text =>
      rw [hasTriple_outside_cons] at h
      split at h
      · cases h
      · next hn => exact Option.not_isSome_iff_eq_none.mp hn
  simp only [takeString?, ht]

/-- A scalar is walked: it is a string or a token, both without brackets that count and without
line ends. -/
theorem walks_takeScalar? (least : Int) : Walks least takeScalar? := by
  intro text rest term h ht depth hd
  unfold takeScalar? at h
  split at h
  · obtain ⟨⟨s, behind⟩, hs, he⟩ := Option.map_eq_some_iff.mp h
    obtain ⟨rfl, rfl⟩ := Prod.mk.inj he
    rw [takeString?_eq_takeQuoted? ht] at hs
    exact walks_takeQuoted? least hs ht depth hd
  · rcases htoken : takeToken text with ⟨token, behind⟩
    rw [htoken] at h
    obtain ⟨value, -, he⟩ := Option.map_eq_some_iff.mp h
    obtain ⟨rfl, rfl⟩ := Prod.mk.inj he
    obtain ⟨rfl, -⟩ := local_takeToken htoken
    obtain ⟨hchars, -, hlast⟩ := takeToken_chars htoken
    refine .of_piece (outside_of_forall fun c hc => ?_) (fun hn => ?_) (fun hr => ?_) depth _
    -- a token has no brackets, no quotes and no hash; the space before a time is none either
    · rcases hchars c hc with hc | rfl
      · simp only [isTokenChar, Bool.not_eq_true', Bool.or_eq_false_iff, beq_eq_false_iff_ne] at hc
        simp [isNoBracket, hc]
      · decide
    · rcases hchars _ hn with h | h <;> exact absurd h (by decide)
    · rcases hchars _ (List.mem_of_mem_getLast? hr) with h | h <;> exact absurd h (by decide)

/-- A gap has no brackets. -/
theorem isNoBracket_gap {gap : List Char} (h : IsGapText gap) : Outside isNoBracket gap :=
  h.outside (by decide) (by decide)

/-- A key has none outside quotes: its bare characters are letters, digits, hyphens and
underscores. -/
theorem IsKey.isNoBracket {key : List Char} {names : List (List Char)} (h : IsKey key names) :
    Outside isNoBracket key := by
  refine h.outside _ (fun c hc => ?_) (by decide) (by decide) (by decide)
  have h1 := isBareKeyChar_ne (d := '[') hc (by decide)
  have h2 := isBareKeyChar_ne (d := '{') hc (by decide)
  have h3 := isBareKeyChar_ne (d := ']') hc (by decide)
  have h4 := isBareKeyChar_ne (d := '}') hc (by decide)
  have h5 := isBareKeyChar_ne (d := '#') hc (by decide)
  simp [TomlKeep.isNoBracket, h1, h2, h3, h4, h5]

/-- The last character of a key with a gap behind it. -/
theorem IsKey.getLast?_ne {key gap : List Char} {names : List (List Char)} (h : IsKey key names)
    (hg : IsGapText gap) {d : Char} (hd : isBlank d = true) (hgd : isGap d = false) :
    (key ++ gap).getLast? ≠ some d := by
  intro hc
  rw [List.getLast?_append] at hc
  cases hl : gap.getLast? with
  | some e =>
    rw [hl] at hc
    obtain rfl : e = d := by simpa using hc
    simp [hg e (List.mem_of_mem_getLast? hl)] at hgd
  | none =>
    rw [hl] at hc
    simp [h.last d (by simpa using hc)] at hd

/-- A key is walked with the gaps around it. -/
theorem walks_takeKey? (least : Int) (bound : Nat) : Walks least (takeKey? bound) := by
  intro text rest path h _ depth _
  obtain ⟨before, key, after, names, rfl, hb, ha, hk, -⟩ := exists_isKey h
  refine .of_piece ((isNoBracket_gap hb).append (hk.isNoBracket.append (isNoBracket_gap ha))) ?_ ?_
    depth rest
  · simp [hk.feed, hb.not_mem (c := '\n') (by decide), ha.not_mem (c := '\n') (by decide)]
  · rw [List.getLast?_append_of_ne_nil _ (by simp [hk.ne_nil])]
    exact hk.getLast?_ne ha (by decide) (by decide)

/-- A comment is skipped to the end of its line. -/
theorem skipFiller?_comment {rest : List Char} (hne : rest ≠ []) : ∀ {text : List Char},
    skipFiller? true text = some rest → ∃ comment ending more,
      text = comment ++ (LineEnd.chars ending ++ more) ∧ ending ≠ .none ∧ '\n' ∉ comment
        ∧ '\r' ∉ comment ∧ skipFiller? false more = some rest
  | [], h => absurd (Option.some.inj h).symm hne
  | c :: text, h => by
    rw [skipFiller?] at h
    -- a line feed, a carriage return in front of one, or a character of the comment
    split at h
    · next hn => exact ⟨[], .lf, text, by rw [hn]; rfl, by simp, by simp, by simp, h⟩
    · next hn =>
      split at h
      · next hr =>
        split at h
        · next hf =>
          have htext := eq_cons_of_startsIn hf
          rw [htext, skipFiller?, if_pos rfl] at h
          exact ⟨[], .crlf, text.drop 1, by rw [hr, htext]; rfl, by simp, by simp, by simp, h⟩
        · cases h
      · next hr =>
        rw [if_pos rfl] at h
        split at h
        · obtain ⟨comment, ending, more, he, h1, h2, h3, h4⟩ := skipFiller?_comment hne h
          exact ⟨c :: comment, ending, more, by rw [he]; rfl, h1, by simp [h2, Ne.symm hn],
            by simp [h3, Ne.symm hr], h4⟩
        · cases h

/-- A line end, and a comment in front of it, is walked while a bracket is open. -/
theorem Walk.line {depth : Int} (hd : 0 < depth) {comment : List Char} (hn : '\n' ∉ comment)
    (hr : comment.getLast? ≠ some '\r') (hc : ∀ c, comment.head? = some c → c = '#')
    {ending : LineEnd} (he : ending ≠ .none) {text rest : List Char}
    (h : Walk depth text depth rest) :
    Walk depth (comment ++ (ending.chars ++ text)) depth rest :=
  .feed hd he hn hr hc h

/-- **What does not count is walked** while a bracket is open.  The induction is on the length of
the text, because a comment is skipped in one step of the walk. -/
theorem walk_skipFiller? {rest : List Char} (hne : rest ≠ []) {depth : Int} (hd : 0 < depth)
    {text : List Char} (h : skipFiller? false text = some rest) : Walk depth text depth rest := by
  induction hl : text.length using Nat.strongRecOn generalizing text with
  | ind n ih =>
    subst hl
    -- behind a line end the rest of the text is shorter
    have line (comment more : List Char) (ending : LineEnd) (he : ending ≠ .none)
        (htext : text = comment ++ (ending.chars ++ more)) (hn : '\n' ∉ comment)
        (hr : '\r' ∉ comment) (hc : ∀ c, comment.head? = some c → c = '#')
        (hmore : skipFiller? false more = some rest) : Walk depth text depth rest := by
      have hlt : more.length < text.length := by
        cases ending with
        | none => exact absurd rfl he
        | lf | crlf => simp [htext, LineEnd.chars]; omega
      rw [htext]
      exact .line hd hn (fun hl => hr (List.mem_of_mem_getLast? hl)) hc he (ih _ hlt hmore rfl)
    cases text with
    | nil => exact absurd (Option.some.inj h).symm hne
    | cons c text =>
      rw [skipFiller?] at h
      split at h
      · next hn =>
        exact line [] text .lf (by simp) (by rw [hn]; rfl) (by simp) (by simp) (by simp) h
      · next hn =>
        split at h
        · next hr =>
          split at h
          · next hf =>
            have htext := eq_cons_of_startsIn hf
            rw [htext, skipFiller?, if_pos rfl] at h
            exact line [] _ .crlf (by simp) (by rw [hr, htext]; rfl) (by simp) (by simp) (by simp) h
          · cases h
        · next hr =>
          rw [if_neg Bool.false_ne_true] at h
          split at h
          · next hg =>
            have hgap : IsGapText [c] := by simpa [IsGapText] using hg
            have hlast : [c].getLast? ≠ some '\r' := by simpa using hr
            have := ih _ (by simp) h rfl
            exact .piece (isNoBracket_gap hgap) (by simpa using Ne.symm hn) hlast this
          · split at h
            · next hh =>
              obtain ⟨comment, ending, more, rfl, he, h2, h3, h4⟩ := skipFiller?_comment hne h
              exact line (c :: comment) more ending he rfl (by simp [h2, Ne.symm hn])
                (by simp [h3, Ne.symm hr]) (by simp [hh]) h4
            · obtain rfl := Option.some.inj h
              exact .here depth _

/-- **The members of a list in brackets are walked,** and then its bracket is closed.  Every
reader leaves the depth as it found it, so the closing bracket is met at the depth behind the
opening one. -/
theorem walk_takeMembers? {α : Type} {closing : Char} (hc : closing = ']' ∨ closing = '}')
    {item : List Char → Option (α × List Char)} (hi : Walks 1 item) :
    ∀ {bound : Nat} {text rest : List Char} {results : List α},
      takeMembers? closing item bound text = some (results, rest) →
      hasTriple .outside text = false → ∀ depth : Int, 1 ≤ depth → Walk depth text (depth - 1) rest
  | 0, _, _, _, h, _, _, _ => by cases h
  | bound + 1, text, rest, results, h, ht, depth, hd => by
    rw [takeMembers?] at h
    obtain ⟨text1, h1, h⟩ := Option.bind_eq_some_iff.mp h
    -- the closing bracket, and then nothing more
    have close {text : List Char} (hs : startsIn (· == closing) text = true) :
        Walk depth text (depth - 1) (text.drop 1) := by
      rw [eq_cons_of_startsIn hs]
      exact .closes hc (.here _ _)
    by_cases hs : startsIn (· == closing) text1 = true
    · rw [if_pos hs] at h
      obtain ⟨-, rfl⟩ := Prod.mk.inj (Option.some.inj h)
      have hne : text1 ≠ [] := by
        rintro rfl
        simp [startsIn] at hs
      exact (walk_skipFiller? hne (by omega) h1).trans (close hs)
    · rw [if_neg hs] at h
      obtain ⟨⟨result, text2⟩, h2, h⟩ := Option.bind_eq_some_iff.mp h
      obtain ⟨text3, h3, h⟩ := Option.bind_eq_some_iff.mp h
      -- nothing is skipped to the end of the text: a bracket or a comma must follow
      have hne3 : text3 ≠ [] := by
        rintro rfl
        simp [goOn, startsIn] at h
      have hne1 : text1 ≠ [] := by
        rintro rfl
        have hnil := List.suffix_nil.mp (hi h2 rfl 1 (Int.le_refl 1)).suffix
        rw [hnil] at h3
        exact hne3 (Option.some.inj h3).symm
      have w1 : Walk depth text depth text1 := walk_skipFiller? hne1 (by omega) h1
      have w2 : Walk depth text depth text2 := w1.trans (hi h2 (w1.hasTriple ht) depth hd)
      have w3 : Walk depth text depth text3 := w2.trans (walk_skipFiller? hne3 (by omega) h3)
      rw [goOn] at h
      split at h
      · next hclose =>
        obtain ⟨-, rfl⟩ := Prod.mk.inj (Option.some.inj h)
        exact w3.trans (close hclose)
      · split at h
        · next hcomma =>
          obtain ⟨⟨results', behind⟩, hr, he⟩ := Option.map_eq_some_iff.mp h
          obtain ⟨-, rfl⟩ := Prod.mk.inj he
          -- the comma is a piece
          have w4 : Walk depth text3 depth (text3.drop 1) := by
            have := Walk.of_piece (.char (by decide) (by decide) (by decide) .nil)
              (by decide : '\n' ∉ [',']) (by decide) depth (text3.drop 1)
            rwa [List.singleton_append, ← eq_cons_of_startsIn hcomma] at this
          have w5 := w3.trans w4
          exact w5.trans (walk_takeMembers? hc hi hr (w5.hasTriple ht) depth hd)
        · cases h

/-- **Entries are walked:** a key, an equals sign and a term, with what does not count between. -/
theorem walks_takeBinding? {item : List Char → Option (Term × List Char)} (hi : Walks 1 item)
    (hn : ∀ {text rest term}, item text = some (term, rest) → text ≠ []) :
    Walks 1 (takeBinding? (skipFiller? false) item) := by
  intro text rest entry h ht depth hd
  rw [takeBinding?_eq] at h
  obtain ⟨⟨path, text1⟩, h1, h⟩ := Option.bind_eq_some_iff.mp h
  obtain ⟨text2, h2, h⟩ := Option.bind_eq_some_iff.mp h
  split at h
  · next heq =>
    obtain ⟨text3, h3, h⟩ := Option.bind_eq_some_iff.mp h
    obtain ⟨⟨term, text4⟩, h4, he⟩ := Option.map_eq_some_iff.mp h
    obtain ⟨-, rfl⟩ := Prod.mk.inj he
    have hne2 : text2 ≠ [] := by
      rintro rfl
      simp [startsIn] at heq
    -- the key, what follows it, the equals sign, and what follows that, in turn
    have w1 := walks_takeKey? 1 maxKeyParts h1 ht depth hd
    have w2 := w1.trans (walk_skipFiller? hne2 (by omega) h2)
    have w3 : Walk depth text2 depth (text2.drop 1) := by
      have := Walk.of_piece (.char (by decide) (by decide) (by decide) .nil)
        (by decide : '\n' ∉ ['=']) (by decide) depth (text2.drop 1)
      rwa [List.singleton_append, ← eq_cons_of_startsIn heq] at this
    have w4 := (w2.trans w3).trans (walk_skipFiller? (hn h4) (by omega) h3)
    exact w4.trans (hi h4 (w4.hasTriple ht) depth hd)
  · cases h

/-- **Terms are walked,** unless a string in three quotes stands in them.  Members of a list are
read with a bracket open, which is all that line ends need; the term itself may stand at depth
zero. -/
theorem walks_takeTerm? : ∀ levels : Nat, Walks 0 (takeTerm? levels)
  | 0 => walks_takeScalar? 0
  | levels + 1 => fun text rest term h ht depth hd => by
    have ih : Walks 1 (takeTerm? levels) := fun text rest term h ht depth hd =>
      walks_takeTerm? levels h ht depth (by omega)
    have hne : ∀ {text rest term}, takeTerm? levels text = some (term, rest) → text ≠ [] := by
      rintro text rest term h rfl
      rw [takeTerm?_eq_none (by simp)] at h
      cases h
    -- an opening bracket, the members of the list, and its closing bracket
    have brackets {α : Type} {opening closing : Char} (ho : opening = '[' ∨ opening = '{')
        (hc : closing = ']' ∨ closing = '}') {item : List Char → Option (α × List Char)}
        (hi : Walks 1 item) (hs : startsIn (· == opening) text = true) {bound : Nat}
        {results : List α} (hr : takeMembers? closing item bound (text.drop 1)
          = some (results, rest)) :
        Walk depth text depth rest := by
      rw [eq_cons_of_startsIn hs] at ht ⊢
      have hdrop : hasTriple .outside (text.drop 1) = false := by
        rwa [hasTriple_char] at ht
        all_goals rcases ho with rfl | rfl <;> decide
      have hwalk := walk_takeMembers? hc hi hr hdrop (depth + 1) (by omega)
      rw [Int.add_sub_cancel] at hwalk
      exact .opens ho hwalk
    rw [takeTerm?_succ] at h
    split at h
    · next hs =>
      obtain ⟨⟨items, behind⟩, hr, he⟩ := Option.map_eq_some_iff.mp h
      obtain ⟨-, rfl⟩ := Prod.mk.inj he
      rw [takeItems?_eq] at hr
      exact brackets (.inl rfl) (.inl rfl) ih hs hr
    · split at h
      · next hs =>
        obtain ⟨⟨entries, behind⟩, hr, he⟩ := Option.map_eq_some_iff.mp h
        obtain ⟨-, rfl⟩ := Prod.mk.inj he
        rw [takeEntries?_eq] at hr
        exact brackets (.inr rfl) (.inr rfl) (walks_takeBinding? ih hne) hs hr
      · exact walks_takeScalar? 0 h ht depth hd

end TomlKeep
