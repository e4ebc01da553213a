/-
# Strings as the scan sees them

The scan of lines knows strings only by their quotes and backslashes.  That is enough: where the
grammar takes a string off a text, the scan takes the same piece for a string.

* A string on one line is text that every search steps over (`outside_of_takeQuoted?`).
* A multi-line string ends where the scan finds its end (`splitMultiline?_of_takeString?`).
-/
import TomlKeep.Proofs.Quotes
import TomlKeep.Proofs.Readers

namespace TomlKeep

open Text Toml

/-! ## 1. Strings in double quotes

The scan follows a string in double quotes with one bit of state, whether the last character was a
backslash; the reader has that state and more.  So a move of the reader is looked at only for what
the scan would see: which character it was, whether an escape begins or ends, and whether the string
closes.
-/

/-- What has been read of an escape. -/
def BasicPlace.before : BasicPlace → List Char
  | .escape => ['\\']
  | _ => []

/-- Outside an escape nothing has been read ahead. -/
theorem before_eq_nil {place : BasicPlace} (h : place ≠ .escape) :
    BasicPlace.before place = [] := by
  cases place <;> first | rfl | exact absurd rfl h

/-- A digit is none of the characters that the scan looks for. -/
theorem isDigitOf_ne {c : Char} (h : Numeral.isDigitOf 16 c = true) :
    c ≠ '"' ∧ c ≠ '\\' ∧ c ≠ '\n' := by
  refine ⟨?_, ?_, ?_⟩
  all_goals
    rintro rfl
    exact absurd h (by decide)

/-- Neither is a space or a tab. -/
theorem isGap_ne {c : Char} (h : isGap c = true) : c ≠ '"' ∧ c ≠ '\\' ∧ c ≠ '\n' := by
  refine ⟨?_, ?_, ?_⟩
  all_goals
    rintro rfl
    exact absurd h (by decide)

/-- In an escape no string is closed and no other escape begins. -/
def BasicMove.Hidden : BasicMove → Prop
  | .fail => True
  | .close => False
  | .go next | .push _ next => next ≠ .escape

/-- Outside an escape a backslash begins one, and a double quote closes the string, unless it takes
three of them. -/
def BasicMove.Plain (multi : Bool) (c : Char) (rest : List Char) : BasicMove → Prop
  | .fail => True
  | .close => c = '"' ∧ (multi = true → beginsWith ['"', '"'] rest = true)
  | .go next => (c = '\\' ∧ next = .escape) ∨ (c ≠ '\\' ∧ c ≠ '"' ∧ next ≠ .escape)
  | .push _ next => c ≠ '\\' ∧ next ≠ .escape
    ∧ (c = '"' → multi = true ∧ beginsWith ['"', '"'] rest = false)

/-- In an escape every move is hidden from the scan: the character behind a backslash is stepped
over, whatever it is. -/
theorem basicMove_escape (multi : Bool) (c : Char) (rest : List Char) :
    (basicMove multi .escape c rest).Hidden := by
  unfold basicMove
  cases shortEscape? c with
  | some d => simp [BasicMove.Hidden]
  | none =>
    cases longEscape? c with
    | some digits => simp [BasicMove.Hidden]
    | none =>
      simp only
      split
      · trivial
      · split
        · simp [BasicMove.Hidden]
        · split <;> simp [BasicMove.Hidden]

/-- Outside an escape the moves at a backslash and at a quote are those of the scan, and no other
move is seen by it. -/
theorem basicMove_plain (multi : Bool) {place : BasicPlace} (hp : place ≠ .escape) (c : Char)
    (rest : List Char) : (basicMove multi place c rest).Plain multi c rest := by
  cases place with
  | escape => exact absurd rfl hp
  -- a digit is neither a backslash nor a quote
  | code left value =>
    simp only [basicMove]
    split
    · next hd =>
      obtain ⟨h1, h2, -⟩ := isDigitOf_ne hd
      split
      · cases charOfCode? (value * 16 + Numeral.digitValue c) <;> simp [BasicMove.Plain, h1, h2]
      · simp [BasicMove.Plain, h1, h2]
    · trivial
  | lineEnd =>
    simp only [basicMove]
    split
    · next hn => simp [BasicMove.Plain, hn]
    · split
      · next hg =>
        simp only [Bool.or_eq_true, Bool.and_eq_true, decide_eq_true_eq] at hg
        rcases hg with hg | ⟨rfl, -⟩
        · simp [BasicMove.Plain, (isGap_ne hg).1, (isGap_ne hg).2.1]
        · simp [BasicMove.Plain]
      · trivial
  -- in the order of the reader: blanks of a joined line, a backslash, a quote, any other character
  | plain | lineStart =>
    simp only [basicMove]
    split
    · next hs =>
      have hne : c ≠ '\\' ∧ c ≠ '"' := by
        simp only [Bool.and_eq_true, Bool.or_eq_true, decide_eq_true_eq] at hs
        rcases hs.2 with (hg | rfl) | ⟨rfl, -⟩
        · exact ⟨(isGap_ne hg).2.1, (isGap_ne hg).1⟩
        · decide
        · decide
      simp [BasicMove.Plain, hne.1, hne.2]
    · split
      · next hb => simp [BasicMove.Plain, hb]
      · next hb =>
        split
        · next hq =>
          split
          · next hm =>
            simp only [Bool.and_eq_true, Bool.not_eq_true'] at hm
            simp [BasicMove.Plain, hq, hm.1, hm.2]
          · next hm => simpa [BasicMove.Plain, hq] using hm
        · next hq =>
          split
          · simp [BasicMove.Plain, hb, hq]
          · trivial

/-- The places that a reader of one line can reach. -/
def BasicPlace.OneLine (place : BasicPlace) : Prop := place ≠ .lineEnd ∧ place ≠ .lineStart

/-- In a string on one line no line end is taken. -/
def BasicMove.OneLine (c : Char) : BasicMove → Prop
  | .fail | .close => True
  | .go next | .push _ next => BasicPlace.OneLine next ∧ c ≠ '\n'

/-- A string on one line stays on it: no move takes a line feed, and none leads to a place behind
one. -/
theorem basicMove_oneLine {place : BasicPlace} (hp : BasicPlace.OneLine place) (c : Char)
    (rest : List Char) : (basicMove false place c rest).OneLine c := by
  cases place with
  -- no escape of one line has a line feed behind its backslash
  | escape =>
    unfold basicMove
    cases hs : shortEscape? c with
    | some d =>
      refine ⟨⟨by simp, by simp⟩, ?_⟩
      rintro rfl
      simp [shortEscape?] at hs
    | none =>
      cases hl : longEscape? c with
      | some digits =>
        refine ⟨⟨by simp, by simp⟩, ?_⟩
        rintro rfl
        simp [longEscape?] at hl
      | none => trivial
  | code left value =>
    simp only [basicMove]
    split
    · next hd =>
      have hn := (isDigitOf_ne hd).2.2
      split
      · cases charOfCode? (value * 16 + Numeral.digitValue c) with
        | some d => exact ⟨⟨by simp, by simp⟩, hn⟩
        | none => trivial
      · exact ⟨⟨by simp, by simp⟩, hn⟩
    · trivial
  | lineEnd => exact absurd rfl hp.1
  | lineStart => exact absurd rfl hp.2
  -- a backslash, a quote or a text character; a line feed is none of them
  | plain =>
    have hne {d : Char} (hd : d ≠ '\n') (h : c = d) : c ≠ '\n' := h ▸ hd
    simp only [basicMove, reduceCtorEq, decide_false, Bool.false_and, Bool.false_eq_true, if_false]
    split
    · next hb => exact ⟨⟨by simp, by simp⟩, hne (by decide) hb⟩
    · split
      · trivial
      · split
        · next ht =>
          refine ⟨⟨by simp, by simp⟩, ?_⟩
          rintro rfl
          exact absurd ht (by decide)
        · trivial

/-- **The body of a string on one line.**  What stands before the closing quote are plain
characters and pairs of a backslash and a character, by induction on the text: each move puts one
character in front of such a body, and the place in the reader says whether a backslash stands
before it. -/
theorem quotedBody_of_basicBody? {rest : List Char} : ∀ {text s : List Char} {place : BasicPlace},
    BasicPlace.OneLine place → basicBody? false place text = some (s, rest) →
      ∃ body, text = body ++ '"' :: rest ∧ QuotedBody (BasicPlace.before place ++ body)
        ∧ '\n' ∉ body
  | [], _, place, _, h => by
    rw [basicBody?_nil] at h
    cases h
  | c :: text, s, place, hp, h => by
    have hline := basicMove_oneLine hp c text
    -- the body behind this character, and what it is with the character
    have next {s' : List Char} {next : BasicPlace} (hn : BasicPlace.OneLine next ∧ c ≠ '\n')
        (hs : basicBody? false next text = some (s', rest))
        (hq : ∀ body, QuotedBody (BasicPlace.before next ++ body) →
          QuotedBody (BasicPlace.before place ++ c :: body)) :
        ∃ body, c :: text = body ++ '"' :: rest ∧ QuotedBody (BasicPlace.before place ++ body)
          ∧ '\n' ∉ body := by
      obtain ⟨body, rfl, hb, hfeed⟩ := quotedBody_of_basicBody? hn.1 hs
      exact ⟨c :: body, rfl, hq body hb, by simp [Ne.symm hn.2, hfeed]⟩
    rw [basicBody?_cons] at h
    by_cases he : place = .escape
    · subst he
      have hmove := basicMove_escape false c text
      -- behind a backslash any character closes the pair
      have hidden {next : BasicPlace} (hn : next ≠ .escape) (body : List Char)
          (hb : QuotedBody (BasicPlace.before next ++ body)) :
          QuotedBody (BasicPlace.before .escape ++ c :: body) := by
        rw [before_eq_nil hn] at hb
        exact .hidden hb
      cases hm : basicMove false .escape c text with
      | fail => rw [hm] at h; cases h
      | close => rw [hm] at hmove; exact absurd hmove id
      | go place' =>
        rw [hm] at h hline hmove
        exact next hline h (hidden hmove)
      | push d place' =>
        rw [hm] at h hline hmove
        obtain ⟨s', -, hs⟩ := pushBefore_eq_some h
        exact next hline hs (hidden hmove)
    -- outside an escape: a backslash opens a pair, the quote ends the body, all else is plain
    · have hmove := basicMove_plain false he c text
      rw [before_eq_nil he] at next ⊢
      cases hm : basicMove false place c text with
      | fail => rw [hm] at h; cases h
      | close =>
        rw [hm] at h hmove
        obtain ⟨-, rfl⟩ := Prod.mk.inj (Option.some.inj h)
        exact ⟨[], by rw [hmove.1]; rfl, .nil, by simp⟩
      | go place' =>
        rw [hm] at h hline hmove
        refine next hline h fun body hb => ?_
        rcases hmove with ⟨rfl, rfl⟩ | ⟨h1, h2, h3⟩
        · exact hb
        · rw [before_eq_nil h3] at hb
          exact .char h2 h1 hb
      | push d place' =>
        rw [hm] at h hline hmove
        obtain ⟨s', -, hs⟩ := pushBefore_eq_some h
        refine next hline hs fun body hb => ?_
        rw [before_eq_nil hmove.2.1] at hb
        exact .char (fun hc => by simpa using (hmove.2.2 hc).1) hmove.1 hb

/-- **The end of a multi-line string in double quotes.**  The scan looks for three quotes outside
pairs, the reader for a quote with two more behind it; both take up to two quotes beyond. -/
theorem closeTriple?_of_basicBody? {rest : List Char} : ∀ {text s : List Char} {place : BasicPlace},
    basicBody? true place text = some (s, rest) →
      ∃ body, closeTriple? '"' (BasicPlace.before place ++ text) = some (body, rest)
  | [], s, place, h => by
    rw [basicBody?_nil] at h
    cases h
  | c :: text, s, place, h => by
    rw [basicBody?_cons] at h
    by_cases he : place = .escape
    · subst he
      have hmove := basicMove_escape true c text
      -- the search steps over the pair
      have hidden {s' : List Char} {next : BasicPlace} (hn : next ≠ .escape)
          (hs : basicBody? true next text = some (s', rest)) :
          ∃ body, closeTriple? '"' (BasicPlace.before .escape ++ c :: text)
            = some (body, rest) := by
        obtain ⟨body, hb⟩ := closeTriple?_of_basicBody? hs
        rw [before_eq_nil hn, List.nil_append] at hb
        have hcons := closeTriple?_hidden c text
        rw [hb] at hcons
        exact ⟨'\\' :: c :: body, hcons⟩
      cases hm : basicMove true .escape c text with
      | fail => rw [hm] at h; cases h
      | close => rw [hm] at hmove; exact absurd hmove id
      | go place' =>
        rw [hm] at h hmove
        exact hidden hmove h
      | push d place' =>
        rw [hm] at h hmove
        obtain ⟨s', -, hs⟩ := pushBefore_eq_some h
        exact hidden hmove hs
    · have hmove := basicMove_plain true he c text
      rw [before_eq_nil he, List.nil_append]
      -- the search steps over a character at which no three quotes stand
      have char {s' : List Char} {next : BasicPlace} (hn : next ≠ .escape) (hc : c ≠ '\\')
          (hs : basicBody? true next text = some (s', rest))
          (ha : after? ['"', '"', '"'] (c :: text) = none) :
          ∃ body, closeTriple? '"' (c :: text) = some (body, rest) := by
        obtain ⟨body, hb⟩ := closeTriple?_of_basicBody? hs
        rw [before_eq_nil hn, List.nil_append] at hb
        exact ⟨c :: body, by rw [closeTriple?_char (fun h => hc h.1) ha, hb]; rfl⟩
      cases hm : basicMove true place c text with
      | fail => rw [hm] at h; cases h
      | close =>
        rw [hm] at h hmove
        obtain ⟨rfl, hb⟩ := hmove
        -- here both find their three quotes
        obtain ⟨inside, hi⟩ := Option.isSome_iff_exists.mp (hb rfl)
        obtain rfl := after?_eq_some_iff.mp hi
        have hclose : splitRun '"' 2 inside = (s, rest) := Option.some.inj h
        have ha : after? ['"', '"', '"'] ('"' :: (['"', '"'] ++ inside)) = some inside := rfl
        exact ⟨_, by rw [closeTriple?_close (by decide) ha, hclose]⟩
      | go place' =>
        rw [hm] at h hmove
        rcases hmove with ⟨rfl, rfl⟩ | ⟨h1, h2, h3⟩
        · exact closeTriple?_of_basicBody? h
        · exact char h3 h1 h (by simp [after?, Ne.symm h2])
      | push d place' =>
        rw [hm] at h hmove
        obtain ⟨s', -, hs⟩ := pushBefore_eq_some h
        refine char hmove.2.1 hmove.1 hs ?_
        -- a quote that belongs to the string has no two more behind it
        by_cases hq : c = '"'
        · subst hq
          have := (hmove.2.2 rfl).2
          rw [Text.beginsWith, Option.isSome_eq_false_iff, Option.isNone_iff_eq_none] at this
          simpa [after?] using this
        · simp [after?, Ne.symm hq]

/-! ## 2. Strings in single quotes

These have no escapes, so the body is the string itself and ends at the next quote, or at the next
three.
-/

/-- A string on one line has no line feed. -/
theorem isLiteralChar_false {c : Char} {rest : List Char} (h : isLiteralChar false c rest = true) :
    c ≠ '\n' := by
  rintro rfl
  exact absurd h (by simp [isLiteralChar, isTextChar])

/-- The body of a string on one line. -/
theorem not_mem_of_literalBody? {rest : List Char} : ∀ {text s : List Char},
    literalBody? false text = some (s, rest) → text = s ++ '\'' :: rest ∧ '\'' ∉ s ∧ '\n' ∉ s
  | [], s, h => by cases h
  | c :: text, s, h => by
    by_cases hc : c = '\''
    · subst hc
      obtain ⟨rfl, rfl⟩ := Prod.mk.inj (Option.some.inj h)
      simp
    · rw [literalBody?_char hc] at h
      split at h
      · next hchar =>
        obtain ⟨s', rfl, hs⟩ := pushBefore_eq_some h
        obtain ⟨rfl, h1, h2⟩ := not_mem_of_literalBody? hs
        exact ⟨rfl, by simp [Ne.symm hc, h1], by simp [Ne.symm (isLiteralChar_false hchar), h2]⟩
      · cases h

/-- The end of a multi-line string in single quotes. -/
theorem closeTriple?_of_literalBody? {rest : List Char} : ∀ {text s : List Char},
    literalBody? true text = some (s, rest) → ∃ body, closeTriple? '\'' text = some (body, rest)
  | [], s, h => by cases h
  | c :: text, s, h => by
    have hq : ¬ (c = '\\' ∧ '\'' = '"') := fun h => absurd h.2 (by decide)
    -- the search steps over a character at which no three quotes stand
    have char {s' : List Char} (hs : literalBody? true text = some (s', rest))
        (ha : after? ['\'', '\'', '\''] (c :: text) = none) :
        ∃ body, closeTriple? '\'' (c :: text) = some (body, rest) := by
      obtain ⟨body, hb⟩ := closeTriple?_of_literalBody? hs
      exact ⟨c :: body, by rw [closeTriple?_char hq ha, hb]; rfl⟩
    by_cases hc : c = '\''
    · subst hc
      rw [literalBody?_quote, if_pos rfl] at h
      split at h
      · next hb =>
        obtain ⟨inside, hi⟩ := Option.isSome_iff_exists.mp hb
        obtain rfl := after?_eq_some_iff.mp hi
        have hclose : splitRun '\'' 2 inside = (s, rest) := Option.some.inj h
        have ha : after? ['\'', '\'', '\''] ('\'' :: (['\'', '\''] ++ inside)) = some inside := rfl
        exact ⟨_, by rw [closeTriple?_close hq ha, hclose]⟩
      · next hb =>
        obtain ⟨s', -, hs⟩ := pushBefore_eq_some h
        refine char hs ?_
        simpa [after?, Text.beginsWith] using hb
    · rw [literalBody?_char hc] at h
      split at h
      · obtain ⟨s', -, hs⟩ := pushBefore_eq_some h
        exact char hs (by simp [after?, Ne.symm hc])
      · cases h

/-! ## 3. All strings

The two kinds are put together.  A string on one line has the form that `Outside` speaks of, a
multi-line string the end that `splitMultiline?` finds, and these are all that the scan asks for.
-/

/-- **The two forms of a string on one line,** and what each stands for: in single quotes the
body itself, in double quotes what the reader makes of its escapes. -/
theorem takeQuoted?_eq_some {text rest : List Char} {s : String}
    (h : takeQuoted? text = some (s, rest)) :
    (∃ body chars, text = '"' :: (body ++ '"' :: rest) ∧ QuotedBody body ∧ '\n' ∉ body
      ∧ basicBody? false .plain (body ++ '"' :: rest) = some (chars, rest)
      ∧ s = String.ofList chars)
    ∨ ∃ body, text = '\'' :: (body ++ '\'' :: rest) ∧ '\'' ∉ body ∧ '\n' ∉ body
      ∧ s = String.ofList body := by
  cases text with
  | nil => cases h
  | cons c tail =>
    by_cases hd : c = '"'
    · subst hd
      obtain ⟨⟨chars, rest'⟩, hs, he⟩ := Option.map_eq_some_iff.mp h
      obtain ⟨rfl, rfl⟩ := Prod.mk.inj he
      obtain ⟨body, rfl, hb, hn⟩ := quotedBody_of_basicBody? ⟨by simp, by simp⟩ hs
      exact .inl ⟨body, chars, rfl, hb, hn, hs, rfl⟩
    · by_cases hs : c = '\''
      · subst hs
        obtain ⟨⟨chars, rest'⟩, hs, he⟩ := Option.map_eq_some_iff.mp h
        obtain ⟨rfl, rfl⟩ := Prod.mk.inj he
        obtain ⟨rfl, hq, hn⟩ := not_mem_of_literalBody? hs
        exact .inr ⟨chars, rfl, hq, hn, rfl⟩
      · simp [takeQuoted?, hd, hs] at h

/-- **A string on one line is text that every search steps over.**  It ends in its quote, so a
carriage return behind it belongs to the line end and not to the string. -/
theorem outside_of_takeQuoted? {text rest : List Char} {s : String}
    (h : takeQuoted? text = some (s, rest)) : ∃ piece, text = piece ++ rest ∧ '\n' ∉ piece
      ∧ piece.getLast? ≠ some '\r' ∧ ∀ p, Outside p piece := by
  rcases takeQuoted?_eq_some h with ⟨body, chars, rfl, hb, hn, -⟩ | ⟨body, rfl, hq, hn, -⟩
  · refine ⟨'"' :: (body ++ ['"']), by simp, by simp [hn], ?_, fun p => .double hb .nil⟩
    rw [← List.cons_append, List.getLast?_concat]
    decide
  · refine ⟨'\'' :: (body ++ ['\'']), by simp, by simp [hn], ?_, fun p => .single hq .nil⟩
    rw [← List.cons_append, List.getLast?_concat]
    decide

/-- The line end behind three quotes belongs to the piece.  The scan does not drop it, and finds
no quote in it. -/
theorem closeTriple?_dropLineEnd {quote : Char} (hq : quote ≠ '\n' ∧ quote ≠ '\r')
    {text body rest : List Char} (h : closeTriple? quote (dropLineEnd text) = some (body, rest)) :
    ∃ body', closeTriple? quote text = some (body', rest) := by
  -- neither character of a line end is a quote or a backslash
  have feed (c : Char) (hc : c = '\n' ∨ c = '\r') {text body : List Char}
      (h : closeTriple? quote text = some (body, rest)) :
      closeTriple? quote (c :: text) = some (c :: body, rest) := by
    have hne : c ≠ '\\' ∧ quote ≠ c := by
      rcases hc with rfl | rfl
      · exact ⟨by decide, hq.1⟩
      · exact ⟨by decide, hq.2⟩
    rw [closeTriple?_char (fun h => hne.1 h.1) (by simp [after?, hne.2]), h]
    rfl
  unfold dropLineEnd at h
  split at h
  · exact ⟨_, feed '\n' (.inl rfl) h⟩
  · exact ⟨_, feed '\r' (.inr rfl) (feed '\n' (.inl rfl) h)⟩
  · exact ⟨body, h⟩

/-- **A multi-line string ends where the scan finds its end.**  The reader may refuse what the
scan accepts, but where it does take a string the rest behind it is the same. -/
theorem splitMultiline?_of_takeString? {text rest : List Char} {s : String}
    (ht : (tripleQuote? text).isSome = true) (h : takeString? text = some (s, rest)) :
    ∃ value, splitMultiline? text = some (value, rest) := by
  -- what the search for the end finds, with the three quotes before it
  have close {quote : Char} (hq : tripleQuote? text = some quote) {body : List Char}
      (hb : closeTriple? quote (text.drop 3) = some (body, rest)) :
      ∃ value, splitMultiline? text = some (value, rest) :=
    ⟨quote :: quote :: quote :: body, by simp [splitMultiline?, hq, hb]⟩
  unfold takeString? at h
  split at h
  · next hq =>
    obtain ⟨⟨s', rest'⟩, hs, he⟩ := Option.map_eq_some_iff.mp h
    obtain ⟨-, rfl⟩ := Prod.mk.inj he
    obtain ⟨body, hb⟩ := closeTriple?_of_basicBody? hs
    obtain ⟨body', hb'⟩ := closeTriple?_dropLineEnd (by decide) hb
    exact close hq hb'
  · next quote hne hq =>
    -- the other quote is the single one
    obtain rfl : quote = '\'' := by
      unfold tripleQuote? at hq
      split at hq
      · exact absurd (Option.some.inj hq).symm hne
      · split at hq
        · exact (Option.some.inj hq).symm
        · cases hq
    obtain ⟨⟨s', rest'⟩, hs, he⟩ := Option.map_eq_some_iff.mp h
    obtain ⟨-, rfl⟩ := Prod.mk.inj he
    obtain ⟨body, hb⟩ := closeTriple?_of_literalBody? hs
    obtain ⟨body', hb'⟩ := closeTriple?_dropLineEnd (by decide) hb
    exact close hq hb'
  · next hq =>
    rw [hq] at ht
    cases ht

end TomlKeep
