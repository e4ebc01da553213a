/-
# Readers look one line ahead

A reader of the grammar takes a piece off the front of a text.  What it takes is decided by that
piece and by the rest of the line behind it: in front of any text that goes on the same way to
the next line end or equals sign, the same piece is taken (`Local`).  So what stands on later
lines can be changed without any reader noticing, and the value behind a key without the reader
of the key noticing.

Every reader of `Toml.Quoting` and `Toml.Term` is local: strings (`local_takeString?`), keys
(`local_takeKey?`), scalars (`local_takeScalar?`) and terms (`local_takeTerm?`).
-/
import Mathlib
import TomlKeep.Proofs.Multiline
import TomlKeep.Proofs.Shape
import TomlKeep.Toml.Term

namespace TomlKeep

open Text Toml

/-! ## 1. Texts with the same first line

Two texts have the same first line if they are the same as far as a reader can look when it stops
there.  The line end and the equals sign are where readers stop, so both stand at the end of what
has to agree.
-/

/-- Two texts that are the same up to the first line end or equals sign, which both have or lack. -/
inductive SameLine : List Char → List Char → Prop where
  | nil : SameLine [] []
  | stop {c : Char} (hc : c = '\n' ∨ c = '=') (a b : List Char) : SameLine (c :: a) (c :: b)
  | cons (c : Char) {a b : List Char} : SameLine a b → SameLine (c :: a) (c :: b)

namespace SameLine

/-- A text has the same first line as itself. -/
theorem refl : ∀ text : List Char, SameLine text text
  | [] => .nil
  | c :: rest => .cons c (refl rest)

variable {a b : List Char}

/-- A piece in front of both texts does not matter. -/
theorem append (h : SameLine a b) : ∀ front : List Char, SameLine (front ++ a) (front ++ b)
  | [] => h
  | c :: front => .cons c (h.append front)

/-- The next character is the same. -/
theorem head? (h : SameLine a b) : a.head? = b.head? := by
  cases h <;> rfl

/-- So whether it is of some kind is the same. -/
theorem startsIn (h : SameLine a b) (p : Char → Bool) : startsIn p a = startsIn p b := by
  cases h <;> rfl

/-- How a text begins does not depend on what follows a piece of its line. -/
theorem startsIn_append (h : SameLine a b) (piece : List Char) (p : Char → Bool) :
    TomlKeep.startsIn p (piece ++ b) = TomlKeep.startsIn p (piece ++ a) :=
  ((h.append piece).startsIn p).symm

/-- A text that begins with a character has that character in the other text too. -/
theorem exists_cons {c : Char} {text : List Char} (h : SameLine (c :: a) text) :
    ∃ rest, text = c :: rest := by
  cases h with
  | stop => exact ⟨_, rfl⟩
  | cons => exact ⟨_, rfl⟩

/-- Behind a character that is neither a line end nor an equals sign, the texts go on alike. -/
theorem tail {c : Char} {text : List Char} (h : SameLine (c :: a) text) (hn : c ≠ '\n')
    (he : c ≠ '=') : ∃ rest, text = c :: rest ∧ SameLine a rest := by
  cases h with
  | stop hc => exact absurd hc (by simp [hn, he])
  | cons _ h => exact ⟨_, rfl, h⟩

/-- A beginning that stays on the line is seen in both texts or in neither. -/
theorem beginsWith (h : SameLine a b) : ∀ {p : List Char}, '\n' ∉ p → '=' ∉ p →
    beginsWith p a = beginsWith p b := by
  induction h with
  | nil => exact fun _ _ => rfl
  | @stop c hc a b =>
    intro p hn he
    cases p with
    | nil => rfl
    | cons d p =>
      -- the word has no line end and no equals sign, so it ends before the stop or is not there
      have hd : d ≠ c := by
        rintro rfl
        rcases hc with rfl | rfl
        · exact hn List.mem_cons_self
        · exact he List.mem_cons_self
      simp [Text.beginsWith, after?, hd]
  | cons c _ ih =>
    intro p hn he
    cases p with
    | nil => rfl
    | cons d p =>
      have ih' := ih (fun e => hn (List.mem_cons_of_mem d e)) fun e => he (List.mem_cons_of_mem d e)
      simp only [Text.beginsWith, after?] at ih' ⊢
      split
      · exact ih'
      · rfl

/-- Three quotes are such a beginning. -/
theorem tripleQuote? (h : SameLine a b) : tripleQuote? a = tripleQuote? b := by
  have hd : '\n' ∉ ['"', '"', '"'] ∧ '=' ∉ ['"', '"', '"'] := by decide
  have hs : '\n' ∉ ['\'', '\'', '\''] ∧ '=' ∉ ['\'', '\'', '\''] := by decide
  simp only [TomlKeep.tripleQuote?, h.beginsWith hd.1 hd.2, h.beginsWith hs.1 hs.2]

end SameLine

/-- **A local reader.**  It takes a piece off the front of a text, and the same one in front of
any text that goes on the same way to the end of the line or to an equals sign.  To say that the
piece is a part of the text and to say that it is taken again is one statement: later proofs cut
a text into the pieces of its readers and put others behind them. -/
def Local {α : Type} (take? : List Char → Option (α × List Char)) : Prop :=
  ∀ ⦃text rest : List Char⦄ ⦃result : α⦄, take? text = some (result, rest) →
    ∃ piece, text = piece ++ rest
      ∧ ∀ other, SameLine rest other → take? (piece ++ other) = some (result, other)

/-- A local reader that is followed by a function of the result. -/
theorem Local.map {α β : Type} {take? : List Char → Option (α × List Char)} (h : Local take?)
    (f : α → β) : Local fun text => (take? text).map fun (result, rest) => (f result, rest) := by
  intro text rest result hr
  obtain ⟨⟨r, behind⟩, ht, he⟩ := Option.map_eq_some_iff.mp hr
  obtain ⟨rfl, rfl⟩ := Prod.mk.inj he
  obtain ⟨piece, hp, hl⟩ := h ht
  exact ⟨piece, hp, fun other ho => by simp only [hl other ho, Option.map_some]⟩

/-! ## 2. Strings

The reader of a string in double quotes is a machine with places.  Its rules are given once more as
one move for each character, with what stands behind the character as the only thing ahead that a
move looks at; that the definition makes those moves is shown by its cases (`basicBody?_cons`), and
from there on strings are read by induction on the text without a look at the rules.
-/

/-- What one character does to the reader of a string in double quotes. -/
inductive BasicMove where
  | fail
  | go (place : BasicPlace)
  | push (c : Char) (place : BasicPlace)
  | close

/-- The move at a character; `rest` is what stands behind it. -/
def basicMove (multi : Bool) (place : BasicPlace) (c : Char) (rest : List Char) : BasicMove :=
  match place with
  -- behind a backslash: a short escape, a code, or the end of the line in a multi-line string
  | .escape =>
    match shortEscape? c, longEscape? c with
    | some d, _ => .push d .plain
    | none, some digits => .go (.code digits 0)
    | none, none =>
      if !multi then .fail
      else if c = '\n' then .go .lineStart
      else if isGap c || (c = '\r' && startsLineFeed rest) then .go .lineEnd
      else .fail
  -- within a code, whose last digit gives the character
  | .code left value =>
    if Numeral.isDigitOf 16 c then
      if left ≤ 1 then
        match charOfCode? (value * 16 + Numeral.digitValue c) with
        | some d => .push d .plain
        | none => .fail
      else .go (.code (left - 1) (value * 16 + Numeral.digitValue c))
    else .fail
  -- behind a backslash at the end of a line, where gaps may stand before the line feed
  | .lineEnd =>
    if c = '\n' then .go .lineStart
    else if isGap c || (c = '\r' && startsLineFeed rest) then .go .lineEnd
    else .fail
  -- at a character of the string itself; at the start of a joined line blanks are dropped
  | place =>
    if place = .lineStart && (isGap c || c = '\n' || (c = '\r' && startsLineFeed rest)) then
      .go .lineStart
    else if c = '\\' then .go .escape
    else if c = '"' then
      if multi && !beginsWith ['"', '"'] rest then .push c .plain else .close
    else if isTextChar c || (multi && (c = '\n' || (c = '\r' && startsLineFeed rest))) then
      .push c .plain
    else .fail

/-- What stands behind a closing quote: it belongs to the string if the string is a multi-line
one. -/
def basicClose (multi : Bool) (rest : List Char) : List Char × List Char :=
  if multi then splitRun '"' 2 (rest.drop 2) else ([], rest)

/-- No string ends with the text: its closing quote is missing. -/
theorem basicBody?_nil (multi : Bool) (place : BasicPlace) : basicBody? multi place [] = none := by
  cases place <;> rfl

/-- **One character of a string in double quotes.**  The reader fails, goes on, goes on with a
character put before what follows, or stops at the closing quotes. -/
theorem basicBody?_cons (multi : Bool) (place : BasicPlace) (c : Char) (rest : List Char) :
    basicBody? multi place (c :: rest) = match basicMove multi place c rest with
      | .fail => none
      | .go next => basicBody? multi next rest
      | .push d next => pushBefore d (basicBody? multi next rest)
      | .close => some (basicClose multi rest) := by
  cases place with
  | escape =>
    simp only [basicBody?, basicMove]
    cases shortEscape? c with
    | some d => rfl
    | none =>
      cases longEscape? c with
      | some digits => rfl
      | none =>
        simp only
        split
        · rfl
        · split
          · rfl
          · split <;> rfl
  | code left value =>
    simp only [basicBody?, basicMove]
    split
    · split
      · cases charOfCode? (value * 16 + Numeral.digitValue c) <;> rfl
      · rfl
    · rfl
  | lineEnd =>
    simp only [basicBody?, basicMove]
    split
    · rfl
    · split <;> rfl
  | plain | lineStart =>
    simp only [basicBody?, basicMove]
    split
    · rfl
    · split
      · rfl
      · split
        · cases multi with
          | false => rfl
          | true =>
            -- a quote of a multi-line string closes it if two more follow
            cases ha : after? ['"', '"'] rest with
            | none => simp [Text.beginsWith, ha]
            | some behind =>
              have hd : rest.drop 2 = behind := by rw [after?_eq_some_iff.mp ha]; rfl
              simp [Text.beginsWith, ha, basicClose, hd]
        · split <;> rfl

/-- A character that stands for itself. -/
theorem basicBody?_char {c : Char} (h1 : c ≠ '"') (h2 : c ≠ '\\') (rest : List Char) :
    basicBody? false .plain (c :: rest)
      = if isTextChar c then pushBefore c (basicBody? false .plain rest) else none := by
  simp [basicBody?, h1, h2]

/-- A short escape. -/
theorem basicBody?_short {c d : Char} (h : shortEscape? c = some d) (multi : Bool)
    (rest : List Char) :
    basicBody? multi .plain ('\\' :: c :: rest) = pushBefore d (basicBody? multi .plain rest) := by
  simp [basicBody?, h]

/-- A move looks no further than the line: at a line feed or at two quotes behind the character. -/
theorem basicMove_congr {a b : List Char} (h : SameLine a b) (multi : Bool) (place : BasicPlace)
    (c : Char) : basicMove multi place c a = basicMove multi place c b := by
  have hq : '\n' ∉ ['"', '"'] ∧ '=' ∉ ['"', '"'] := by decide
  have hf : startsLineFeed a = startsLineFeed b := h.startsIn _
  cases place <;> simp only [basicMove, hf, h.beginsWith hq.1 hq.2]

/-- A closing quote ends a piece that can be moved.  A multi-line string may have up to two more
quotes before its end, so what follows is looked at once more: one character of it, and that is
the same in front of all texts of the line. -/
theorem basicClose_local {multi : Bool} {rest s behind : List Char} {place : BasicPlace} {c : Char}
    (hm : basicMove multi place c rest = .close) (h : basicClose multi rest = (s, behind)) :
    ∃ piece, rest = piece ++ behind ∧ ∀ other, SameLine behind other →
      basicClose multi (piece ++ other) = (s, other) := by
  cases multi with
  | false =>
    obtain ⟨rfl, rfl⟩ := Prod.mk.inj h
    exact ⟨[], rfl, fun other _ => rfl⟩
  | true =>
    -- a multi-line string is closed only by a quote that has two more behind it
    have hrest : ∃ inside, rest = '"' :: '"' :: inside := by
      have hb : Text.beginsWith ['"', '"'] rest = true := by
        cases place <;> simp only [basicMove] at hm <;> grind
      obtain ⟨inside, hi⟩ := Option.isSome_iff_exists.mp hb
      exact ⟨inside, after?_eq_some_iff.mp hi⟩
    obtain ⟨inside, rfl⟩ := hrest
    have hrun := splitRun_append '"' 2 inside
    simp only [basicClose, if_true, List.drop_succ_cons, List.drop_zero] at h
    refine ⟨'"' :: '"' :: s, ?_, fun other ho => ?_⟩
    · rw [h] at hrun
      simpa using hrun.symm
    · have hother : other.head? = (splitRun '"' 2 inside).2.head? := by rw [h, ho.head?]
      have := splitRun_congr hother
      rw [h] at this
      simpa [basicClose] using this

/-- Strings in double quotes are taken locally from every place in them. -/
theorem local_basicBody? (multi : Bool) (place : BasicPlace) : Local (basicBody? multi place) := by
  intro text rest s h
  induction text generalizing place s with
  | nil => rw [basicBody?_nil] at h; cases h
  | cons c tail ih =>
    rw [basicBody?_cons] at h
    -- the move at this character is the same in front of every other text
    have step (piece : List Char) (hp : tail = piece ++ rest) (other : List Char)
        (ho : SameLine rest other) :
        basicMove multi place c (piece ++ other) = basicMove multi place c tail := by
      rw [hp]
      exact (basicMove_congr (ho.append piece) multi place c).symm
    cases hm : basicMove multi place c tail with
    | fail => rw [hm] at h; cases h
    | go next =>
      rw [hm] at h
      obtain ⟨piece, hp, hl⟩ := ih next h
      refine ⟨c :: piece, by rw [hp]; rfl, fun other ho => ?_⟩
      rw [List.cons_append, basicBody?_cons, step piece hp other ho, hm]
      exact hl other ho
    | push d next =>
      rw [hm] at h
      obtain ⟨s', rfl, hs⟩ := pushBefore_eq_some h
      obtain ⟨piece, hp, hl⟩ := ih next hs
      refine ⟨c :: piece, by rw [hp]; rfl, fun other ho => ?_⟩
      rw [List.cons_append, basicBody?_cons, step piece hp other ho, hm]
      simp [hl other ho, pushBefore]
    | close =>
      rw [hm] at h
      obtain ⟨piece, hp, hl⟩ := basicClose_local hm (Option.some.inj h)
      refine ⟨c :: piece, by rw [hp]; rfl, fun other ho => ?_⟩
      rw [List.cons_append, basicBody?_cons, step piece hp other ho, hm]
      simp [hl other ho]

/-- Whether the character may stand in a string in single quotes; `rest` is what stands behind
it. -/
def isLiteralChar (multi : Bool) (c : Char) (rest : List Char) : Bool :=
  isTextChar c || (multi && (c = '\n' || (c = '\r' && startsLineFeed rest)))

/-- Any character but the quote belongs to the string, if it may stand there. -/
theorem literalBody?_char {multi : Bool} {c : Char} (hc : c ≠ '\'') (rest : List Char) :
    literalBody? multi (c :: rest)
      = if isLiteralChar multi c rest then pushBefore c (literalBody? multi rest) else none := by
  rw [literalBody?, if_neg hc]
  rfl

/-- A quote closes a string on one line; in a multi-line string it does so with two more. -/
theorem literalBody?_quote (multi : Bool) (rest : List Char) :
    literalBody? multi ('\'' :: rest)
      = if multi then
          if beginsWith ['\'', '\''] rest then some (splitRun '\'' 2 (rest.drop 2))
          else pushBefore '\'' (literalBody? multi rest)
        else some ([], rest) := by
  rw [literalBody?, if_pos rfl]
  cases ha : after? ['\'', '\''] rest with
  | none => simp [Text.beginsWith, ha]
  | some behind =>
    have hd : rest.drop 2 = behind := by rw [after?_eq_some_iff.mp ha]; rfl
    simp [Text.beginsWith, ha, hd]

/-- Whether a character may stand there depends on the line feed behind it at most. -/
theorem isLiteralChar_congr {a b : List Char} (h : SameLine a b) (multi : Bool) (c : Char) :
    isLiteralChar multi c a = isLiteralChar multi c b := by
  have hf : startsLineFeed a = startsLineFeed b := h.startsIn _
  rw [isLiteralChar, isLiteralChar, hf]

/-- Strings in single quotes are taken locally. -/
theorem local_literalBody? (multi : Bool) : Local (literalBody? multi) := by
  intro text rest s h
  induction text generalizing s with
  | nil => cases h
  | cons c tail ih =>
    by_cases hc : c = '\''
    · subst hc
      rw [literalBody?_quote] at h
      cases multi with
      | false =>
        obtain ⟨rfl, rfl⟩ := Prod.mk.inj (Option.some.inj h)
        exact ⟨['\''], rfl, fun other _ => rfl⟩
      | true =>
        simp only [if_true] at h
        have hq : '\n' ∉ ['\'', '\''] ∧ '=' ∉ ['\'', '\''] := by decide
        -- three quotes close the string, fewer belong to it
        cases hb : beginsWith ['\'', '\''] tail with
        | true =>
          obtain ⟨inside, hi⟩ := Option.isSome_iff_exists.mp hb
          obtain rfl := after?_eq_some_iff.mp hi
          rw [hb, if_pos rfl] at h
          have hs : splitRun '\'' 2 inside = (s, rest) := Option.some.inj h
          have hrun := splitRun_append '\'' 2 inside
          refine ⟨'\'' :: '\'' :: '\'' :: s, ?_, fun other ho => ?_⟩
          · rw [hs] at hrun
            simpa using hrun.symm
          · have hother : other.head? = (splitRun '\'' 2 inside).2.head? := by rw [hs, ho.head?]
            have hsame := splitRun_congr hother
            rw [hs] at hsame
            rw [List.cons_append, literalBody?_quote]
            simpa [Text.beginsWith, after?] using hsame
        | false =>
          rw [hb] at h
          obtain ⟨s', rfl, hs⟩ := pushBefore_eq_some h
          obtain ⟨piece, hp, hl⟩ := ih hs
          refine ⟨'\'' :: piece, by rw [hp]; rfl, fun other ho => ?_⟩
          rw [List.cons_append, literalBody?_quote, ← (ho.append piece).beginsWith hq.1 hq.2, ← hp,
            hb]
          simp [hl other ho, pushBefore]
    · rw [literalBody?_char hc] at h
      split at h
      · next hchar =>
        obtain ⟨s', rfl, hs⟩ := pushBefore_eq_some h
        obtain ⟨piece, hp, hl⟩ := ih hs
        refine ⟨c :: piece, by rw [hp]; rfl, fun other ho => ?_⟩
        rw [List.cons_append, literalBody?_char hc, ← isLiteralChar_congr (ho.append piece), ← hp,
          if_pos hchar, hl other ho]
        rfl
      · cases h

/-- **Strings on one line are taken locally.** -/
theorem local_takeQuoted? : Local takeQuoted? := by
  intro text rest s h
  cases text with
  | nil => cases h
  | cons c tail =>
    by_cases hd : c = '"'
    · subst hd
      obtain ⟨piece, hp, hl⟩ := (local_basicBody? false .plain).map String.ofList h
      exact ⟨'"' :: piece, by rw [hp]; rfl, hl⟩
    · by_cases hs : c = '\''
      · subst hs
        obtain ⟨piece, hp, hl⟩ := (local_literalBody? false).map String.ofList h
        exact ⟨'\'' :: piece, by rw [hp]; rfl, hl⟩
      · simp [takeQuoted?, hd, hs] at h

/-- The line end that does not count stays where it is.  It is dropped in front of any text, and
where there is none, none appears by what is put behind: a carriage return at the end of the
piece would have to meet a line feed. -/
theorem dropLineEnd_append (text : List Char) : ∃ front, text = front ++ dropLineEnd text
    ∧ ∀ other, SameLine (dropLineEnd text) other → dropLineEnd (front ++ other) = other := by
  cases text with
  | nil =>
    refine ⟨[], rfl, fun other ho => ?_⟩
    cases ho
    rfl
  | cons c tail =>
    by_cases hn : c = '\n'
    · subst hn
      exact ⟨['\n'], rfl, fun other _ => rfl⟩
    · by_cases hr : c = '\r' ∧ tail.head? = some '\n'
      · obtain ⟨rfl, ht⟩ := hr
        cases tail with
        | nil => cases ht
        | cons d tail =>
          obtain rfl : d = '\n' := by simpa using ht
          exact ⟨['\r', '\n'], rfl, fun other _ => rfl⟩
      · have kept (tail : List Char) (h : ¬ (c = '\r' ∧ tail.head? = some '\n')) :
            dropLineEnd (c :: tail) = c :: tail := by
          rcases tail with _ | ⟨d, tail⟩
          · simp [dropLineEnd, hn]
          · by_cases hc : c = '\r'
            · subst hc
              have hd : d ≠ '\n' := fun e => h ⟨rfl, by rw [e]; rfl⟩
              simp [dropLineEnd, hd]
            · simp [dropLineEnd, hn, hc]
        refine ⟨[], (kept tail hr).symm, fun other ho => ?_⟩
        rw [kept tail hr] at ho
        -- nothing is dropped, and that is seen from the same two characters in the other text
        by_cases he : c = '='
        · obtain ⟨rest, rfl⟩ := ho.exists_cons
          exact kept rest fun h => absurd (he ▸ h.1) (by decide)
        · obtain ⟨rest, rfl, hs⟩ := ho.tail hn he
          exact kept rest fun h => hr ⟨h.1, hs.head?.trans h.2⟩

/-- What stands behind three quotes is taken locally if the body of the string is. -/
theorem local_behindTriple {body? : List Char → Option (List Char × List Char)} (h : Local body?)
    {quote : Char} {text rest s : List Char} (ht : tripleQuote? text = some quote)
    (hr : body? (dropLineEnd (text.drop 3)) = some (s, rest)) :
    ∃ piece, text = piece ++ rest ∧ ∀ other, SameLine rest other →
      body? (dropLineEnd ((piece ++ other).drop 3)) = some (s, other) := by
  obtain ⟨inside, rfl⟩ := tripleQuote?_eq_some ht
  simp only [List.drop_succ_cons, List.drop_zero] at hr
  obtain ⟨front, hf, hdrop⟩ := dropLineEnd_append inside
  obtain ⟨piece, hp, hl⟩ := h hr
  refine ⟨quote :: quote :: quote :: (front ++ piece), ?_, fun other ho => ?_⟩
  · rw [List.cons_append, List.cons_append, List.cons_append, List.append_assoc, ← hp, ← hf]
  · have hsame : SameLine (dropLineEnd inside) (piece ++ other) := by
      rw [hp]
      exact ho.append piece
    simp only [List.cons_append, List.append_assoc, List.drop_succ_cons, List.drop_zero]
    rw [hdrop _ hsame, hl other ho]

/-- **Strings are taken locally.** -/
theorem local_takeString? : Local takeString? := by
  intro text rest s h
  -- which kind of string it is, the same characters tell
  have keep (piece : List Char) (hp : text = piece ++ rest) (other : List Char)
      (ho : SameLine rest other) : tripleQuote? (piece ++ other) = tripleQuote? text := by
    rw [hp]
    exact ((ho.append piece).tripleQuote?).symm
  unfold takeString? at h
  split at h
  · next hq =>
    obtain ⟨⟨body, behind⟩, hb, he⟩ := Option.map_eq_some_iff.mp h
    obtain ⟨rfl, rfl⟩ := Prod.mk.inj he
    obtain ⟨piece, hp, hl⟩ := local_behindTriple (local_basicBody? true .plain) hq hb
    refine ⟨piece, hp, fun other ho => ?_⟩
    rw [takeString?, keep piece hp other ho, hq]
    simp only [hl other ho, Option.map_some]
  · next quote hne hq =>
    obtain ⟨⟨body, behind⟩, hb, he⟩ := Option.map_eq_some_iff.mp h
    obtain ⟨rfl, rfl⟩ := Prod.mk.inj he
    obtain ⟨piece, hp, hl⟩ := local_behindTriple (local_literalBody? true) hq hb
    refine ⟨piece, hp, fun other ho => ?_⟩
    rw [takeString?, keep piece hp other ho, hq]
    simp only [hl other ho, Option.map_some]
  · next hq =>
    obtain ⟨piece, hp, hl⟩ := local_takeQuoted? h
    refine ⟨piece, hp, fun other ho => ?_⟩
    rw [takeString?, keep piece hp other ho, hq]
    exact hl other ho

/-! ## 3. Keys

A key is its parts with dots between them and gaps around them.  The parts are runs of bare
characters or quoted strings, each taken locally; a dot behind the gap says whether another part
follows.
-/

/-- A run of characters is taken locally: it ends at a character that is not of its kind, and the
other text has that character too or ends there as well. -/
theorem takeWhile_append_sameLine {p : Char → Bool} {text other : List Char}
    (h : SameLine (text.dropWhile p) other) :
    (text.takeWhile p ++ other).takeWhile p = text.takeWhile p
      ∧ (text.takeWhile p ++ other).dropWhile p = other := by
  refine takeWhile_append_stop (fun c hc => forall_takeWhile hc) fun c hc => ?_
  have hstop := List.head?_dropWhile_not p text
  rw [h.head?, hc] at hstop
  simpa using hstop

/-- A local reader behind a run of characters. -/
theorem Local.skipRun {α : Type} {take? : List Char → Option (α × List Char)} (h : Local take?)
    (p : Char → Bool) : Local fun text => take? (text.dropWhile p) := by
  intro text rest result hr
  obtain ⟨piece, hp, hl⟩ := h hr
  refine ⟨text.takeWhile p ++ piece, ?_, fun other ho => ?_⟩
  · rw [List.append_assoc, ← hp, List.takeWhile_append_dropWhile]
  · have hsame : SameLine (text.dropWhile p) (piece ++ other) := by
      rw [hp]
      exact ho.append piece
    simp only [List.append_assoc, (takeWhile_append_sameLine hsame).2, hl other ho]

/-- One part of a key is taken locally. -/
theorem local_takeSimpleKey? : Local takeSimpleKey? := by
  intro text rest name h
  unfold takeSimpleKey? at h
  split at h
  · next hq =>
    obtain ⟨piece, hp, hl⟩ := local_takeQuoted? h
    refine ⟨piece, hp, fun other ho => ?_⟩
    rw [takeSimpleKey?, ho.startsIn_append, ← hp, if_pos hq]
    exact hl other ho
  · next hq =>
    simp only at h
    split at h
    · cases h
    · next hne =>
      obtain ⟨rfl, rfl⟩ := Prod.mk.inj (Option.some.inj h)
      -- a bare key is a run of characters
      have hp : text = text.takeWhile isBareKeyChar ++ text.dropWhile isBareKeyChar :=
        List.takeWhile_append_dropWhile.symm
      refine ⟨_, hp, fun other ho => ?_⟩
      obtain ⟨h1, h2⟩ := takeWhile_append_sameLine ho
      rw [takeSimpleKey?, ho.startsIn_append, ← hp, if_neg hq]
      simp only [h1, h2, if_neg hne]

/-- A key without its recursion: a part, a gap, and behind a dot the other parts. -/
theorem takeKey?_succ (bound : Nat) (text : List Char) :
    takeKey? (bound + 1) text
      = (takeSimpleKey? (text.dropWhile isGap)).bind fun (part, behind) =>
          if startsIn (· == '.') (behind.dropWhile isGap) then
            (takeKey? bound ((behind.dropWhile isGap).drop 1)).map
              fun (parts, rest) => (part :: parts, rest)
          else some ([part], behind.dropWhile isGap) := by
  rw [takeKey?]
  rcases takeSimpleKey? (text.dropWhile isGap) with _ | ⟨part, behind⟩
  · rfl
  · simp only [Option.bind_some]
    rcases behind.dropWhile isGap with _ | ⟨c, rest⟩
    · rfl
    · by_cases hc : c = '.'
      · subst hc
        simp only [startsIn, beq_self_eq_true, if_true, List.drop_succ_cons, List.drop_zero]
        rcases takeKey? bound rest with _ | ⟨parts, rest⟩ <;> rfl
      · simp [startsIn, hc]

/-- A text that starts with a character is that character and the rest. -/
theorem eq_cons_of_startsIn {c : Char} {text : List Char} (h : startsIn (· == c) text = true) :
    text = c :: text.drop 1 := by
  cases text with
  | nil => simp [startsIn] at h
  | cons d rest =>
    obtain rfl : d = c := by simpa [startsIn] using h
    rfl

/-- **Keys are taken locally.**  The piece is the part with the gaps around it, and behind a dot
the piece of the other parts; the bound on their number is the same for both texts. -/
theorem local_takeKey? : ∀ bound : Nat, Local (takeKey? bound)
  | 0 => fun text rest path h => by cases h
  | bound + 1 => fun text rest path h => by
    rw [takeKey?_succ] at h
    obtain ⟨⟨part, behind⟩, hk, h⟩ := Option.bind_eq_some_iff.mp h
    obtain ⟨piece, hp, hl⟩ := local_takeSimpleKey?.skipRun isGap hk
    have hgap : behind.takeWhile isGap ++ behind.dropWhile isGap = behind :=
      List.takeWhile_append_dropWhile
    -- the part and the gap behind it are taken in front of any text of this line
    have next (ahead : List Char) (hs : SameLine (behind.dropWhile isGap) ahead) :
        takeKey? (bound + 1) (piece ++ (behind.takeWhile isGap ++ ahead))
          = if startsIn (· == '.') ahead then
              (takeKey? bound (ahead.drop 1)).map fun (parts, rest) => (part :: parts, rest)
            else some ([part], ahead) := by
      have hsame : SameLine behind (behind.takeWhile isGap ++ ahead) := by
        have := hs.append (behind.takeWhile isGap)
        rwa [hgap] at this
      have hl' : takeSimpleKey? ((piece ++ (behind.takeWhile isGap ++ ahead)).dropWhile isGap)
          = some (part, behind.takeWhile isGap ++ ahead) := hl _ hsame
      rw [takeKey?_succ, hl', Option.bind_some]
      simp only [(takeWhile_append_sameLine hs).2]
    simp only at h
    split at h
    · next hdot =>
      obtain ⟨⟨parts, rest'⟩, hr, he⟩ := Option.map_eq_some_iff.mp h
      obtain ⟨rfl, rfl⟩ := Prod.mk.inj he
      obtain ⟨more, hm, hlm⟩ := local_takeKey? bound hr
      have hdrop := eq_cons_of_startsIn hdot
      rw [hm] at hdrop
      refine ⟨piece ++ (behind.takeWhile isGap ++ '.' :: more), ?_, fun other ho => ?_⟩
      · have hbehind : behind = behind.takeWhile isGap ++ '.' :: (more ++ rest') := by
          rw [← hdrop, hgap]
        rw [hp, List.append_assoc, List.append_assoc, List.cons_append, ← hbehind]
      · have hsame : SameLine (behind.dropWhile isGap) ('.' :: (more ++ other)) := by
          rw [hdrop]
          exact (ho.append more).cons '.'
        have hnext := next _ hsame
        simp only [startsIn, beq_self_eq_true, if_true, List.drop_succ_cons, List.drop_zero,
          hlm other ho, Option.map_some] at hnext
        simpa using hnext
    · next hdot =>
      obtain ⟨rfl, rfl⟩ := Prod.mk.inj (Option.some.inj h)
      refine ⟨piece ++ behind.takeWhile isGap, ?_, fun other ho => ?_⟩
      · rw [List.append_assoc, hgap]
        exact hp
      · rw [List.append_assoc, next other ho, if_neg (by rwa [← ho.startsIn])]

/-! ## 4. Scalars

A scalar without quotes is a run of characters, except that a date and a time may be joined by one
space.  The space is looked for behind the run, so a token ends where neither the run nor such a
time goes on.
-/

/-- A space that joins a date and a time. -/
def joinsTime (token behind : List Char) : Bool :=
  (Datetime.takeDay? token).any (fun (_, rest) => rest.isEmpty)
    && startsIn (· == ' ') behind && startsIn Char.isDigit (behind.drop 1)

/-- A token is one run of characters, or two with a space between. -/
theorem takeToken_eq (text : List Char) :
    takeToken text
      = if joinsTime (text.takeWhile isTokenChar) (text.dropWhile isTokenChar) then
          (text.takeWhile isTokenChar
              ++ ' ' :: ((text.dropWhile isTokenChar).drop 1).takeWhile isTokenChar,
            ((text.dropWhile isTokenChar).drop 1).dropWhile isTokenChar)
        else (text.takeWhile isTokenChar, text.dropWhile isTokenChar) := by
  unfold takeToken joinsTime
  simp only
  split
  -- a day with a space and a digit behind it; anything else is one run
  · next day time hd hb =>
    rw [hd, hb]
    cases time with
    | nil => simp [startsIn]
    | cons d time =>
      simp only [Option.any_some, List.isEmpty_nil, startsIn, beq_self_eq_true, Bool.and_true,
        Bool.true_and, List.drop_succ_cons, List.drop_zero]
      rfl
  · next hno =>
    rw [if_neg]
    intro hj
    simp only [Bool.and_eq_true, Option.any_eq_true] at hj
    obtain ⟨⟨⟨⟨day, rest⟩, hd, hr⟩, hs⟩, -⟩ := hj
    obtain rfl : rest = [] := by simpa using hr
    exact hno day _ hd (eq_cons_of_startsIn hs)

/-- The characters of a token: a space stands at most between a date and a time, so neither at
its beginning nor at its end. -/
theorem takeToken_chars {text token behind : List Char} (h : takeToken text = (token, behind)) :
    (∀ c ∈ token, isTokenChar c = true ∨ c = ' ') ∧ token.head? ≠ some ' '
      ∧ token.getLast? ≠ some ' ' := by
  have hspace : ∀ {c : Char}, isTokenChar c = true → c ≠ ' ' := by
    rintro c hc rfl
    exact absurd hc (by decide)
  have htoken (t : List Char) : ∀ c ∈ t.takeWhile isTokenChar, isTokenChar c = true :=
    fun c hc => List.all_eq_true.mp List.all_takeWhile c hc
  rw [takeToken_eq] at h
  split at h
  · next hj =>
    obtain ⟨rfl, -⟩ := Prod.mk.inj h
    simp only [joinsTime, Bool.and_eq_true] at hj
    -- a date is not empty, and a time begins with a digit
    have hfront : text.takeWhile isTokenChar ≠ [] := by
      intro hn
      rw [hn] at hj
      exact absurd hj.1.1 (by decide)
    have hback : ((text.dropWhile isTokenChar).drop 1).takeWhile isTokenChar ≠ [] := by
      cases hd : (text.dropWhile isTokenChar).drop 1 with
      | nil => simp [hd, startsIn] at hj
      | cons d rest =>
        have hdigit : d.isDigit = true := by simpa [hd, startsIn] using hj.2
        have hchar : isTokenChar d = true := by
          have ne {e : Char} (he : e.isDigit = false) : d ≠ e := by
            rintro rfl
            simp [hdigit] at he
          simp [isTokenChar, isGap, ne]
        simp [hchar]
    refine ⟨fun c hc => ?_, fun hc => ?_, fun hc => ?_⟩
    · rcases List.mem_append.mp hc with hc | hc
      · exact .inl (htoken _ c hc)
      · rcases List.mem_cons.mp hc with rfl | hc
        · exact .inr rfl
        · exact .inl (htoken _ c hc)
    · rw [List.head?_append_of_ne_nil _ hfront] at hc
      exact hspace (htoken _ _ (List.mem_of_mem_head? hc)) rfl
    · rw [List.getLast?_append_of_ne_nil _ (by simp), List.getLast?_cons_of_ne_nil hback] at hc
      exact hspace (htoken _ _ (List.mem_of_mem_getLast? hc)) rfl
  · obtain ⟨rfl, -⟩ := Prod.mk.inj h
    exact ⟨fun c hc => .inl (htoken _ c hc),
      fun hc => hspace (htoken _ _ (List.mem_of_mem_head? hc)) rfl,
      fun hc => hspace (htoken _ _ (List.mem_of_mem_getLast? hc)) rfl⟩

/-- Whether a space joins a date and a time is seen from the two characters behind the date. -/
theorem joinsTime_congr {a b : List Char} (h : SameLine a b) (token : List Char) :
    joinsTime token a = joinsTime token b := by
  have hs := h.startsIn (· == ' ')
  have hd : startsIn (· == ' ') a = true →
      startsIn Char.isDigit (a.drop 1) = startsIn Char.isDigit (b.drop 1) := by
    intro ha
    have hcons := eq_cons_of_startsIn ha
    rw [hcons] at h
    obtain ⟨rest, rfl, ht⟩ := h.tail (by decide) (by decide)
    exact ht.startsIn _
  unfold joinsTime
  rw [← hs]
  cases ha : startsIn (· == ' ') a with
  | false => simp
  | true => rw [hd ha]

/-- **An unquoted token is taken locally.** -/
theorem local_takeToken {text token behind : List Char} (h : takeToken text = (token, behind)) :
    text = token ++ behind ∧ ∀ other, SameLine behind other →
      takeToken (token ++ other) = (token, other) := by
  have hcut : text.takeWhile isTokenChar ++ text.dropWhile isTokenChar = text :=
    List.takeWhile_append_dropWhile
  rw [takeToken_eq] at h
  split at h
  · next hj =>
    obtain ⟨rfl, rfl⟩ := Prod.mk.inj h
    have hj' := hj
    simp only [joinsTime, Bool.and_eq_true] at hj
    have hcons := eq_cons_of_startsIn hj.1.2
    have htime : (List.drop 1 (text.dropWhile isTokenChar)).takeWhile isTokenChar
        ++ (List.drop 1 (text.dropWhile isTokenChar)).dropWhile isTokenChar
        = List.drop 1 (text.dropWhile isTokenChar) := List.takeWhile_append_dropWhile
    refine ⟨?_, fun other ho => ?_⟩
    · rw [List.append_assoc, List.cons_append, htime, ← hcons, hcut]
    -- the second run is taken first, so that the first sees the same space and digit behind it
    · obtain ⟨h1, h2⟩ := takeWhile_append_sameLine ho
      have hsame : SameLine (text.dropWhile isTokenChar)
          (' ' :: ((List.drop 1 (text.dropWhile isTokenChar)).takeWhile isTokenChar ++ other)) := by
        have :=
          (ho.append ((List.drop 1 (text.dropWhile isTokenChar)).takeWhile isTokenChar)).cons ' '
        rwa [htime, ← hcons] at this
      obtain ⟨h3, h4⟩ := takeWhile_append_sameLine hsame
      rw [List.append_assoc, List.cons_append, takeToken_eq, h3, h4, ← joinsTime_congr hsame,
        if_pos hj']
      simp only [List.drop_succ_cons, List.drop_zero, h1, h2]
  · next hj =>
    obtain ⟨rfl, rfl⟩ := Prod.mk.inj h
    refine ⟨hcut.symm, fun other ho => ?_⟩
    obtain ⟨h1, h2⟩ := takeWhile_append_sameLine ho
    rw [takeToken_eq, h1, h2, ← joinsTime_congr ho, if_neg hj]

/-- **Scalars are taken locally.** -/
theorem local_takeScalar? : Local takeScalar? := by
  intro text rest term h
  unfold takeScalar? at h
  split at h
  · next hq =>
    obtain ⟨piece, hp, hl⟩ := local_takeString?.map (fun s => Term.leaf (.string s)) h
    refine ⟨piece, hp, fun other ho => ?_⟩
    rw [takeScalar?, ho.startsIn_append, ← hp, if_pos hq]
    exact hl other ho
  · next hq =>
    -- no quote: the value is read from the token alone
    rcases ht : takeToken text with ⟨token, behind⟩
    rw [ht] at h
    obtain ⟨value, hv, he⟩ := Option.map_eq_some_iff.mp h
    obtain ⟨rfl, rfl⟩ := Prod.mk.inj he
    obtain ⟨hp, hl⟩ := local_takeToken ht
    refine ⟨token, hp, fun other ho => ?_⟩
    rw [takeScalar?, ho.startsIn_append, ← hp, if_neg hq, hl other ho]
    simp only [hv, Option.map_some]

/-! ## 5. Arrays and tables

Arrays and inline tables are lists in brackets that differ in what their members are and in what
closes them, so they are one loop with two parameters.  A loop runs with a bound on its rounds, and
the bounds of two texts of different lengths differ; what is asked of a loop is that the piece it
takes needs no more rounds than it has characters.
-/

/-- A local reader of what does not count. -/
def LocalSkip (skip? : List Char → Option (List Char)) : Prop :=
  ∀ ⦃text rest : List Char⦄, skip? text = some rest →
    ∃ piece, text = piece ++ rest ∧ ∀ other, SameLine rest other →
      skip? (piece ++ other) = some other

/-- White space, line ends and comments between members are skipped locally. -/
theorem localSkip_skipFiller? (comment : Bool) : LocalSkip (skipFiller? comment) := by
  intro text rest h
  induction text generalizing comment with
  | nil =>
    obtain rfl := Option.some.inj h
    refine ⟨[], rfl, fun other ho => ?_⟩
    cases ho
    rfl
  | cons c tail ih =>
    -- a carriage return is skipped with the line feed behind it only
    have step (piece : List Char) (hp : tail = piece ++ rest) (other : List Char)
        (ho : SameLine rest other) : startsLineFeed (piece ++ other) = startsLineFeed tail := by
      rw [hp]
      exact ((ho.append piece).startsIn _).symm
    rw [skipFiller?] at h
    split at h
    · next hn =>
      obtain ⟨piece, hp, hl⟩ := ih false h
      refine ⟨c :: piece, by rw [hp]; rfl, fun other ho => ?_⟩
      rw [List.cons_append, skipFiller?, if_pos hn, hl other ho]
    · next hn =>
      split at h
      · next hr =>
        split at h
        · next hf =>
          obtain ⟨piece, hp, hl⟩ := ih comment h
          refine ⟨c :: piece, by rw [hp]; rfl, fun other ho => ?_⟩
          rw [List.cons_append, skipFiller?, if_neg hn, if_pos hr, step piece hp other ho,
            if_pos hf, hl other ho]
        · cases h
      · next hr =>
        split at h
        · next hc =>
          split at h
          · next ht =>
            obtain ⟨piece, hp, hl⟩ := ih true h
            refine ⟨c :: piece, by rw [hp]; rfl, fun other ho => ?_⟩
            rw [List.cons_append, skipFiller?, if_neg hn, if_neg hr, if_pos hc, if_pos ht,
              hl other ho]
          · cases h
        · next hc =>
          split at h
          · next hg =>
            obtain ⟨piece, hp, hl⟩ := ih false h
            refine ⟨c :: piece, by rw [hp]; rfl, fun other ho => ?_⟩
            rw [List.cons_append, skipFiller?, if_neg hn, if_neg hr, if_neg hc, if_pos hg,
              hl other ho]
          · next hg =>
            split at h
            · next hh =>
              obtain ⟨piece, hp, hl⟩ := ih true h
              refine ⟨c :: piece, by rw [hp]; rfl, fun other ho => ?_⟩
              rw [List.cons_append, skipFiller?, if_neg hn, if_neg hr, if_neg hc, if_neg hg,
                if_pos hh, hl other ho]
            · next hh =>
              obtain rfl := Option.some.inj h
              -- the next character counts, and the other text begins with it as well
              refine ⟨[], rfl, fun other ho => ?_⟩
              obtain ⟨rest, rfl⟩ := ho.exists_cons
              rw [List.nil_append, skipFiller?, if_neg hn, if_neg hr, if_neg hc, if_neg hg,
                if_neg hh]

/-- **A local loop.**  Each round takes a character at least, so a bound that is as great as the
piece is long does. -/
def LocalLoop {α : Type} (loop? : Nat → List Char → Option (α × List Char)) : Prop :=
  ∀ ⦃bound : Nat⦄ ⦃text rest : List Char⦄ ⦃result : α⦄, loop? bound text = some (result, rest) →
    ∃ piece, text = piece ++ rest ∧ ∀ other, SameLine rest other →
      ∀ b, piece.length ≤ b → loop? b (piece ++ other) = some (result, other)

/-- A loop whose bound is the length of the text. -/
theorem LocalLoop.atLength {α : Type} {loop? : Nat → List Char → Option (α × List Char)}
    (h : LocalLoop loop?) : Local fun text => loop? (text.length + 1) text := by
  intro text rest result hr
  obtain ⟨piece, hp, hl⟩ := h hr
  exact ⟨piece, hp, fun other ho => hl other ho _ (by simp; omega)⟩

/-- What goes on behind a member of a list in brackets: nothing, or the rest of the members. -/
def goOn {α : Type} (rest? : List Char → Option (List α × List Char)) (closing : Char) (result : α)
    (text : List Char) : Option (List α × List Char) :=
  if startsIn (· == closing) text then some ([result], text.drop 1)
  else if startsIn (· == ',') text then
    (rest? (text.drop 1)).map fun (results, behind) => (result :: results, behind)
  else none

/-- The members of a list in brackets, whatever they are and whatever closes it. -/
def takeMembers? {α : Type} (closing : Char) (item : List Char → Option (α × List Char)) :
    Nat → List Char → Option (List α × List Char)
  | 0, _ => none
  | bound + 1, text => (skipFiller? false text).bind fun text =>
    if startsIn (· == closing) text then some ([], text.drop 1)
    else
      (item text).bind fun (result, text) => (skipFiller? false text).bind
        (goOn (takeMembers? closing item bound) closing result)

/-- Behind an item the array ends, or goes on behind a comma. -/
theorem behindItem_eq (more : List Char → Option (List Term × List Char)) (term : Term)
    (text : List Char) :
    (match skipFiller? false text with
      | some (']' :: behind) => some ([term], behind)
      | some (',' :: text) =>
        match more text with
        | none => none
        | some (terms, behind) => some (term :: terms, behind)
      | _ => none)
    = (skipFiller? false text).bind (goOn more ']' term) := by
  rcases skipFiller? false text with _ | _ | ⟨c, text⟩
  · rfl
  · rfl
  · by_cases h1 : c = ']'
    · subst h1
      rfl
    · by_cases h2 : c = ','
      · subst h2
        simp only [Option.bind_some, goOn, startsIn, List.drop_succ_cons, List.drop_zero]
        rcases more text with _ | ⟨terms, rest⟩ <;> rfl
      · simp [goOn, startsIn, h1, h2]

/-- Arrays are lists of terms in brackets. -/
theorem takeItems?_eq (item : List Char → Option (Term × List Char)) : ∀ (bound : Nat)
    (text : List Char), takeItems? item bound text = takeMembers? ']' item bound text
  | 0, _ => rfl
  | bound + 1, text => by
    have ih : takeItems? item bound = takeMembers? ']' item bound :=
      funext (takeItems?_eq item bound)
    rw [takeItems?, takeMembers?, ← ih]
    -- nothing left to read, or the closing bracket, or an item
    rcases skipFiller? false text with _ | _ | ⟨c, text⟩
    · rfl
    · simp only [Option.bind_some, startsIn]
      rcases item [] with _ | ⟨term, text⟩
      · rfl
      · exact behindItem_eq _ term text
    · by_cases hc : c = ']'
      · subst hc
        rfl
      · have hclose : startsIn (· == ']') (c :: text) = false := by simp [startsIn, hc]
        simp only [Option.bind_some, hclose]
        split
        · next h => cases h
        · next rest h => exact absurd (List.cons.inj (Option.some.inj h)).1 hc
        · next other _ h =>
          obtain rfl := Option.some.inj h
          rcases item (c :: text) with _ | ⟨term, text⟩
          · rfl
          · exact behindItem_eq _ term text

/-- Behind an entry the inline table ends, or goes on behind a comma. -/
theorem behindEntry_eq (more : List Char → Option (List (List String × Term) × List Char))
    (entry : List String × Term) (text : List Char) :
    (match skipFiller? false text with
      | some ('}' :: behind) => some ([entry], behind)
      | some (',' :: text) =>
        match more text with
        | none => none
        | some (entries, behind) => some (entry :: entries, behind)
      | _ => none)
    = (skipFiller? false text).bind (goOn more '}' entry) := by
  rcases skipFiller? false text with _ | _ | ⟨c, text⟩
  · rfl
  · rfl
  · by_cases h1 : c = '}'
    · subst h1
      rfl
    · by_cases h2 : c = ','
      · subst h2
        simp only [Option.bind_some, goOn, startsIn, List.drop_succ_cons, List.drop_zero]
        rcases more text with _ | ⟨entries, rest⟩ <;> rfl
      · simp [goOn, startsIn, h1, h2]

/-- Inline tables are lists of entries in braces. -/
theorem takeEntries?_eq (item : List Char → Option (Term × List Char)) : ∀ (bound : Nat)
    (text : List Char), takeEntries? item bound text
      = takeMembers? '}' (takeBinding? (skipFiller? false) item) bound text
  | 0, _ => rfl
  | bound + 1, text => by
    have ih : takeEntries? item bound
        = takeMembers? '}' (takeBinding? (skipFiller? false) item) bound :=
      funext (takeEntries?_eq item bound)
    rw [takeEntries?, takeMembers?, ← ih]
    -- nothing left to read, or the closing brace, or an entry
    rcases skipFiller? false text with _ | _ | ⟨c, text⟩
    · rfl
    · simp only [Option.bind_some, startsIn]
      rcases takeBinding? (skipFiller? false) item [] with _ | ⟨entry, text⟩
      · rfl
      · exact behindEntry_eq _ entry text
    · by_cases hc : c = '}'
      · subst hc
        rfl
      · have hclose : startsIn (· == '}') (c :: text) = false := by simp [startsIn, hc]
        simp only [Option.bind_some, hclose]
        split
        · next h => cases h
        · next rest h => exact absurd (List.cons.inj (Option.some.inj h)).1 hc
        · next other _ h =>
          obtain rfl := Option.some.inj h
          rcases takeBinding? (skipFiller? false) item (c :: text) with _ | ⟨entry, text⟩
          · rfl
          · exact behindEntry_eq _ entry text

/-- **Lists in brackets are taken locally.**  A round takes what does not count, a member, what
does not count again, and a comma; each of them is local, and the closing bracket ends the list. -/
theorem localLoop_takeMembers? {α : Type} {closing : Char} (hn : closing ≠ '\n')
    {item : List Char → Option (α × List Char)} (hi : Local item) :
    LocalLoop (takeMembers? closing item) := by
  intro bound
  induction bound with
  | zero => exact fun text rest results h => by cases h
  | succ bound ih =>
    intro text rest results h
    -- what is dropped behind a character that all texts of the line have
    have dropped {c : Char} {text other : List Char} (hc : startsIn (· == c) text = true) :
        SameLine (text.drop 1) other → SameLine text (c :: other) := by
      intro ho
      rw [eq_cons_of_startsIn hc]
      exact ho.cons c
    rw [takeMembers?] at h
    obtain ⟨text1, h1, h⟩ := Option.bind_eq_some_iff.mp h
    obtain ⟨p1, hp1, hl1⟩ := localSkip_skipFiller? false h1
    by_cases hc : startsIn (· == closing) text1 = true
    · rw [if_pos hc] at h
      obtain ⟨rfl, rfl⟩ := Prod.mk.inj (Option.some.inj h)
      refine ⟨p1 ++ [closing], ?_, fun other ho b hb => ?_⟩
      · rw [List.append_assoc, List.singleton_append, ← eq_cons_of_startsIn hc, hp1]
      -- one round is enough for the closing bracket
      · obtain ⟨b, rfl⟩ : ∃ n, b = n + 1 := ⟨b - 1, by simp at hb; omega⟩
        rw [List.append_assoc, List.singleton_append, takeMembers?, hl1 _ (dropped hc ho),
          Option.bind_some]
        simp [startsIn]
    · rw [if_neg hc] at h
      obtain ⟨⟨result, text2⟩, h2, h⟩ := Option.bind_eq_some_iff.mp h
      obtain ⟨p2, hp2, hl2⟩ := hi h2
      obtain ⟨text3, h3, h⟩ := Option.bind_eq_some_iff.mp h
      obtain ⟨p3, hp3, hl3⟩ := localSkip_skipFiller? false h3
      -- the three pieces in front of any text that goes on as `text3` does
      have front (other : List Char) (ho : SameLine text3 other) (b : Nat) :
          takeMembers? closing item (b + 1) (p1 ++ (p2 ++ (p3 ++ other)))
            = goOn (takeMembers? closing item b) closing result other := by
        have hs2 : SameLine text2 (p3 ++ other) := by
          rw [hp3]
          exact ho.append p3
        have hs1 : SameLine text1 (p2 ++ (p3 ++ other)) := by
          rw [hp2]
          exact hs2.append p2
        rw [takeMembers?, hl1 _ hs1, Option.bind_some, if_neg (by rwa [← hs1.startsIn]), hl2 _ hs2,
          Option.bind_some]
        simp only [hl3 _ ho, Option.bind_some]
      rw [goOn] at h
      split at h
      · next hclose =>
        obtain ⟨rfl, rfl⟩ := Prod.mk.inj (Option.some.inj h)
        refine ⟨p1 ++ (p2 ++ (p3 ++ [closing])), ?_, fun other ho b hb => ?_⟩
        · simp only [List.append_assoc, List.singleton_append, ← eq_cons_of_startsIn hclose, ← hp3,
            ← hp2, hp1]
        · obtain ⟨b, rfl⟩ : ∃ n, b = n + 1 := ⟨b - 1, by simp at hb; omega⟩
          simp only [List.append_assoc, List.singleton_append]
          rw [front _ (dropped hclose ho)]
          simp [goOn, startsIn]
      · next hclose =>
        split at h
        · next hcomma =>
          obtain ⟨⟨results', behind⟩, hr, he⟩ := Option.map_eq_some_iff.mp h
          obtain ⟨rfl, rfl⟩ := Prod.mk.inj he
          obtain ⟨p4, hp4, hl4⟩ := ih hr
          have hne : ',' ≠ closing := by
            rintro rfl
            exact hclose hcomma
          refine ⟨p1 ++ (p2 ++ (p3 ++ ',' :: p4)), ?_, fun other ho b hb => ?_⟩
          · simp only [List.append_assoc, List.cons_append, ← hp4, ← eq_cons_of_startsIn hcomma,
              ← hp3, ← hp2, hp1]
          -- the comma pays for this round, and the rest of the bound is for the other members
          · have hb' : p4.length + 1 ≤ b := by
              simp only [List.length_append, List.length_cons] at hb
              omega
            obtain ⟨b, rfl⟩ : ∃ n, b = n + 1 := ⟨b - 1, by omega⟩
            have hs : SameLine (text3.drop 1) (p4 ++ other) := by
              rw [hp4]
              exact ho.append p4
            simp only [List.append_assoc, List.cons_append]
            rw [front _ (dropped hcomma hs)]
            simp [goOn, startsIn, hne, hl4 other ho b (by omega)]
        · cases h

/-- An entry without its matches: a key, an equals sign and a term, with what does not count
between. -/
theorem takeBinding?_eq (skip? : List Char → Option (List Char))
    (item : List Char → Option (Term × List Char)) (text : List Char) :
    takeBinding? skip? item text = (takeKey? maxKeyParts text).bind fun (path, text) =>
      (skip? text).bind fun text =>
        if startsIn (· == '=') text then
          (skip? (text.drop 1)).bind fun text =>
            (item text).map fun (term, text) => ((path, term), text)
        else none := by
  rw [takeBinding?]
  -- each part is there or not, in the order they are taken
  rcases takeKey? maxKeyParts text with _ | ⟨path, text⟩
  · rfl
  simp only [Option.bind_some]
  rcases skip? text with _ | _ | ⟨c, text⟩
  · rfl
  · rfl
  · by_cases hc : c = '='
    · subst hc
      simp only [Option.bind_some, startsIn, beq_self_eq_true, if_true, List.drop_succ_cons,
        List.drop_zero]
      rcases skip? text with _ | text
      · rfl
      simp only [Option.bind_some]
      rcases item text with _ | ⟨term, text⟩ <;> rfl
    · simp [startsIn, hc]

/-- **Entries are taken locally.**  This holds of assignments on a line and of the entries of
inline tables, which skip different things around the equals sign. -/
theorem local_takeBinding? {skip? : List Char → Option (List Char)} (hs : LocalSkip skip?)
    {item : List Char → Option (Term × List Char)} (hi : Local item) :
    Local (takeBinding? skip? item) := by
  intro text rest entry h
  rw [takeBinding?_eq] at h
  obtain ⟨⟨path, text1⟩, h1, h⟩ := Option.bind_eq_some_iff.mp h
  obtain ⟨p1, hp1, hl1⟩ := local_takeKey? maxKeyParts h1
  obtain ⟨text2, h2, h⟩ := Option.bind_eq_some_iff.mp h
  obtain ⟨p2, hp2, hl2⟩ := hs h2
  split at h
  · next heq =>
    obtain ⟨text3, h3, h⟩ := Option.bind_eq_some_iff.mp h
    obtain ⟨p3, hp3, hl3⟩ := hs h3
    obtain ⟨⟨term, text4⟩, h4, he⟩ := Option.map_eq_some_iff.mp h
    obtain ⟨p4, hp4, hl4⟩ := hi h4
    obtain ⟨rfl, rfl⟩ := Prod.mk.inj he
    -- the four pieces, with the equals sign between the second and the third
    refine ⟨p1 ++ (p2 ++ '=' :: (p3 ++ p4)), ?_, fun other ho => ?_⟩
    · simp only [List.append_assoc, List.cons_append, ← hp4, ← hp3, ← eq_cons_of_startsIn heq,
        ← hp2, hp1]
    -- the texts are compared from behind: each part is taken in front of what follows it
    · have hs3 : SameLine text3 (p4 ++ other) := by
        rw [hp4]
        exact ho.append p4
      have hs2 : SameLine text2 ('=' :: (p3 ++ (p4 ++ other))) := by
        rw [eq_cons_of_startsIn heq, hp3]
        exact (hs3.append p3).cons '='
      have hs1 : SameLine text1 (p2 ++ '=' :: (p3 ++ (p4 ++ other))) := by
        rw [hp2]
        exact hs2.append p2
      simp only [List.append_assoc, List.cons_append]
      rw [takeBinding?_eq, hl1 _ hs1, Option.bind_some]
      simp [hl2 _ hs2, startsIn, hl3 _ hs3, hl4 _ ho]
  · cases h

/-- A term without its matches: an array, an inline table or a scalar. -/
theorem takeTerm?_succ (levels : Nat) (text : List Char) :
    takeTerm? (levels + 1) text
      = if startsIn (· == '[') text then
          (takeItems? (takeTerm? levels) (text.drop 1).length.succ (text.drop 1)).map
            fun (items, behind) => (.array items, behind)
        else if startsIn (· == '{') text then
          (takeEntries? (takeTerm? levels) (text.drop 1).length.succ (text.drop 1)).map
            fun (entries, behind) => (.inline entries, behind)
        else takeScalar? text := by
  rcases text with _ | ⟨c, text⟩
  · rfl
  · by_cases h1 : c = '['
    · subst h1
      rfl
    · by_cases h2 : c = '{'
      · subst h2
        rfl
      · simp [takeTerm?, startsIn, h1, h2]

/-- A local reader behind a character that opens something. -/
theorem Local.behind {α : Type} {take? : List Char → Option (α × List Char)} (h : Local take?)
    {c : Char} {text rest : List Char} {result : α} (hc : startsIn (· == c) text = true)
    (hr : take? (text.drop 1) = some (result, rest)) :
    ∃ piece, text = c :: (piece ++ rest)
      ∧ ∀ other, SameLine rest other → take? (piece ++ other) = some (result, other) := by
  obtain ⟨piece, hp, hl⟩ := h hr
  exact ⟨piece, by rw [← hp, ← eq_cons_of_startsIn hc], hl⟩

/-- **Terms are taken locally,** by induction on the levels that they may be nested. -/
theorem local_takeTerm? : ∀ levels : Nat, Local (takeTerm? levels)
  | 0 => local_takeScalar?
  | levels + 1 => fun text rest term h => by
    have ih := local_takeTerm? levels
    have hitems : Local fun text => takeItems? (takeTerm? levels) (text.length + 1) text := by
      rw [funext fun text => takeItems?_eq (takeTerm? levels) (text.length + 1) text]
      exact (localLoop_takeMembers? (by decide) ih).atLength
    have hentries : Local fun text => takeEntries? (takeTerm? levels) (text.length + 1) text := by
      rw [funext fun text => takeEntries?_eq (takeTerm? levels) (text.length + 1) text]
      exact (localLoop_takeMembers? (by decide)
        (local_takeBinding? (localSkip_skipFiller? false) ih)).atLength
    -- the first character tells which of the three it is
    rw [takeTerm?_succ] at h
    split at h
    · next hc =>
      obtain ⟨piece, hp, hl⟩ := (hitems.map Term.array).behind hc h
      refine ⟨'[' :: piece, hp, fun other ho => ?_⟩
      rw [List.cons_append, takeTerm?_succ]
      exact hl other ho
    · next hc =>
      split at h
      · next hd =>
        obtain ⟨piece, hp, hl⟩ := (hentries.map Term.inline).behind hd h
        refine ⟨'{' :: piece, hp, fun other ho => ?_⟩
        rw [List.cons_append, takeTerm?_succ]
        exact hl other ho
      · next hd =>
        obtain ⟨piece, hp, hl⟩ := local_takeScalar? h
        refine ⟨piece, hp, fun other ho => ?_⟩
        have hs : SameLine text (piece ++ other) := by
          rw [hp]
          exact ho.append piece
        rw [takeTerm?_succ, ← hs.startsIn, ← hs.startsIn, if_neg hc, if_neg hd, hl other ho]

/-- Where a line ends or a comment begins, there is no term. -/
theorem takeTerm?_eq_none {text : List Char}
    (h : ∀ c, text.head? = some c → c = '\n' ∨ c = '\r' ∨ c = '#') :
    ∀ levels : Nat, takeTerm? levels text = none := by
  -- none of the three begins a bracket, a string or a token
  have hstart (p : Char → Bool) (h1 : p '\n' = false) (h2 : p '\r' = false) (h3 : p '#' = false) :
      startsIn p text = false := by
    cases text with
    | nil => rfl
    | cons c text => rcases h c rfl with rfl | rfl | rfl <;> assumption
  have hscalar : takeScalar? text = none := by
    have htoken : text.takeWhile isTokenChar = [] := by
      cases text with
      | nil => rfl
      | cons c text => rcases h c rfl with rfl | rfl | rfl <;> rfl
    have hjoin : joinsTime [] (text.dropWhile isTokenChar) = false := rfl
    have hvalue : tokenValue? [] = none := by decide
    rw [takeScalar?, hstart _ (by decide) (by decide) (by decide), takeToken_eq, htoken, hjoin]
    simp [hvalue]
  intro levels
  cases levels with
  | zero => exact hscalar
  | succ levels =>
    rw [takeTerm?_succ, hstart _ (by decide) (by decide) (by decide),
      hstart _ (by decide) (by decide) (by decide), hscalar]
    rfl

/-! ## 6. Lines

Behind a header or an assignment the line has to end: there may be a gap, a comment and a line end,
which are all cut off at once.  The same three pieces end a line in front of any other text, save
that a line without a line end is the last one.
-/

/-- A line end is skipped. -/
theorem skipLine?_ending (comment : Bool) (ending : LineEnd) {other : List Char}
    (h : ending = .none → other = []) : skipLine? comment (ending.chars ++ other) = some other := by
  cases ending with
  | none => rw [h rfl]; rfl
  | lf => rfl
  | crlf => rfl

/-- What a line end leaves: it is skipped, or there is none. -/
theorem skipLine?_at_end {comment : Bool} {c : Char} {text rest : List Char}
    (hc : c = '\n' ∨ c = '\r') (h : skipLine? comment (c :: text) = some rest) :
    ∃ ending, ending ≠ .none ∧ c :: text = LineEnd.chars ending ++ rest := by
  rw [skipLine?] at h
  rcases hc with rfl | rfl
  · rw [if_pos rfl] at h
    obtain rfl := Option.some.inj h
    exact ⟨.lf, by simp, rfl⟩
  -- a carriage return ends a line only with a line feed behind it
  · rw [if_neg (by decide), if_pos rfl] at h
    split at h
    · next hf =>
      rw [eq_cons_of_startsIn hf, skipLine?, if_pos rfl] at h
      obtain rfl := Option.some.inj h
      exact ⟨.crlf, by simp, by rw [eq_cons_of_startsIn hf]; rfl⟩
    · cases h

/-- A comment is skipped with the line end behind it.  The same is skipped in front of any other
text, except that a comment without a line end has to be the end of the text. -/
theorem skipLine?_comment {rest : List Char} : ∀ {text : List Char},
    skipLine? true text = some rest →
    ∃ comment ending, text = comment ++ LineEnd.chars ending ++ rest
      ∧ '\n' ∉ comment ∧ '\r' ∉ comment ∧ (ending = .none → rest = [])
      ∧ ∀ other, (ending = .none → other = []) →
        skipLine? true (comment ++ ending.chars ++ other) = some other
  | [], h => by
    obtain rfl := Option.some.inj h
    exact ⟨[], .none, rfl, by simp, by simp, fun _ => rfl, fun other ho =>
      skipLine?_ending true .none ho⟩
  | c :: text, h => by
    -- the comment ends here, or this character belongs to it
    by_cases hc : c = '\n' ∨ c = '\r'
    · obtain ⟨ending, hne, he⟩ := skipLine?_at_end hc h
      exact ⟨[], ending, he, by simp, by simp, fun hn => absurd hn hne, fun other ho =>
        skipLine?_ending true ending ho⟩
    · rw [not_or] at hc
      rw [skipLine?, if_neg hc.1, if_neg hc.2, if_pos rfl] at h
      split at h
      · next ht =>
        obtain ⟨comment, ending, he, hn, hr, hend, hl⟩ := skipLine?_comment h
        refine ⟨c :: comment, ending, by rw [he]; rfl, ?_, ?_, hend, fun other ho => ?_⟩
        · simp [hn, Ne.symm hc.1]
        · simp [hr, Ne.symm hc.2]
        · rw [List.cons_append, List.cons_append, skipLine?, if_neg hc.1, if_neg hc.2, if_pos rfl,
            if_pos ht, hl other ho]
      · cases h

/-- **What is left of a line is skipped** up to its end: a gap, and a comment if need be.  The
pieces are found by induction on the text, and skipped again in front of any other text. -/
theorem skipLine?_eq_some {rest : List Char} : ∀ {text : List Char},
    skipLine? false text = some rest → ∃ gap comment ending,
      text = gap ++ comment ++ LineEnd.chars ending ++ rest ∧ IsTail gap comment
      ∧ '\n' ∉ comment ∧ '\r' ∉ comment ∧ (ending = .none → rest = [])
      ∧ ∀ other, (ending = .none → other = []) →
        skipLine? false (gap ++ comment ++ ending.chars ++ other) = some other
  | [], h => by
    obtain rfl := Option.some.inj h
    exact ⟨[], [], .none, rfl, ⟨by simp, by simp⟩, by simp, by simp, fun _ => rfl, fun other ho =>
      skipLine?_ending false .none ho⟩
  | c :: text, h => by
    -- a line end, a gap character, or the hash of a comment
    by_cases hc : c = '\n' ∨ c = '\r'
    · obtain ⟨ending, hne, he⟩ := skipLine?_at_end hc h
      exact ⟨[], [], ending, he, ⟨by simp, by simp⟩, by simp, by simp, fun hn => absurd hn hne,
        fun other ho => skipLine?_ending false ending ho⟩
    · rw [not_or] at hc
      rw [skipLine?, if_neg hc.1, if_neg hc.2, if_neg Bool.false_ne_true] at h
      split at h
      · next hg =>
        obtain ⟨gap, comment, ending, he, ht, hn, hr, hend, hl⟩ := skipLine?_eq_some h
        refine ⟨c :: gap, comment, ending, by rw [he]; rfl,
          ⟨List.forall_mem_cons.mpr ⟨hg, ht.gap⟩, ht.comment⟩, hn, hr, hend, fun other ho => ?_⟩
        rw [List.cons_append, List.cons_append, List.cons_append, skipLine?, if_neg hc.1,
          if_neg hc.2, if_neg Bool.false_ne_true, if_pos hg, hl other ho]
      · next hg =>
        split at h
        · next hh =>
          obtain ⟨comment, ending, he, hn, hr, hend, hl⟩ := skipLine?_comment h
          refine ⟨[], c :: comment, ending, by rw [he]; rfl,
            ⟨by simp, fun d hd => by rw [← Option.some.inj hd, hh]⟩, ?_, ?_, hend,
            fun other ho => ?_⟩
          · simp [hn, Ne.symm hc.1]
          · simp [hr, Ne.symm hc.2]
          · rw [List.nil_append, List.cons_append, List.cons_append, skipLine?, if_neg hc.1,
              if_neg hc.2, if_neg Bool.false_ne_true, if_neg hg, if_pos hh, hl other ho]
        · cases h

end TomlKeep
