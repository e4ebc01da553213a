/-
# Strings that are written are read

Each way to write a string is read back, in front of any text that does not begin with the same
quote: literals (`takeString?_quote`), strings in double and in single quotes, on one line or
between three quotes (`takeQuoted?_writeBasic`, `takeQuoted?_writeVerbatim`,
`takeString?_writeMultiBasic`, `takeString?_writeMultiVerbatim`), and so the form that is picked
for a string (`takeString?_writeString`) or for a key (`takeSimpleKey?_writeKey`).

Between three quotes, quotes may stand in the string.  They do not close it: no three of them
stand in a row without a backslash, and up to two at the end are taken together with the three
that close it.
-/
import Mathlib
import TomlKeep.Proofs.Readers
import TomlKeep.Proofs.Literals
import TomlKeep.Toml.Render

namespace TomlKeep

open Text Toml

/-! ## 1. Escapes

A character is written as itself, as a short escape, or as four hexadecimal digits.  Each of these
texts is read as the character in front of any text and in both kinds of strings, so a body is read
character by character.
-/

/-- **A text that stands for a character** in a string in double quotes. -/
def Escapes (c : Char) (piece : List Char) : Prop :=
  ∀ multi rest, basicBody? multi .plain (piece ++ rest)
    = pushBefore c (basicBody? multi .plain rest)

/-- A short escape. -/
theorem escapes_short {c d : Char} (h : shortEscape? c = some d) : Escapes d ['\\', c] :=
  fun multi rest => basicBody?_short h multi rest

/-- A character that may stand for itself. -/
theorem escapes_self {c : Char} (h1 : c ≠ '"') (h2 : c ≠ '\\') (h3 : isTextChar c = true) :
    Escapes c [c] := by
  intro multi rest
  simp [basicBody?, h1, h2, h3]

/-- A hexadecimal digit that is written is read as its value. -/
theorem digit_upperHexDigit : ∀ n < 16, Numeral.isDigitOf 16 (upperHexDigit n) = true
    ∧ Numeral.digitValue (upperHexDigit n) = n := by decide

/-- The code of a character is that of the character. -/
theorem charOfCode?_toNat (c : Char) : charOfCode? c.toNat = some c := by
  have hvalid : c.toNat.isValidChar := c.valid
  rw [charOfCode?, if_pos hvalid, Char.ofNat_toNat]

/-- A character as four hexadecimal digits. -/
theorem escapes_code {c : Char} (h : c.toNat < 65536) :
    Escapes c ('\\' :: 'u' :: upperHex4 c.toNat) := by
  intro multi rest
  have digit (n : Nat) := digit_upperHexDigit (n % 16) (Nat.mod_lt n (by decide))
  -- the four digits give back a code of at most sixteen bits
  have hvalue : ((c.toNat / 4096 % 16 * 16 + c.toNat / 256 % 16) * 16 + c.toNat / 16 % 16) * 16
      + c.toNat % 16 = c.toNat := by omega
  simp [basicBody?, shortEscape?, longEscape?, upperHex4, (digit _).1, (digit _).2, hvalue,
    charOfCode?_toNat]

/-- A literal writes each character as a text that stands for it; what may not stand for itself
has a code below `0xA0`. -/
theorem escapes_quoteChar (c : Char) : Escapes c (quoteChar c) := by
  unfold quoteChar
  split
  · next h =>
    subst h
    exact escapes_short rfl
  split
  · next h =>
    subst h
    exact escapes_short rfl
  split
  · next h =>
    subst h
    exact escapes_short rfl
  split
  · next h =>
    subst h
    exact escapes_short rfl
  split
  · next h =>
    subst h
    exact escapes_short rfl
  split
  · next h =>
    refine escapes_code ?_
    simp only [isControl, Bool.or_eq_true, decide_eq_true_eq, Bool.and_eq_true] at h
    omega
  · next h2 h1 _ _ _ hc =>
    refine escapes_self h1 h2 ?_
    simp only [isControl, Bool.or_eq_true, decide_eq_true_eq, Bool.and_eq_true, not_or] at hc
    simp only [isTextChar, Bool.or_eq_true, Bool.and_eq_true, decide_eq_true_eq, bne_iff_ne]
    omega

/-- A character that is no control may stand for itself. -/
theorem isAsciiControl_false {c : Char} (h : isAsciiControl c = false) : isTextChar c = true := by
  simp only [isAsciiControl, Bool.or_eq_false_iff, decide_eq_false_iff_not, beq_eq_false_iff_ne]
    at h
  simp only [isTextChar, Bool.or_eq_true, Bool.and_eq_true, decide_eq_true_eq, bne_iff_ne]
  omega

/-- A character that is no hard control may stand for itself. -/
theorem isTextChar_of_not_isHardControl {c : Char} (h : isHardControl c = false) :
    isTextChar c = true := by
  rw [isHardControl, Bool.and_eq_false_iff] at h
  rcases h with h | h
  · exact isAsciiControl_false h
  · obtain rfl : c = '\t' := by simpa using h
    rfl

/-- So does the writer of documents, quotes apart. -/
theorem escapes_escapeChar {c : Char} (hq : c ≠ '"') : Escapes c (escapeChar c) := by
  unfold escapeChar
  split
  · next h =>
    subst h
    exact escapes_short rfl
  split
  · next h =>
    subst h
    exact escapes_short rfl
  split
  · next h =>
    subst h
    exact escapes_short rfl
  split
  · next h =>
    subst h
    exact escapes_short rfl
  split
  · next h =>
    subst h
    exact escapes_short rfl
  split
  · next h =>
    subst h
    exact escapes_short rfl
  split
  · next h =>
    refine escapes_code ?_
    simp only [isAsciiControl, Bool.or_eq_true, decide_eq_true_eq, beq_iff_eq] at h
    omega
  · next hs h => exact escapes_self hq hs (isAsciiControl_false (by simpa using h))

/-! ## 2. Strings on one line

A literal and a string of a document are written with different escapes, but both end at the first
quote without a backslash.  The reader of strings looks for three quotes first, and those of a
string on one line are never three: behind an empty string no quote may follow, which is asked of
what stands behind.
-/

/-- The body of a literal is read back. -/
theorem basicBody?_quote (text rest : List Char) :
    basicBody? false .plain (text.flatMap quoteChar ++ '"' :: rest) = some (text, rest) := by
  induction text with
  | nil => rfl
  | cons c text ih =>
    rw [List.flatMap_cons, List.append_assoc, escapes_quoteChar c, ih]
    rfl

/-- So is the literal, by the reader of strings on one line. -/
theorem takeQuoted?_quote (text rest : List Char) :
    takeQuoted? (quote text ++ rest) = some (String.ofList text, rest) := by
  have hbody := basicBody?_quote text rest
  simp only [quote, List.cons_append, List.append_assoc, List.nil_append, takeQuoted?, hbody,
    Option.map_some]

/-- A quote that may not stand without a backslash. -/
theorem escapeBody_quote (multi : Bool) (text : List Char) : escapeBody multi 0 ('"' :: text)
    = ['\\', '"'] ++ escapeBody multi (if multi then 2 else 0) text := by
  rw [escapeBody.eq_def]
  rfl

/-- A quote that may. -/
theorem escapeBody_free (multi : Bool) (left : Nat) (text : List Char) :
    escapeBody multi (left + 1) ('"' :: text) = '"' :: escapeBody multi left text := by
  rw [escapeBody.eq_def]
  rfl

/-- A character of a string in double quotes, quotes apart. -/
def bodyChar (multi : Bool) (c : Char) : List Char :=
  if multi && c = '\n' then ['\n'] else escapeChar c

/-- A character that is no quote sets the count of free quotes back. -/
theorem escapeBody_char {c : Char} (hq : c ≠ '"') (multi : Bool) (free : Nat) (text : List Char) :
    escapeBody multi free (c :: text)
      = bodyChar multi c ++ escapeBody multi (if multi then 2 else 0) text := by
  rw [escapeBody.eq_def, bodyChar]
  simp only [if_neg hq]
  split <;> simp_all

/-- Every character has a text. -/
theorem bodyChar_ne_nil (multi : Bool) (c : Char) : bodyChar multi c ≠ [] := by
  unfold bodyChar escapeChar
  repeat' split
  all_goals exact List.cons_ne_nil _ _

/-- The text of a character that is no quote begins with none. -/
theorem head?_bodyChar {c : Char} (hq : c ≠ '"') (multi : Bool) :
    (bodyChar multi c).head? ≠ some '"' := by
  unfold bodyChar escapeChar
  repeat' split
  all_goals simp [hq]

/-- Where no quote may stand without a backslash, the body does not begin with one. -/
theorem head?_escapeBody (multi : Bool) (text : List Char) :
    (escapeBody multi 0 text).head? ≠ some '"' := by
  rcases text with _ | ⟨c, text⟩
  · simp [escapeBody]
  · by_cases hq : c = '"'
    · subst hq
      simp [escapeBody_quote]
    · rw [escapeBody_char hq, List.head?_append_of_ne_nil _ (bodyChar_ne_nil multi c)]
      exact head?_bodyChar hq multi

/-- The text of a character is read as that character, a line feed between three quotes as
itself. -/
theorem basicBody?_bodyChar {c : Char} (hq : c ≠ '"') (multi : Bool) (rest : List Char) :
    basicBody? multi .plain (bodyChar multi c ++ rest)
      = pushBefore c (basicBody? multi .plain rest) := by
  unfold bodyChar
  split
  · next h =>
    obtain ⟨rfl, rfl⟩ : multi = true ∧ c = '\n' := by simpa using h
    rfl
  · exact escapes_escapeChar hq multi rest

/-- The body of a string on one line is read back. -/
theorem basicBody?_escapeBody (rest : List Char) : ∀ text : List Char,
    basicBody? false .plain (escapeBody false 0 text ++ '"' :: rest) = some (text, rest)
  | [] => rfl
  | c :: text => by
    have ih := basicBody?_escapeBody rest text
    by_cases hq : c = '"'
    · subst hq
      rw [escapeBody_quote, List.append_assoc, escapes_short rfl, if_neg Bool.false_ne_true, ih]
      rfl
    · rw [escapeBody_char hq, List.append_assoc, basicBody?_bodyChar hq, if_neg Bool.false_ne_true,
        ih]
      rfl

/-- A string in double quotes is read back by the reader of strings on one line. -/
theorem takeQuoted?_writeBasic (text rest : List Char) :
    takeQuoted? (writeBasic text ++ rest) = some (String.ofList text, rest) := by
  have hbody := basicBody?_escapeBody rest text
  simp only [writeBasic, List.cons_append, List.append_assoc, List.nil_append, takeQuoted?, hbody,
    Option.map_some]

/-- The body of a string in single quotes is the string. -/
theorem literalBody?_verbatim (rest : List Char) : ∀ {text : List Char}, '\'' ∉ text →
    (∀ c ∈ text, isTextChar c = true) →
      literalBody? false (text ++ '\'' :: rest) = some (text, rest)
  | [], _, _ => rfl
  | c :: text, hq, ht => by
    obtain ⟨hc, htext⟩ := List.forall_mem_cons.mp ht
    rw [List.mem_cons, not_or] at hq
    rw [List.cons_append, literalBody?_char (Ne.symm hq.1), isLiteralChar, hc,
      literalBody?_verbatim rest hq.2 htext]
    rfl

/-- A string in single quotes is read back, if it has no quote and no control character. -/
theorem takeQuoted?_writeVerbatim {text : List Char} (hq : '\'' ∉ text)
    (ht : ∀ c ∈ text, isTextChar c = true) (rest : List Char) :
    takeQuoted? (writeVerbatim text ++ rest) = some (String.ofList text, rest) := by
  have hbody := literalBody?_verbatim rest hq ht
  simp only [writeVerbatim, List.cons_append, List.append_assoc, List.nil_append, takeQuoted?,
    hbody, Option.map_some]

/-- A quote, a body that does not begin with it, and a quote: these are no three quotes. -/
theorem tripleQuote?_pair {q : Char} {body rest : List Char} (hq : q = '"' ∨ q = '\'')
    (hb : body.head? ≠ some q) (hr : rest.head? ≠ some q) :
    tripleQuote? (q :: (body ++ q :: rest)) = none := by
  have hthree : beginsWith [q, q, q] (q :: (body ++ q :: rest)) = false := by
    cases body with
    | nil =>
      cases rest with
      | nil => simp [beginsWith, after?]
      | cons d rest =>
        have hd : q ≠ d := fun h => hr (by simp [h])
        simp [beginsWith, after?, hd]
    | cons d body =>
      have hd : q ≠ d := fun h => hb (by simp [h])
      simp [beginsWith, after?, hd]
  rcases hq with rfl | rfl
  · have hother : beginsWith ['\'', '\'', '\''] ('"' :: (body ++ '"' :: rest)) = false := by
      simp [beginsWith, after?]
    simp [tripleQuote?, hthree, hother]
  · have hother : beginsWith ['"', '"', '"'] ('\'' :: (body ++ '\'' :: rest)) = false := by
      simp [beginsWith, after?]
    simp [tripleQuote?, hthree, hother]

/-- No text of a character begins with a quote. -/
theorem head?_quoteChar (c : Char) : (quoteChar c).head? ≠ some '"' := by
  unfold quoteChar
  repeat' split
  all_goals simp_all

/-- It is not empty either. -/
theorem quoteChar_ne_nil (c : Char) : quoteChar c ≠ [] := by
  unfold quoteChar
  repeat' split
  all_goals exact List.cons_ne_nil _ _

/-- **A string literal is read back.**  What follows may not begin with a quote, or the two of an
empty string would be three with it. -/
theorem takeString?_quote (text : List Char) {rest : List Char} (hr : rest.head? ≠ some '"') :
    takeString? (quote text ++ rest) = some (String.ofList text, rest) := by
  have hhead : (text.flatMap quoteChar).head? ≠ some '"' := by
    cases text with
    | nil => simp
    | cons c text =>
      rw [List.flatMap_cons, List.head?_append_of_ne_nil _ (quoteChar_ne_nil c)]
      exact head?_quoteChar c
  have htriple : tripleQuote? (quote text ++ rest) = none := by
    simpa [quote] using tripleQuote?_pair (.inl rfl) hhead hr
  rw [takeString?, htriple]
  exact takeQuoted?_quote text rest

/-- A string in double quotes is read back. -/
theorem takeString?_writeBasic (text : List Char) {rest : List Char} (hr : rest.head? ≠ some '"') :
    takeString? (writeBasic text ++ rest) = some (String.ofList text, rest) := by
  have htriple : tripleQuote? (writeBasic text ++ rest) = none := by
    simpa [writeBasic] using tripleQuote?_pair (.inl rfl) (head?_escapeBody false text) hr
  rw [takeString?, htriple]
  exact takeQuoted?_writeBasic text rest

/-- A string in single quotes is read back. -/
theorem takeString?_writeVerbatim {text : List Char} (hq : '\'' ∉ text)
    (ht : ∀ c ∈ text, isTextChar c = true) {rest : List Char} (hr : rest.head? ≠ some '\'') :
    takeString? (writeVerbatim text ++ rest) = some (String.ofList text, rest) := by
  have hhead : text.head? ≠ some '\'' := fun h => hq (List.mem_of_mem_head? h)
  have htriple : tripleQuote? (writeVerbatim text ++ rest) = none := by
    simpa [writeVerbatim] using tripleQuote?_pair (.inr rfl) hhead hr
  rw [takeString?, htriple]
  exact takeQuoted?_writeVerbatim hq ht rest

/-! ## 3. Strings between three quotes

The writer counts how many quotes may still stand without a backslash, two at most in a row.  So
three quotes in the body stand only at its end, together with those that close the string, and there
the reader takes up to two of them for the string: all of those that belong to it, since what
follows does not begin with a quote.
-/

/-- A run of quotes ends where no quote follows. -/
theorem splitRun_stop {q : Char} {rest : List Char} (hr : rest.head? ≠ some q) (n : Nat) :
    splitRun q n rest = ([], rest) := by
  cases n with
  | zero => rfl
  | succ n =>
    cases rest with
    | nil => rfl
    | cons d rest =>
      have hd : d ≠ q := fun h => hr (by simp [h])
      rw [splitRun, if_neg hd]

/-- The three quotes that close a string, and up to two in front of them. -/
theorem basicBody?_close {rest : List Char} (hr : rest.head? ≠ some '"') {n : Nat} (hn : n ≤ 2) :
    basicBody? true .plain (List.replicate n '"' ++ (['"', '"', '"'] ++ rest))
      = some (List.replicate n '"', rest) := by
  have h1 := splitRun_stop hr 1
  have h2 := splitRun_stop hr 2
  obtain rfl | rfl | rfl : n = 0 ∨ n = 1 ∨ n = 2 := by omega
  all_goals simp [basicBody?, after?, List.replicate, splitRun, h1, h2]

/-- Two quotes need two quotes. -/
theorem after?_pair_of_head {q : Char} {text : List Char} (h : text.head? ≠ some q) :
    after? [q, q] text = none ∧ after? [q, q] (q :: text) = none := by
  have hnone : after? [q] text = none := after?_eq_none h
  exact ⟨after?_eq_none h, by rw [after?, if_pos rfl, hnone]⟩

/-- Two quotes follow a quote in the body only if nothing but quotes is left of it. -/
theorem after?_escapeBody {left : Nat} (hl : left ≤ 1) {text : List Char} (tail : List Char)
    (h : ¬ (text = [] ∨ (text = ['"'] ∧ left = 1))) :
    after? ['"', '"'] (escapeBody true left text ++ tail) = none := by
  rw [not_or] at h
  obtain ⟨c, text, rfl⟩ := List.exists_cons_of_ne_nil h.1
  by_cases hq : c = '"'
  · subst hq
    cases left with
    | zero => simp [escapeBody_quote, after?]
    | succ left =>
      obtain rfl : left = 0 := by omega
      have hne : text ≠ [] := fun e => h.2 ⟨by rw [e], rfl⟩
      obtain ⟨d, text, rfl⟩ := List.exists_cons_of_ne_nil hne
      -- the second quote is the last free one, and what follows it is no quote
      have hhead := head?_escapeBody true (d :: text)
      have hcons : escapeBody true 0 (d :: text) ≠ [] := by
        by_cases hd : d = '"'
        · simp [hd, escapeBody_quote]
        · simp [escapeBody_char hd, bodyChar_ne_nil]
      rw [escapeBody_free, List.cons_append]
      refine (after?_pair_of_head ?_).2
      rwa [List.head?_append_of_ne_nil _ hcons]
  · rw [escapeBody_char hq, List.append_assoc]
    refine (after?_pair_of_head ?_).1
    rw [List.head?_append_of_ne_nil _ (bodyChar_ne_nil true c)]
    exact head?_bodyChar hq true

/-- A quote that does not close a string between three quotes. -/
theorem basicBody?_free {rest : List Char} (h : after? ['"', '"'] rest = none) :
    basicBody? true .plain ('"' :: rest) = pushBefore '"' (basicBody? true .plain rest) := by
  simp [basicBody?, h]

/-- **A string between three double quotes is read back,** however many quotes may still stand
without a backslash.  By induction on the string; the quotes at its end are taken with the three
that close it, and all others are followed by something else. -/
theorem basicBody?_multi {rest : List Char} (hr : rest.head? ≠ some '"') : ∀ (text : List Char)
    {free : Nat}, free ≤ 2 →
      basicBody? true .plain (escapeBody true free text ++ (['"', '"', '"'] ++ rest))
        = some (text, rest)
  | [], _, _ => basicBody?_close hr (Nat.zero_le 2)
  | c :: text, free, hfree => by
    have ih {free : Nat} (h : free ≤ 2) := basicBody?_multi hr text h
    by_cases hq : c = '"'
    · subst hq
      cases free with
      | zero =>
        rw [escapeBody_quote, List.append_assoc, escapes_short rfl, if_pos rfl, ih (le_refl 2)]
        rfl
      | succ left =>
        -- one or two quotes are left, or another character follows
        by_cases hlast : text = [] ∨ (text = ['"'] ∧ left = 1)
        · rcases hlast with rfl | ⟨rfl, rfl⟩
          · exact basicBody?_close hr (n := 1) (by decide)
          · exact basicBody?_close hr (n := 2) (by decide)
        · rw [escapeBody_free, List.cons_append,
            basicBody?_free (after?_escapeBody (by omega) _ hlast), ih (by omega)]
          rfl
    · rw [escapeBody_char hq, List.append_assoc, basicBody?_bodyChar hq, if_pos rfl, ih (le_refl 2)]
      rfl

/-- The line end that opens a string is dropped, and no other. -/
theorem dropLineEnd_opening {text body : List Char} (h : '\n' ∉ text →
    body.head? ≠ some '\n' ∧ body.head? ≠ some '\r') :
    dropLineEnd (openingLine text ++ body) = body := by
  by_cases hn : '\n' ∈ text
  · simp [openingLine, hn, dropLineEnd]
  · obtain ⟨h1, h2⟩ := h hn
    rw [openingLine, if_neg (by simpa using hn), List.nil_append]
    rcases body with _ | ⟨c, body⟩
    · rfl
    · unfold dropLineEnd
      split
      · next he => simp [(List.cons.inj he).1] at h1
      · next he => simp [(List.cons.inj he).1] at h2
      · rfl

/-- A string between three double quotes is read back.  The line end that opens it is there to
keep a line end of the string from being dropped. -/
theorem takeString?_writeMultiBasic (text : List Char) {rest : List Char}
    (hr : rest.head? ≠ some '"') :
    takeString? (writeMultiBasic text ++ rest) = some (String.ofList text, rest) := by
  have hbody := basicBody?_multi hr text (le_refl 2)
  have hhead : '\n' ∉ text →
      (escapeBody true 2 text ++ (['"', '"', '"'] ++ rest)).head? ≠ some '\n'
        ∧ (escapeBody true 2 text ++ (['"', '"', '"'] ++ rest)).head? ≠ some '\r' := by
    intro hn
    rcases text with _ | ⟨c, text⟩
    · simp [escapeBody]
    · have hc : c ≠ '\n' := fun e => hn (by simp [e])
      by_cases hq : c = '"'
      · subst hq
        simp [escapeBody_free]
      · rw [escapeBody_char hq, List.append_assoc,
          List.head?_append_of_ne_nil _ (bodyChar_ne_nil true c)]
        unfold bodyChar escapeChar
        repeat' split
        all_goals simp_all
  have hdrop := dropLineEnd_opening hhead
  have htext : writeMultiBasic text ++ rest
      = '"' :: '"' :: '"' :: (openingLine text
        ++ (escapeBody true 2 text ++ (['"', '"', '"'] ++ rest))) := by
    simp [writeMultiBasic]
  rw [htext, takeString?]
  simp only [tripleQuote?, beginsWith, after?, if_true, Option.isSome_some, List.drop_succ_cons,
    List.drop_zero, hdrop, hbody, Option.map_some]

/-- The three single quotes that close a string, and up to two in front of them. -/
theorem literalBody?_close {rest : List Char} (hr : rest.head? ≠ some '\'') {n : Nat} (hn : n ≤ 2) :
    literalBody? true (List.replicate n '\'' ++ (['\'', '\'', '\''] ++ rest))
      = some (List.replicate n '\'', rest) := by
  have h1 := splitRun_stop hr 1
  have h2 := splitRun_stop hr 2
  obtain rfl | rfl | rfl : n = 0 ∨ n = 1 ∨ n = 2 := by omega
  all_goals simp [literalBody?, after?, List.replicate, splitRun, h1, h2]

/-- **A string between three single quotes is read back.**  It has no three quotes in a row, so a
quote that is not among the last two is followed by something else. -/
theorem literalBody?_multi {rest : List Char} (hr : rest.head? ≠ some '\'') : ∀ {text : List Char},
    Toml.hasTriple '\'' text = false → (∀ c ∈ text, isTextChar c = true ∨ c = '\n') →
      literalBody? true (text ++ (['\'', '\'', '\''] ++ rest)) = some (text, rest)
  | [], _, _ => literalBody?_close hr (Nat.zero_le 2)
  | c :: text, ht, hchars => by
    obtain ⟨hc, htext⟩ := List.forall_mem_cons.mp hchars
    rw [Toml.hasTriple, Bool.or_eq_false_iff] at ht
    have ih := literalBody?_multi hr ht.2 htext
    by_cases hq : c = '\''
    · subst hq
      by_cases hlast : text = [] ∨ text = ['\'']
      · rcases hlast with rfl | rfl
        · exact literalBody?_close hr (n := 1) (by decide)
        · exact literalBody?_close hr (n := 2) (by decide)
      · have hnone : beginsWith ['\'', '\''] (text ++ (['\'', '\'', '\''] ++ rest)) = false := by
          rw [not_or] at hlast
          obtain ⟨d, text, rfl⟩ := List.exists_cons_of_ne_nil hlast.1
          by_cases hd : d = '\''
          · subst hd
            have hne : text ≠ [] := fun e => hlast.2 (by rw [e])
            obtain ⟨e, text, rfl⟩ := List.exists_cons_of_ne_nil hne
            have he : '\'' ≠ e := by
              rintro rfl
              simp [beginsWith, after?] at ht
            simp [beginsWith, after?, he]
          · simp [beginsWith, after?, Ne.symm hd]
        rw [List.cons_append, literalBody?_quote, if_pos rfl, hnone, if_neg Bool.false_ne_true, ih]
        rfl
    · have hchar (more : List Char) : isLiteralChar true c more = true := by
        rcases hc with hc | rfl
        · simp [isLiteralChar, hc]
        · rfl
      rw [List.cons_append, literalBody?_char hq, hchar, if_pos rfl, ih]
      rfl

/-- A string between three single quotes is read back. -/
theorem takeString?_writeMultiVerbatim {text : List Char} (ht : Toml.hasTriple '\'' text = false)
    (hchars : ∀ c ∈ text, isTextChar c = true ∨ c = '\n') {rest : List Char}
    (hr : rest.head? ≠ some '\'') :
    takeString? (writeMultiVerbatim text ++ rest) = some (String.ofList text, rest) := by
  have hbody := literalBody?_multi hr ht hchars
  have hdrop : dropLineEnd (openingLine text ++ (text ++ (['\'', '\'', '\''] ++ rest)))
      = text ++ (['\'', '\'', '\''] ++ rest) := by
    refine dropLineEnd_opening fun hn => ?_
    rcases text with _ | ⟨c, text⟩
    · simp
    · have h1 : c ≠ '\n' := fun e => hn (by simp [e])
      have h2 : c ≠ '\r' := by
        rintro rfl
        rcases hchars '\r' (by simp) with h | h
        · exact absurd h (by decide)
        · exact absurd h (by decide)
      simp [h1, h2]
  have htext : writeMultiVerbatim text ++ rest
      = '\'' :: '\'' :: '\'' :: (openingLine text ++ (text ++ (['\'', '\'', '\''] ++ rest))) := by
    simp [writeMultiVerbatim]
  have hquote : tripleQuote? ('\'' :: '\'' :: '\'' :: (openingLine text
      ++ (text ++ (['\'', '\'', '\''] ++ rest)))) = some '\'' := by
    simp [tripleQuote?, beginsWith, after?]
  rw [htext, takeString?, hquote]
  simp only [List.drop_succ_cons, List.drop_zero, hdrop, hbody, Option.map_some]
  rfl

/-! ## 4. The form that is picked

The writer picks the form by what a string contains.  Each branch has tested what its form needs, so
the forms together read back every string.
-/

/-- **A string is read back** in whatever form it is written.  Nothing is asked of the string;
what follows begins with neither quote. -/
theorem takeString?_writeString (text : List Char) {rest : List Char}
    (h1 : rest.head? ≠ some '"') (h2 : rest.head? ≠ some '\'') :
    takeString? (writeString text ++ rest) = some (String.ofList text, rest) := by
  unfold writeString
  split
  · exact takeString?_writeBasic text h1
  split
  · next h =>
    simp only [Bool.not_eq_true', List.any_eq_false, Bool.or_eq_true, not_or, beq_iff_eq] at h
    -- neither a quote nor a control character
    exact takeString?_writeVerbatim (fun hm => (h _ hm).2 rfl)
      (fun c hc => isTextChar_of_not_isHardControl (by simpa using (h c hc).1)) h2
  split
  · exact takeString?_writeMultiBasic text h1
  split
  · next h =>
    simp only [Bool.and_eq_true, Bool.not_eq_true', List.any_eq_false, bne_iff_ne, not_and,
      Classical.not_not] at h
    refine takeString?_writeMultiVerbatim h.2 (fun c hc => ?_) h2
    -- a line feed is the only control character
    by_cases hn : c = '\n'
    · exact .inr hn
    · refine .inl (isTextChar_of_not_isHardControl ?_)
      rw [Bool.eq_false_iff]
      exact fun hhard => hn (h.1 c hc hhard)
  split
  · exact takeString?_writeMultiBasic text h1
  · exact takeString?_writeBasic text h1

/-- **A key is read back** in whatever form it is written: bare if it has bare characters only,
and otherwise as a string on one line. -/
theorem takeSimpleKey?_writeKey (key : String) {rest : List Char}
    (hr : ∀ c, rest.head? = some c → isBareKeyChar c = false) :
    takeSimpleKey? (writeKey key ++ rest) = some (key, rest) := by
  -- a key in quotes is read as a string
  have quoted {text : List Char} (hq : startsIn (fun c => c == '"' || c == '\'') text = true)
      (ht : takeQuoted? (text ++ rest) = some (String.ofList key.toList, rest)) :
      takeSimpleKey? (text ++ rest) = some (key, rest) := by
    have hstart : startsIn (fun c => c == '"' || c == '\'') (text ++ rest) = true := by
      rcases text with _ | ⟨c, text⟩
      · cases hq
      · exact hq
    rw [takeSimpleKey?, if_pos hstart, ht, String.ofList_toList]
  unfold writeKey
  simp only
  split
  · next h =>
    simp only [Bool.and_eq_true, Bool.not_eq_true', List.isEmpty_eq_false_iff, List.all_eq_true]
      at h
    obtain ⟨hne, hbare⟩ := h
    obtain ⟨htake, hdrop⟩ := takeWhile_append_stop hbare hr
    have hstart : startsIn (fun c => c == '"' || c == '\'') (key.toList ++ rest) = false := by
      obtain ⟨c, more, hcons⟩ := List.exists_cons_of_ne_nil hne
      have hc := hbare c (by simp [hcons])
      rw [hcons, List.cons_append, startsIn, Bool.or_eq_false_iff]
      refine ⟨beq_eq_false_iff_ne.mpr ?_, beq_eq_false_iff_ne.mpr ?_⟩
      · rintro rfl
        exact absurd hc (by decide)
      · rintro rfl
        exact absurd hc (by decide)
    have hempty : key.toList.isEmpty = false := by simpa using hne
    simp only [takeSimpleKey?, hstart, htake, hdrop, hempty, Bool.false_eq_true, if_false,
      String.ofList_toList]
  split
  · exact quoted rfl (takeQuoted?_writeBasic _ _)
  split
  · next h =>
    simp only [Bool.not_eq_true', List.any_eq_false, Bool.or_eq_true, not_or, beq_iff_eq] at h
    exact quoted rfl (takeQuoted?_writeVerbatim (fun hm => (h _ hm).2 rfl)
      (fun c hc => isTextChar_of_not_isHardControl (by simpa using (h c hc).1)) _)
  · exact quoted rfl (takeQuoted?_writeBasic _ _)

end TomlKeep
