/-
# Literals in the place of values

A literal that is written into a line is a string in double quotes or a word of letters, digits,
signs, points and colons (`IsLiteral`).  Such a text is a value of one line (`IsLiteral.oneLine`).

The literal of every scalar is of this kind (`isLiteral_of_literal?`), as long as a date-time is in
canonical form; the infinities and the NaNs, written `0`, are no exception.
-/
import TomlKeep.Proofs.OneLine
import TomlKeep.Datetime

namespace TomlKeep

open Text

/-! ## 1. The two kinds of literal

A word is unquoted, and its characters are those of numbers, truth values and date-times.  No
character of a word opens a string, a bracket or a comment, and none is a blank, so nothing needs to
be known of the word beyond its characters.
-/

/-- A character of an unquoted literal. -/
def isWordChar (c : Char) : Bool :=
  c.isAlphanum || c == '+' || c == '-' || c == '.' || c == ':'

/-- **A literal.**  A string in double quotes, or a word. -/
inductive IsLiteral : List Char → Prop where
  | quoted (text : List Char) : IsLiteral (quote text)
  | word {literal : List Char} : literal ≠ [] → (∀ c ∈ literal, isWordChar c = true) →
      IsLiteral literal

/-- A character of a word is none that is excluded. -/
theorem isWordChar_ne {c d : Char} (h : isWordChar c = true) (hd : isWordChar d = false) :
    c ≠ d := by
  rintro rfl
  simp [h] at hd

/-! ## 2. Literals stay on their line

What could carry a value beyond its line is a control character: a line feed, or a carriage return
in front of one.  A word has none since its characters are listed; a quoted text has none since each
is written as an escape.
-/

/-- Letters and digits by their code points. -/
theorem isAlphanum_iff {c : Char} : c.isAlphanum = true ↔
    (65 ≤ c.toNat ∧ c.toNat ≤ 90) ∨ (97 ≤ c.toNat ∧ c.toNat ≤ 122)
      ∨ (48 ≤ c.toNat ∧ c.toNat ≤ 57) := by
  simp only [Char.isAlphanum, Char.isAlpha, Char.isUpper, Char.isLower, Char.isDigit,
    Bool.or_eq_true, Bool.and_eq_true, decide_eq_true_eq, UInt32.le_iff_toNat_le, ge_iff_le,
    or_assoc]
  exact Iff.rfl

/-- No control character is part of a word. -/
theorem isWordChar_of_isControl {c : Char} (h : isControl c = true) : isWordChar c = false := by
  simp only [isControl, Bool.or_eq_true, Bool.and_eq_true, decide_eq_true_eq] at h
  simp only [isWordChar, Bool.or_eq_false_iff, beq_eq_false_iff_ne]
  refine ⟨⟨⟨⟨?_, ?_⟩, ?_⟩, ?_⟩, ?_⟩
  · rw [Bool.eq_false_iff, ne_eq, isAlphanum_iff]
    omega
  all_goals
    rintro rfl
    revert h
    decide

/-- No digit of a code is a control character. -/
theorem upperHexDigit_not_isControl {n : Nat} (h : n < 16) :
    isControl (upperHexDigit n) = false := by
  revert n
  decide

/-- A character is quoted without any control character: it is escaped if it is one, and the
backslash, the letters and the digits of an escape are none. -/
theorem not_mem_quoteChar {c d : Char} (hd : isControl d = true) : d ∉ quoteChar c := by
  have ne {e : Char} (he : isControl e = false) : d ≠ e := by
    rintro rfl
    simp [hd] at he
  have digit (m : Nat) : d ≠ upperHexDigit (m % 16) :=
    ne (upperHexDigit_not_isControl (Nat.mod_lt m (by decide)))
  have hslash : d ≠ '\\' := ne (by decide)
  unfold quoteChar
  split
  · simp [hslash]
  split
  · simp [hslash, ne (e := '"') (by decide)]
  split
  · simp [hslash, ne (e := 'n') (by decide)]
  split
  · simp [hslash, ne (e := 'r') (by decide)]
  split
  · simp [hslash, ne (e := 't') (by decide)]
  split
  · simp [upperHex4, hslash, ne (e := 'u') (by decide), digit]
  · next hc => simpa using ne (by simpa using hc)

/-- **A literal holds no control character;** so it stays on one line. -/
theorem IsLiteral.not_mem {literal : List Char} (h : IsLiteral literal) {d : Char}
    (hd : isControl d = true) : d ∉ literal := by
  cases h with
  | quoted text =>
    have hq : d ≠ '"' := by
      rintro rfl
      exact absurd hd (by decide)
    simp only [quote, List.cons_append, List.mem_cons, List.mem_append, List.mem_flatMap,
      List.not_mem_nil, or_false, not_or, not_exists, not_and]
    exact ⟨hq, fun c _ => not_mem_quoteChar hd, hq⟩
  | word _ hw => exact fun hm => absurd (hw d hm) (by simp [isWordChar_of_isControl hd])

/-- **A literal is a value of one line.** -/
theorem IsLiteral.oneLine {literal : List Char} (h : IsLiteral literal) : OneLine literal := by
  have hfeed : '\n' ∉ literal := h.not_mem (by decide)
  cases h with
  | quoted text =>
    -- the body of the string has no line feed since the literal has none
    refine oneLine_double (quotedBody_flatMap text) fun hn => hfeed ?_
    simp only [quote, List.cons_append, List.mem_cons, List.mem_append]
    exact .inr (.inl hn)
  | word hne hw =>
    refine oneLine_plain hne (fun c hc => ?_) fun c hc => ?_
    -- the characters that an unquoted value may not have are no characters of a word
    · have ne {d : Char} (hd : isWordChar d = false) : c ≠ d := isWordChar_ne (hw c hc) hd
      simp [isUnquotedChar, ne (d := '"') (by decide), ne (d := '\'') (by decide),
        ne (d := '[') (by decide), ne (d := '{') (by decide), ne (d := '#') (by decide),
        ne (d := '\n') (by decide), ne (d := '\r') (by decide)]
    · have hword : isWordChar c = true :=
        hw c (hc.elim List.mem_of_mem_head? List.mem_of_mem_getLast?)
      simp [isGap, isWordChar_ne (d := ' ') hword (by decide),
        isWordChar_ne (d := '\t') hword (by decide)]

/-! ## 3. The literals of scalars

Each scalar has its own writer, and for each of them it is checked that it writes nothing but
characters of words.  A date-time is kept as a text, which need not be one; that is why only the
canonical ones are asked for here.
-/

/-- A scalar that may be written in place: every float but the infinities and the NaNs, and every
date-time in canonical form. -/
def Value.isPlain : Value → Bool
  | .null | .bool _ | .integer _ | .string _ => true
  | .float x => x.isFinite
  | .datetime text => Datetime.canonical? text.toList == some text.toList
  | .array _ | .table _ => false

/-- A text that is checked character by character. -/
theorem isWord {text : List Char} (h : text.all isWordChar = true) :
    ∀ c ∈ text, isWordChar c = true :=
  List.all_eq_true.mp h

/-- Digits are characters of words. -/
theorem isWordChar_of_isDigit {c : Char} (h : c.isDigit = true) : isWordChar c = true := by
  simp [isWordChar, Char.isAlphanum, h]

theorem isWordChar_toDigits {n : Nat} {c : Char} (h : c ∈ Nat.toDigits 10 n) :
    isWordChar c = true :=
  isWordChar_of_isDigit (Nat.isDigit_of_mem_toDigits (by decide) (by decide) h)

/-- A whole number is written as a word: a sign perhaps, and digits. -/
theorem isLiteral_decimalInt (n : Int) : IsLiteral (decimalInt n) := by
  refine .word ?_ fun c hc => ?_
  · simp [decimalInt]
  · simp only [decimalInt, List.mem_append] at hc
    rcases hc with hc | hc
    · split at hc
      · obtain rfl : c = '-' := by simpa using hc
        decide
      · simp at hc
    · exact isWordChar_toDigits hc

theorem isWordChar_replicate {n : Nat} {c : Char} (h : c ∈ List.replicate n '0') :
    isWordChar c = true := by
  obtain rfl := (List.mem_replicate.mp h).2
  decide

namespace FloatStyle

/-- The positional form adds zeros and a point to the digits. -/
theorem isWordChar_positional {style : FloatStyle} {digits : List Char} {point : Int}
    (h : ∀ c ∈ digits, isWordChar c = true) :
    ∀ c ∈ style.positional digits point, isWordChar c = true := by
  unfold positional
  split
  · simp only [List.forall_mem_cons, List.forall_mem_append]
    exact ⟨by decide, by decide, fun c => isWordChar_replicate, h⟩
  · split
    · simp only [List.forall_mem_append]
      refine ⟨⟨h, fun c => isWordChar_replicate⟩, ?_⟩
      split <;> exact isWord (by decide)
    · simp only [List.forall_mem_append, List.forall_mem_cons]
      exact ⟨fun c hc => h c (List.mem_of_mem_take hc), by decide,
        fun c hc => h c (List.mem_of_mem_drop hc)⟩

/-- The form with an exponent adds a point, the letter and a sign. -/
theorem isWordChar_scientific {style : FloatStyle} {digits : List Char} {point : Int}
    (h : ∀ c ∈ digits, isWordChar c = true) :
    ∀ c ∈ style.scientific digits point, isWordChar c = true := by
  unfold scientific
  simp only [List.forall_mem_append, List.forall_mem_cons]
  refine ⟨⟨?_, by decide, ?_⟩, fun c => isWordChar_toDigits⟩
  · split
    · simp only [List.forall_mem_cons] at h ⊢
      exact ⟨h.1, by decide, h.2⟩
    · exact h
  · split
    · exact isWord (by decide)
    · split <;> exact isWord (by decide)

/-- The text of a finite number is a word. -/
theorem isLiteral_signed (style : FloatStyle) (negative : Bool) (rank : Nat) :
    IsLiteral (style.signed negative rank) := by
  have hmag : style.magnitude rank ≠ [] ∧ ∀ c ∈ style.magnitude rank, isWordChar c = true := by
    unfold magnitude
    split
    · refine ⟨by simp, ?_⟩
      split <;> exact isWord (by decide)
    · dsimp only
      split
      · refine ⟨?_, isWordChar_positional fun c => isWordChar_toDigits⟩
        unfold positional
        repeat' split
        all_goals simp [Binary64.Decimal.digits]
      · refine ⟨?_, isWordChar_scientific fun c => isWordChar_toDigits⟩
        simp [scientific]
  refine .word (by simp [signed, hmag.1]) ?_
  simp only [signed, List.forall_mem_append]
  refine ⟨?_, hmag.2⟩
  split <;> exact isWord (by decide)

end FloatStyle

namespace Datetime

/-- The digits of a fraction were taken off a text as digits. -/
theorem isDigit_of_takeSeconds? {text fraction behind : List Char} {second : Nat}
    (h : takeSeconds? text = some (second, fraction, behind)) :
    ∀ c ∈ fraction, c.isDigit = true := by
  unfold takeSeconds? at h
  split at h
  · simp only [Option.bind_eq_bind, Option.bind_eq_some_iff] at h
    obtain ⟨⟨n, rest⟩, -, h⟩ := h
    dsimp only at h
    split at h
    · split at h
      · simp at h
      · simp only [Option.some.injEq, Prod.mk.injEq] at h
        obtain ⟨-, rfl, -⟩ := h
        exact fun c => forall_takeWhile
    · simp only [Option.some.injEq, Prod.mk.injEq] at h
      obtain ⟨-, rfl, -⟩ := h
      simp
  · simp only [Option.some.injEq, Prod.mk.injEq] at h
    obtain ⟨-, rfl, -⟩ := h
    simp

/-- A fraction that was read is made of digits. -/
theorem isDigit_of_takeClock? {text behind : List Char} {clock : Clock}
    (h : takeClock? text = some (clock, behind)) : ∀ c ∈ clock.fraction, c.isDigit = true := by
  simp only [takeClock?, Option.bind_eq_bind, Option.bind_eq_some_iff, Option.some.injEq,
    Prod.mk.injEq, Prod.exists] at h
  obtain ⟨_, _, -, _, -, _, _, -, _, _, _, hs, rfl, -⟩ := h
  exact isDigit_of_takeSeconds? hs

theorem isWordChar_padded {width n : Nat} {c : Char} (h : c ∈ padded width n) :
    isWordChar c = true := by
  simp only [padded, List.mem_append] at h
  exact h.elim isWordChar_replicate isWordChar_toDigits

theorem isWordChar_writeDay (day : Day) : ∀ c ∈ writeDay day, isWordChar c = true := by
  simp only [writeDay, List.forall_mem_append, List.forall_mem_cons]
  exact ⟨⟨fun c => isWordChar_padded, by decide, fun c => isWordChar_padded⟩, by decide,
    fun c => isWordChar_padded⟩

/-- The time of a day is written in pairs of digits with colons between them; of its fraction it
has to be known that it is made of digits. -/
theorem isWordChar_writeClock {clock : Clock} (h : ∀ c ∈ clock.fraction, c.isDigit = true) :
    ∀ c ∈ writeClock clock, isWordChar c = true := by
  simp only [writeClock, List.forall_mem_append, List.forall_mem_cons]
  refine ⟨⟨⟨fun c => isWordChar_padded, by decide, fun c => isWordChar_padded⟩, by decide,
    fun c => isWordChar_padded⟩, ?_⟩
  -- zeros are taken off the end of the fraction, which leaves some of its digits
  unfold writeFraction
  dsimp only
  split
  · simp
  · simp only [List.forall_mem_cons, List.mem_reverse]
    refine ⟨by decide, fun c hc => isWordChar_of_isDigit (h c ?_)⟩
    have := (List.dropWhile_sublist _).mem hc
    exact List.mem_of_mem_take (List.mem_reverse.mp this)

theorem isWordChar_writeOffset (offset : Option Offset) :
    ∀ c ∈ writeOffset offset, isWordChar c = true := by
  rcases offset with _ | _ | ⟨negative, hours, minutes⟩
  · simp [writeOffset]
  · exact isWord (by decide)
  · simp only [writeOffset, List.cons_append, List.forall_mem_append, List.forall_mem_cons]
    refine ⟨?_, fun c => isWordChar_padded, by decide, fun c => isWordChar_padded⟩
    split <;> decide

/-- A date-time that was read is written as a word. -/
theorem isLiteral_write {text : List Char} {datetime : Datetime}
    (h : read? text = some datetime) : IsLiteral datetime.write := by
  have hday (day : Day) : writeDay day ≠ [] := by simp [writeDay]
  -- a day, a day with a time, or a time alone
  unfold read? at h
  split at h
  · obtain rfl := Option.some.inj h
    exact .word (hday _) (isWordChar_writeDay _)
  · split at h
    · simp only [Option.bind_eq_bind, Option.bind_eq_some_iff, Option.some.injEq,
        Prod.exists] at h
      obtain ⟨clock, _, hclock, offset, -, rfl⟩ := h
      refine .word (by simp [write]) ?_
      simp only [write, List.forall_mem_append, List.forall_mem_cons]
      exact ⟨⟨isWordChar_writeDay _, by decide,
        isWordChar_writeClock (isDigit_of_takeClock? hclock)⟩, isWordChar_writeOffset _⟩
    · simp at h
  · split at h
    · next hclock =>
      obtain rfl := Option.some.inj h
      exact .word (by simp [write, writeClock])
        (isWordChar_writeClock (isDigit_of_takeClock? hclock))
    · simp at h

/-- A text in canonical form is a word. -/
theorem isLiteral_of_canonical? {text canonical : List Char}
    (h : canonical? text = some canonical) :
    IsLiteral canonical := by
  unfold canonical? at h
  split at h
  · next hr =>
    split at h
    · obtain rfl := Option.some.inj h
      exact isLiteral_write hr
    · simp at h
  · simp at h

end Datetime

/-- **The literal of a scalar is a literal of one line.** -/
theorem isLiteral_of_literal? {value : Value} {literal : List Char} (hp : value.isPlain = true)
    (h : value.literal? = some literal) : IsLiteral literal := by
  -- one writer for each kind of scalar; infinities, NaNs and what is no scalar are excluded
  cases value with
  | null =>
    obtain rfl := Option.some.inj h
    exact .word (by decide) (isWord (by decide))
  | bool b =>
    obtain rfl := Option.some.inj h
    cases b <;> exact .word (by decide) (isWord (by decide))
  | integer n =>
    obtain rfl := Option.some.inj h
    exact isLiteral_decimalInt _
  | float x =>
    obtain rfl := Option.some.inj h
    cases x with
    | finite negative rank => exact FloatStyle.isLiteral_signed _ _ _
    | nan | infinite => simp [Value.isPlain, Binary64.isFinite] at hp
  | string s =>
    obtain rfl := Option.some.inj h
    exact .quoted _
  | datetime text =>
    obtain rfl := Option.some.inj h
    exact Datetime.isLiteral_of_canonical? (by simpa [Value.isPlain] using hp)
  | array | table => simp [Value.isPlain] at hp

end TomlKeep
