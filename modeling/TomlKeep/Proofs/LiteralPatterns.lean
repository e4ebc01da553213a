/-
# The patterns of numbers and of date-times

Numbers are a regular language (`Pattern.number`), and so are dates and times
(`Pattern.datetime`).  The readers of numbers and of date-times take exactly the texts of these
languages (`Numeral.isSome_read?_iff`, `Datetime.isSome_read?_iff`).

A reader that takes something off a text is related to a language by `Lexes`: all that it takes
is a text of the language, and such a text is taken in front of anything that does not carry it
on.  Readers are put together as languages are: one after the other (`Lexes.seq`), behind a
character (`lexes_behindChar`), or there or not (`Lexes.optional`).
-/
import TomlKeep.Proofs.BareWords

namespace TomlKeep

open Text Computability

/-! ## 1. Patterns

A pattern is a regular language, put together of classes of characters by the operations of Mathlib:
sum, product and star.  Each part of a pattern has a lemma that takes the first character off a text
of it, which is what a reader does.
-/

namespace Pattern

/-- One character of a class. -/
def oneOf (p : Char → Bool) : Language Char := {text | ∃ c, p c = true ∧ text = [c]}

/-- This character. -/
def char (c : Char) : Language Char := oneOf (· == c)

/-- A text of the language, or nothing. -/
def optional (l : Language Char) : Language Char := 1 + l

variable {p : Char → Bool} {l : Language Char} {text : List Char}

/-- A text that may be missing. -/
theorem mem_optional : text ∈ optional l ↔ text = [] ∨ text ∈ l := by
  rw [optional, Language.mem_add, Language.mem_one]

/-- The first character is of the class, and the rest belongs to the other language. -/
theorem mem_oneOf_mul : text ∈ oneOf p * l ↔ ∃ c, p c = true ∧ ∃ rest ∈ l, text = c :: rest := by
  rw [Language.mem_mul]
  constructor
  · rintro ⟨_, ⟨c, hc, rfl⟩, rest, hrest, rfl⟩
    exact ⟨c, hc, rest, hrest, rfl⟩
  · rintro ⟨c, hc, rest, hrest, rfl⟩
    exact ⟨[c], ⟨c, hc, rfl⟩, rest, hrest, rfl⟩

/-- The first character is the one that is asked for. -/
theorem mem_char_mul {c : Char} : text ∈ char c * l ↔ ∃ rest ∈ l, text = c :: rest := by
  rw [char, mem_oneOf_mul]
  constructor
  · rintro ⟨d, hd, rest, hrest, rfl⟩
    exact ⟨rest, hrest, by rw [eq_of_beq hd]⟩
  · rintro ⟨rest, hrest, rfl⟩
    exact ⟨c, beq_self_eq_true c, rest, hrest, rfl⟩

/-- The first two characters are. -/
theorem mem_char_char_mul {c d : Char} :
    text ∈ char c * (char d * l) ↔ ∃ rest ∈ l, text = c :: d :: rest := by
  rw [mem_char_mul]
  constructor
  · rintro ⟨behind, h, rfl⟩
    obtain ⟨rest, hrest, rfl⟩ := mem_char_mul.mp h
    exact ⟨rest, hrest, rfl⟩
  · rintro ⟨rest, hrest, rfl⟩
    exact ⟨d :: rest, mem_char_mul.mpr ⟨rest, hrest, rfl⟩, rfl⟩

/-- Any number of characters of a class. -/
theorem mem_kstar_oneOf : text ∈ (oneOf p)∗ ↔ ∀ c ∈ text, p c = true := by
  rw [Language.mem_kstar]
  constructor
  -- each part is one character of the class
  · rintro ⟨parts, rfl, hparts⟩ c hc
    obtain ⟨part, hpart, hc⟩ := List.mem_flatten.mp hc
    obtain ⟨d, hd, rfl⟩ := hparts part hpart
    rwa [List.mem_singleton.mp hc]
  · intro h
    refine ⟨text.map ([·]), by rw [← List.flatMap_def, List.flatMap_singleton'], ?_⟩
    intro part hpart
    obtain ⟨c, hc, rfl⟩ := List.mem_map.mp hpart
    exact ⟨c, h c hc, rfl⟩

/-- So many characters of a class. -/
theorem mem_oneOf_pow {n : Nat} :
    text ∈ oneOf p ^ n ↔ text.length = n ∧ ∀ c ∈ text, p c = true := by
  -- one character is taken off in each step
  induction n generalizing text with
  | zero =>
    rw [pow_zero, Language.mem_one, List.length_eq_zero_iff]
    constructor
    · rintro rfl
      exact ⟨rfl, by simp⟩
    · exact And.left
  | succ n ih =>
    rw [pow_succ', mem_oneOf_mul]
    constructor
    · rintro ⟨c, hc, rest, hrest, rfl⟩
      obtain ⟨hlength, hall⟩ := ih.mp hrest
      exact ⟨by rw [List.length_cons, hlength], List.forall_mem_cons.mpr ⟨hc, hall⟩⟩
    · rintro ⟨hlength, hall⟩
      obtain ⟨c, rest, rfl⟩ := List.exists_cons_of_length_eq_add_one hlength
      obtain ⟨hc, hrest⟩ := List.forall_mem_cons.mp hall
      exact ⟨c, hc, rest, ih.mpr ⟨by simpa using hlength, hrest⟩, rfl⟩

end Pattern

/-- **A reader takes the texts of a language:** what it takes off a text belongs to the language,
and a text of the language is taken in front of whatever may stop it.  The second half speaks of
texts with more behind them, since a reader is used inside another one; what may stop it is a
parameter, as a run of digits goes on where a fixed number of them does not. -/
structure Lexes {α : Type} (read : List Char → Option (α × List Char)) (l : Language Char)
    (stop : List Char → Prop) : Prop where
  sound : ∀ {text behind : List Char} {a : α}, read text = some (a, behind) →
    ∃ front ∈ l, text = front ++ behind
  complete : ∀ {front behind : List Char}, front ∈ l → stop behind →
    ∃ a, read (front ++ behind) = some (a, behind)

/-- What a reader takes up to the end of a text. -/
theorem Lexes.exists_whole_iff {α : Type} {read : List Char → Option (α × List Char)}
    {l : Language Char} {stop : List Char → Prop} (h : Lexes read l stop) (hs : stop [])
    {text : List Char} : (∃ a, read text = some (a, [])) ↔ text ∈ l := by
  constructor
  · rintro ⟨a, ha⟩
    obtain ⟨front, hfront, rfl⟩ := h.sound ha
    rwa [List.append_nil]
  · intro ht
    have := h.complete ht hs
    rwa [List.append_nil] at this

/-- One reader after the other.  What the second may take has to stop the first. -/
theorem Lexes.seq {α β : Type} {read : List Char → Option (α × List Char)}
    {next : α → List Char → Option (β × List Char)} {l m : Language Char}
    {stop stop' : List Char → Prop} (h : Lexes read l stop) (h' : ∀ a, Lexes (next a) m stop')
    (hs : ∀ {front behind : List Char}, front ∈ m → stop' behind → stop (front ++ behind)) :
    Lexes (fun text => (read text).bind fun (a, rest) => next a rest) (l * m) stop' := by
  constructor
  -- what the two took one after the other is a text of the product
  · intro text behind b hb
    obtain ⟨⟨a, rest⟩, ha, hnext⟩ := Option.bind_eq_some_iff.mp hb
    obtain ⟨front, hfront, rfl⟩ := h.sound ha
    obtain ⟨middle, hmiddle, rfl⟩ := (h' a).sound hnext
    exact ⟨front ++ middle, Language.append_mem_mul hfront hmiddle, by rw [List.append_assoc]⟩
  -- a text of the product is split in two, and each reader takes its part
  · intro front behind hfront hstop
    obtain ⟨first, hfirst, second, hsecond, rfl⟩ := Language.mem_mul.mp hfront
    obtain ⟨a, ha⟩ := h.complete hfirst (hs hsecond hstop)
    obtain ⟨b, hb⟩ := (h' a).complete hsecond hstop
    refine ⟨b, ?_⟩
    rw [List.append_assoc, ha]
    exact hb

/-- A reader with another result; results play no part in what is taken. -/
theorem Lexes.map {α β : Type} {read : List Char → Option (α × List Char)} {l : Language Char}
    {stop : List Char → Prop} (h : Lexes read l stop) (f : α → β) :
    Lexes (fun text => (read text).bind fun (a, rest) => some (f a, rest)) l stop := by
  constructor
  · intro text behind b hb
    obtain ⟨⟨a, rest⟩, ha, he⟩ := Option.bind_eq_some_iff.mp hb
    obtain ⟨-, rfl⟩ := Prod.mk.inj (Option.some.inj he)
    exact h.sound ha
  · intro front behind hfront hstop
    obtain ⟨a, ha⟩ := h.complete hfront hstop
    exact ⟨f a, by rw [ha, Option.bind_some]⟩

/-- A reader behind a character, or nothing where that character is not. -/
theorem Lexes.optional {α : Type} {read : List Char → Option (α × List Char)} {l : Language Char}
    {stop : List Char → Prop} (h : Lexes read l stop) (c : Char) (a : α) :
    Lexes (fun text => if startsIn (· == c) text then read (text.drop 1) else some (a, text))
      (Pattern.optional (Pattern.char c * l))
      (fun behind => stop behind ∧ startsIn (· == c) behind = false) := by
  constructor
  · intro text behind b hb
    split at hb
    -- the character is there and the reader was used, or nothing was taken
    · next hc =>
      obtain ⟨front, hfront, hrest⟩ := h.sound hb
      refine ⟨c :: front, .inr (Pattern.mem_char_mul.mpr ⟨front, hfront, rfl⟩), ?_⟩
      rw [eq_cons_of_startsIn hc, hrest]
      rfl
    · obtain ⟨-, rfl⟩ := Prod.mk.inj (Option.some.inj hb)
      exact ⟨[], .inl rfl, rfl⟩
  · intro front behind hfront hstop
    -- nothing, or the character and a text of the language
    rcases Pattern.mem_optional.mp hfront with rfl | hfront
    · exact ⟨a, by rw [List.nil_append, hstop.2, if_neg Bool.false_ne_true]⟩
    · obtain ⟨rest, hrest, rfl⟩ := Pattern.mem_char_mul.mp hfront
      obtain ⟨b, hb⟩ := h.complete hrest hstop.1
      refine ⟨b, ?_⟩
      rw [List.cons_append, startsIn, if_pos (beq_self_eq_true c)]
      exact hb

/-- A reader that reads the same, in front of fewer texts.  It is in this form that a reader of
the program is compared with one that is put together of parts. -/
theorem Lexes.congr {α : Type} {read read' : List Char → Option (α × List Char)} {l : Language Char}
    {stop stop' : List Char → Prop} (h : Lexes read l stop) (he : ∀ text, read' text = read text)
    (hs : ∀ {behind : List Char}, stop' behind → stop behind) : Lexes read' l stop' := by
  constructor
  · intro text behind a ha
    rw [he] at ha
    exact h.sound ha
  · intro front behind hfront hstop
    rw [he]
    exact h.complete hfront (hs hstop)

/-! ## 2. Numbers

The reader of numbers looks for the marks of the bases first, and then reads a decimal number from
left to right: sign, whole part, fraction, exponent.  Each of these takes the texts of its pattern,
and they are put together in the order of the reader.
-/

namespace Pattern

/-- Digits behind the first one, each with an underscore before it or none. -/
def moreDigits (base : Nat) : Language Char :=
  (optional (char '_') * oneOf (Numeral.isDigitOf base))∗

/-- One or more digits. -/
def digits (base : Nat) : Language Char := oneOf (Numeral.isDigitOf base) * moreDigits base

/-- A plus, a minus or nothing. -/
def sign : Language Char := optional (oneOf fun c => c == '+' || c == '-')

/-- A decimal integer without leading zero. -/
def whole : Language Char :=
  char '0' + oneOf (fun c => Numeral.isDigitOf 10 c && c != '0') * moreDigits 10

/-- A point and digits, or nothing. -/
def fraction : Language Char := optional (char '.' * digits 10)

/-- A power of ten, or nothing. -/
def exponent : Language Char :=
  optional (oneOf (fun c => c == 'e' || c == 'E') * (sign * digits 10))

/-- A decimal number behind its sign. -/
def unsigned : Language Char :=
  whole * (fraction * exponent) + {['i', 'n', 'f']} + {['n', 'a', 'n']}

/-- **The numbers of TOML.** -/
def number : Language Char :=
  sign * unsigned + char '0' * (char 'x' * digits 16) + char '0' * (char 'o' * digits 8)
    + char '0' * (char 'b' * digits 2)

/-- Behind a sign or without one. -/
theorem mem_sign_mul {l : Language Char} {text : List Char} : text ∈ sign * l ↔ text ∈ l
    ∨ ∃ c rest, (c = '+' ∨ c = '-') ∧ rest ∈ l ∧ text = c :: rest := by
  rw [Language.mem_mul]
  constructor
  · rintro ⟨front, hfront, rest, hrest, rfl⟩
    rcases mem_optional.mp hfront with rfl | ⟨c, hc, rfl⟩
    · exact .inl hrest
    · exact .inr ⟨c, rest, by simpa using hc, hrest, rfl⟩
  · rintro (h | ⟨c, rest, hc, hrest, rfl⟩)
    · exact ⟨[], .inl rfl, text, h, rfl⟩
    · exact ⟨[c], .inr ⟨c, by simpa using hc, rfl⟩, rest, hrest, rfl⟩

/-- No more digits is a possibility. -/
theorem nil_mem_moreDigits (base : Nat) : [] ∈ moreDigits base := Language.nil_mem_kstar _

/-- A digit more, with an underscore before it or none. -/
theorem append_mem_moreDigits {base : Nat} {front rest : List Char} {c : Char}
    (hf : front = [] ∨ front = ['_']) (hc : Numeral.isDigitOf base c = true)
    (hr : rest ∈ moreDigits base) : front ++ c :: rest ∈ moreDigits base := by
  rw [moreDigits, ← Language.one_add_self_mul_kstar_eq_kstar, Language.mem_add, mul_assoc]
  refine .inr (Language.mem_mul.mpr ⟨front, ?_, c :: rest, ?_, rfl⟩)
  · rw [mem_optional]
    rcases hf with rfl | rfl
    · exact .inl rfl
    · exact .inr ⟨'_', rfl, rfl⟩
  · exact mem_oneOf_mul.mpr ⟨c, hc, rest, hr, rfl⟩

/-- **Induction on further digits.**  The reader of digits takes an underscore and the digit
behind it in one step, so a step of the induction is that, too. -/
theorem moreDigits_induction {base : Nat} {motive : List Char → Prop} (nil : motive [])
    (append : ∀ {front rest : List Char} {c : Char}, front = [] ∨ front = ['_'] →
      Numeral.isDigitOf base c = true → motive rest → motive (front ++ c :: rest))
    {text : List Char} (h : text ∈ moreDigits base) : motive text := by
  obtain ⟨parts, rfl, hparts⟩ := Language.mem_kstar.mp h
  clear h
  induction parts with
  | nil => exact nil
  | cons part parts ih =>
    obtain ⟨hpart, hrest⟩ := List.forall_mem_cons.mp hparts
    obtain ⟨front, hfront, digit, ⟨c, hc, rfl⟩, rfl⟩ := Language.mem_mul.mp hpart
    have hcases : front = [] ∨ front = ['_'] := by
      rcases mem_optional.mp hfront with rfl | ⟨d, hd, rfl⟩
      · exact .inl rfl
      · exact .inr (by rw [eq_of_beq hd])
    have := append hcases hc (ih hrest)
    simpa using this

end Pattern

namespace Numeral

/-- An underscore is a digit of no base. -/
theorem not_isDigitOf_underscore (base : Nat) : isDigitOf base '_' = false := rfl

/-- Further digits are read, up to a text that they do not go on in. -/
theorem lexes_digitTail (base : Nat) :
    Lexes (fun text => some (digitTail base text)) (Pattern.moreDigits base)
      (fun behind => digitTail base behind = ([], behind)) := by
  constructor
  · intro text behind digits h
    have hsound : ∃ front ∈ Pattern.moreDigits base, text = front ++ (digitTail base text).2 := by
      clear h
      -- the reader stops, or takes a digit with an underscore in front of it or without
      fun_induction digitTail base text with
      | case1 c rest hc digits behind hd ih =>
        rw [hd] at ih
        obtain ⟨front, hfront, hrest⟩ := ih
        refine ⟨['_'] ++ c :: front, Pattern.append_mem_moreDigits (.inr rfl) hc hfront, ?_⟩
        simp [hrest]
      | case3 c rest _ hc digits behind hd ih =>
        rw [hd] at ih
        obtain ⟨front, hfront, hrest⟩ := ih
        refine ⟨[] ++ c :: front, Pattern.append_mem_moreDigits (.inl rfl) hc hfront, ?_⟩
        simp [hrest]
      | case2 | case4 | case5 => exact ⟨[], Pattern.nil_mem_moreDigits base, rfl⟩
    rwa [Option.some.inj h] at hsound
  · intro front behind hfront hstop
    have hbehind : (digitTail base (front ++ behind)).2 = behind := by
      -- the other way by induction on the digits; an underscore is no digit itself
      refine Pattern.moreDigits_induction (motive := fun front =>
        (digitTail base (front ++ behind)).2 = behind) ?_ ?_ hfront
      · rw [List.nil_append, hstop]
      · intro before rest c hbefore hc ih
        have hne : c ≠ '_' := by
          rintro rfl
          rw [not_isDigitOf_underscore] at hc
          cases hc
        rcases hbefore with rfl | rfl
        · rw [List.nil_append, List.cons_append, digitTail, if_pos hc]
          · exact ih
          · intro d tail he
            exact absurd he hne
        · rw [List.singleton_append, List.cons_append, List.cons_append, digitTail, if_pos hc]
          exact ih
    exact ⟨(digitTail base (front ++ behind)).1, congrArg some (Prod.ext rfl hbehind)⟩

/-- A run of digits begins with a digit. -/
theorem lexes_digitRun? (base : Nat) :
    Lexes (digitRun? base) (Pattern.digits base)
      (fun behind => digitTail base behind = ([], behind)) := by
  have htail := lexes_digitTail base
  constructor
  · intro text behind digits h
    cases text with
    | nil => cases h
    | cons c rest =>
      obtain ⟨hc, he⟩ := Option.ite_none_right_eq_some.mp h
      obtain ⟨-, hbehind⟩ := Prod.mk.inj (Option.some.inj he)
      have htaken : some (digitTail base rest) = some ((digitTail base rest).1, behind) := by
        rw [← hbehind]
      obtain ⟨front, hfront, hrest⟩ := htail.sound htaken
      exact ⟨c :: front, Pattern.mem_oneOf_mul.mpr ⟨c, hc, front, hfront, rfl⟩, by rw [hrest]; rfl⟩
  · intro text behind htext hstop
    obtain ⟨c, hc, rest, hrest, rfl⟩ := Pattern.mem_oneOf_mul.mp htext
    obtain ⟨digits, hdigits⟩ := htail.complete hrest hstop
    exact ⟨c :: digits, by rw [List.cons_append, digitRun?, if_pos hc, Option.some.inj hdigits]⟩

/-- The whole part of a decimal number is a zero, or a run of digits that begins with none. -/
theorem lexes_wholePart? : Lexes wholePart? Pattern.whole Stops := by
  constructor
  · intro text behind digits h
    unfold wholePart? at h
    split at h
    · obtain ⟨-, rfl⟩ := Prod.mk.inj (Option.some.inj h)
      exact ⟨['0'], .inl ⟨'0', rfl, rfl⟩, rfl⟩
    -- a run of digits that does not begin with a zero
    · next hzero =>
      obtain ⟨front, hfront, rfl⟩ := (lexes_digitRun? 10).sound h
      obtain ⟨c, hc, rest, hrest, rfl⟩ := Pattern.mem_oneOf_mul.mp hfront
      have hne : c ≠ '0' := by
        rintro rfl
        exact hzero _ rfl
      have hdigit : (isDigitOf 10 c && c != '0') = true := by simp [hc, hne]
      exact ⟨c :: rest, .inr (Pattern.mem_oneOf_mul.mpr ⟨c, hdigit, rest, hrest, rfl⟩), rfl⟩
  · intro front behind hfront hstop
    rcases hfront with ⟨c, hc, rfl⟩ | hfront
    · exact ⟨['0'], by rw [eq_of_beq hc]; rfl⟩
    · obtain ⟨c, hc, rest, hrest, rfl⟩ := Pattern.mem_oneOf_mul.mp hfront
      obtain ⟨hdigit, hne⟩ : isDigitOf 10 c = true ∧ c ≠ '0' := by simpa using hc
      have hrun : c :: rest ∈ Pattern.digits 10 :=
        Pattern.mem_oneOf_mul.mpr ⟨c, hdigit, rest, hrest, rfl⟩
      obtain ⟨digits, hdigits⟩ := (lexes_digitRun? 10).complete hrun (digitTail_stops hstop)
      refine ⟨digits, ?_⟩
      rw [List.cons_append] at hdigits ⊢
      rw [wholePart?, hdigits]
      intro tail he
      exact absurd (List.cons.inj he).1 hne

/-- A text that ends a decimal number, or goes on with its exponent. -/
def StartsExponent (text : List Char) : Prop := ∀ c, text.head? = some c → c = 'e' ∨ c = 'E'

/-- An exponent does not go on with digits. -/
theorem StartsExponent.stops {text : List Char} (h : StartsExponent text) : Stops text := by
  intro c hc
  rcases h c hc with rfl | rfl <;> decide

/-- A fraction is read, or its absence, up to the exponent. -/
theorem lexes_fraction? : Lexes fraction? Pattern.fraction StartsExponent := by
  refine ((lexes_digitRun? 10).optional '.' []).congr ?_ ?_
  · intro text
    cases text with
    | nil => rfl
    | cons c rest =>
      by_cases hc : c = '.'
      · rw [hc]
        rfl
      · rw [startsIn, if_neg (by simpa using hc), fraction?]
        intro tail he
        exact hc (List.cons.inj he).1
  · intro behind hstop
    refine ⟨digitTail_stops hstop.stops, ?_⟩
    cases behind with
    | nil => rfl
    | cons c rest => rcases hstop c rfl with rfl | rfl <;> rfl

/-- The pattern of the exponent begins with its letter. -/
theorem startsExponent_of_mem {text : List Char} (h : text ∈ Pattern.exponent) :
    StartsExponent text := by
  intro c hc
  rcases Pattern.mem_optional.mp h with rfl | h
  · cases hc
  · obtain ⟨d, hd, rest, -, rfl⟩ := Pattern.mem_oneOf_mul.mp h
    obtain rfl := Option.some.inj hc
    simpa using hd

/-- What follows the whole part of a number does not go on with its digits. -/
theorem stops_of_mem {middle rest : List Char} (hm : middle ∈ Pattern.fraction)
    (hr : rest ∈ Pattern.exponent) : Stops (middle ++ rest) := by
  rcases Pattern.mem_optional.mp hm with rfl | hpoint
  · exact (startsExponent_of_mem hr).stops
  · obtain ⟨digits, -, rfl⟩ := Pattern.mem_char_mul.mp hpoint
    exact stops_cons.mpr ⟨rfl, by decide⟩

/-- An exponent has at most one sign. -/
theorem isSome_exponent?_cons {c : Char} (hc : c = 'e' ∨ c = 'E') (rest : List Char) :
    (exponent? (c :: rest)).isSome = true ↔ rest ∈ Pattern.sign * Pattern.digits 10 := by
  have hrun {text : List Char} : (∃ digits, digitRun? 10 text = some (digits, []))
      ↔ text ∈ Pattern.digits 10 := (lexes_digitRun? 10).exists_whole_iff rfl
  rw [Pattern.mem_sign_mul]
  unfold exponent?
  simp only [if_pos hc]
  constructor
  · intro h
    split at h
    · next digits hd =>
      split at hd
      · exact .inr ⟨_, _, .inr rfl, hrun.mp ⟨digits, hd⟩, rfl⟩
      · exact .inr ⟨_, _, .inl rfl, hrun.mp ⟨digits, hd⟩, rfl⟩
      · exact .inl (hrun.mp ⟨digits, hd⟩)
    · cases h
  -- without a sign or with one
  · rintro (hmem | ⟨sign, unsigned, hs, hmem, rfl⟩)
    · obtain ⟨digits, hd⟩ := hrun.mpr hmem
      obtain ⟨d, hdigit, more, -, rfl⟩ := Pattern.mem_oneOf_mul.mp hmem
      rw [isDigitOf_ten] at hdigit
      split
      · rfl
      · next hno =>
        -- the first digit is no sign
        refine (hno digits ?_).elim
        split
        · next he => exact absurd (List.cons.inj he).1 (isDigit_ne hdigit rfl)
        · next he => exact absurd (List.cons.inj he).1 (isDigit_ne hdigit rfl)
        · exact hd
    · obtain ⟨digits, hd⟩ := hrun.mpr hmem
      split
      · rfl
      · next hno =>
        refine (hno digits ?_).elim
        rcases hs with rfl | rfl <;> exact hd

/-- An exponent is read up to the end of the text, since nothing follows it in a number. -/
theorem isSome_exponent?_iff {text : List Char} :
    (exponent? text).isSome = true ↔ text ∈ Pattern.exponent := by
  rw [Pattern.exponent, Pattern.mem_optional, Pattern.mem_oneOf_mul]
  cases text with
  | nil => exact iff_of_true rfl (.inl rfl)
  | cons c rest =>
    -- a text that begins with another character is no exponent, and is not read as one
    by_cases hc : c = 'e' ∨ c = 'E'
    · rw [isSome_exponent?_cons hc]
      constructor
      · intro h
        exact .inr ⟨c, by simpa using hc, rest, h, rfl⟩
      · rintro (h | ⟨d, -, rest', h, he⟩)
        · cases h
        · obtain ⟨rfl, rfl⟩ := List.cons.inj he
          exact h
    · unfold exponent?
      simp only [if_neg hc]
      refine iff_of_false Bool.false_ne_true ?_
      rintro (h | ⟨d, hd, rest', -, he⟩)
      · cases h
      · obtain ⟨rfl, -⟩ := List.cons.inj he
        exact hc (by simpa using hd)

/-- What stands behind the sign of a decimal number. -/
theorem isSome_unsigned?_iff {negative : Bool} {text : List Char} :
    (unsigned? negative text).isSome = true ↔ text ∈ Pattern.unsigned := by
  have hnames : text ∈ Pattern.unsigned
      ↔ text ∈ Pattern.whole * (Pattern.fraction * Pattern.exponent)
      ∨ text = ['i', 'n', 'f'] ∨ text = ['n', 'a', 'n'] := by
    rw [Pattern.unsigned, Language.mem_add, Language.mem_add, or_assoc]
    exact Iff.rfl
  rw [hnames, unsigned?]
  by_cases hinf : text = ['i', 'n', 'f']
  · rw [if_pos hinf]
    exact iff_of_true rfl (.inr (.inl hinf))
  by_cases hnan : text = ['n', 'a', 'n']
  · rw [if_neg hinf, if_pos hnan]
    exact iff_of_true rfl (.inr (.inr hnan))
  rw [if_neg hinf, if_neg hnan, or_iff_left (not_or.mpr ⟨hinf, hnan⟩), Language.mem_mul]
  -- the parts that were read are joined; the other way the text is split as the pattern says, and
  -- each part is read in front of the next
  constructor
  · intro h
    split at h
    · cases h
    · next digits hw =>
      obtain ⟨front, hfront, rfl⟩ := lexes_wholePart?.sound hw
      have hnothing : [] ∈ Pattern.fraction * Pattern.exponent :=
        Language.mem_mul.mpr ⟨[], .inl rfl, [], .inl rfl, rfl⟩
      exact ⟨front, hfront, [], hnothing, rfl⟩
    · next digits behind hw =>
      obtain ⟨front, hfront, rfl⟩ := lexes_wholePart?.sound hw
      split at h
      · cases h
      · next fraction rest hf =>
        obtain ⟨middle, hmiddle, rfl⟩ := lexes_fraction?.sound hf
        split at h
        · cases h
        · next he =>
          have hrest := isSome_exponent?_iff.mp (Option.isSome_of_eq_some he)
          exact ⟨front, hfront, _, Language.mem_mul.mpr ⟨middle, hmiddle, rest, hrest, rfl⟩, rfl⟩
  · rintro ⟨front, hfront, behind, hbehind, rfl⟩
    obtain ⟨middle, hmiddle, rest, hrest, rfl⟩ := Language.mem_mul.mp hbehind
    have hexponent := startsExponent_of_mem hrest
    obtain ⟨digits, hw⟩ := lexes_wholePart?.complete hfront (stops_of_mem hmiddle hrest)
    obtain ⟨fraction, hf⟩ := lexes_fraction?.complete hmiddle hexponent
    obtain ⟨exponent, he⟩ := Option.isSome_iff_exists.mp (isSome_exponent?_iff.mpr hrest)
    rw [hw]
    cases hcons : middle ++ rest with
    | nil => rfl
    | cons c more =>
      rw [hcons] at hf
      simp only [hf, he, Option.isSome_some]

/-- Behind the mark of a base stands a run of its digits. -/
theorem isSome_based?_iff {base : Nat} {text : List Char} :
    (based? base text).isSome = true ↔ text ∈ Pattern.digits base := by
  rw [← (lexes_digitRun? base).exists_whole_iff rfl, based?]
  split
  · next digits hd => exact iff_of_true rfl ⟨digits, hd⟩
  · next hno => exact iff_of_false Bool.false_ne_true fun ⟨digits, hd⟩ => hno digits hd

/-- No decimal number begins with a sign or with the mark of a base.  So the reader, which asks
for these marks first, takes no text from the decimal numbers. -/
theorem not_mem_unsigned {c : Char} (rest : List Char) :
    (c = '+' ∨ c = '-' → c :: rest ∉ Pattern.unsigned)
      ∧ (c = 'x' ∨ c = 'o' ∨ c = 'b' → '0' :: c :: rest ∉ Pattern.unsigned) := by
  have hnone {text : List Char} (h : unsigned? false text = none) : text ∉ Pattern.unsigned := by
    rw [← @isSome_unsigned?_iff false, h]
    exact Bool.false_ne_true
  constructor
  · rintro (rfl | rfl) <;> exact hnone rfl
  · rintro (rfl | rfl | rfl) <;> exact hnone rfl

/-- **The numbers that are read are those of the pattern.** -/
theorem isSome_read?_iff {text : List Char} :
    (read? text).isSome = true ↔ text ∈ Pattern.number := by
  have hnumber : text ∈ Pattern.number ↔ text ∈ Pattern.sign * Pattern.unsigned
      ∨ (∃ rest ∈ Pattern.digits 16, text = '0' :: 'x' :: rest)
      ∨ (∃ rest ∈ Pattern.digits 8, text = '0' :: 'o' :: rest)
      ∨ (∃ rest ∈ Pattern.digits 2, text = '0' :: 'b' :: rest) := by
    simp only [Pattern.number, Language.mem_add, Pattern.mem_char_char_mul, or_assoc]
  rw [hnumber, Pattern.mem_sign_mul]
  constructor
  · intro h
    -- the cases of the reader are those of the pattern
    unfold read? at h
    split at h
    · exact .inr (.inl ⟨_, isSome_based?_iff.mp h, rfl⟩)
    · exact .inr (.inr (.inl ⟨_, isSome_based?_iff.mp h, rfl⟩))
    · exact .inr (.inr (.inr ⟨_, isSome_based?_iff.mp h, rfl⟩))
    · exact .inl (.inr ⟨_, _, .inl rfl, isSome_unsigned?_iff.mp h, rfl⟩)
    · exact .inl (.inr ⟨_, _, .inr rfl, isSome_unsigned?_iff.mp h, rfl⟩)
    · exact .inl (.inl (isSome_unsigned?_iff.mp h))
  · rintro ((h | ⟨c, rest, rfl | rfl, h, rfl⟩) | ⟨rest, h, rfl⟩ | ⟨rest, h, rfl⟩ | ⟨rest, h, rfl⟩)
    -- a decimal number without a sign is none of the other cases
    · unfold read?
      split
      · exact absurd h ((not_mem_unsigned _).2 (.inl rfl))
      · exact absurd h ((not_mem_unsigned _).2 (.inr (.inl rfl)))
      · exact absurd h ((not_mem_unsigned _).2 (.inr (.inr rfl)))
      · exact absurd h ((not_mem_unsigned _).1 (.inl rfl))
      · exact absurd h ((not_mem_unsigned _).1 (.inr rfl))
      · exact isSome_unsigned?_iff.mpr h
    · exact isSome_unsigned?_iff.mpr h
    · exact isSome_unsigned?_iff.mpr h
    · exact isSome_based?_iff.mpr h
    · exact isSome_based?_iff.mpr h
    · exact isSome_based?_iff.mpr h

end Numeral

/-! ## 3. Dates and times

The numbers of a date have fixed lengths, so nothing has to stop them; a fraction of a second goes
on as far as digits do.  No time begins like a date, as its first number has two digits and a year
has four.
-/

namespace Pattern

/-- So many decimal digits. -/
def decimals (n : Nat) : Language Char := oneOf Char.isDigit ^ n

/-- A day. -/
def day : Language Char := decimals 4 * (char '-' * (decimals 2 * (char '-' * decimals 2)))

/-- The seconds of a time with their fraction, or nothing. -/
def seconds : Language Char :=
  optional
    (char ':' * (decimals 2 * optional (char '.' * (oneOf Char.isDigit * (oneOf Char.isDigit)∗))))

/-- A time. -/
def clock : Language Char := decimals 2 * (char ':' * (decimals 2 * seconds))

/-- The distance from universal time, or nothing. -/
def offset : Language Char :=
  optional (oneOf (fun c => c == 'Z' || c == 'z')
    + oneOf (fun c => c == '+' || c == '-') * (decimals 2 * (char ':' * decimals 2)))

/-- **The dates and times of TOML.** -/
def datetime : Language Char :=
  day * optional (oneOf Datetime.isSeparator * (clock * offset)) + clock

/-- One digit or more. -/
theorem mem_digits_iff {text : List Char} : text ∈ oneOf Char.isDigit * (oneOf Char.isDigit)∗
    ↔ text ≠ [] ∧ IsDigits text := by
  rw [mem_oneOf_mul]
  constructor
  · rintro ⟨c, hc, rest, hrest, rfl⟩
    exact ⟨List.cons_ne_nil c rest, List.forall_mem_cons.mpr ⟨hc, mem_kstar_oneOf.mp hrest⟩⟩
  · rintro ⟨hne, hd⟩
    obtain ⟨c, rest, rfl⟩ := List.exists_cons_of_ne_nil hne
    obtain ⟨hc, hrest⟩ := List.forall_mem_cons.mp hd
    exact ⟨c, hc, rest, mem_kstar_oneOf.mpr hrest, rfl⟩

end Pattern

namespace Datetime

/-- A number of so many digits is read, whatever follows. -/
theorem lexes_takeNumber? (n : Nat) :
    Lexes (takeNumber? n) (Pattern.decimals n) (fun _ => True) := by
  constructor
  · intro text behind m h
    obtain ⟨⟨hl, hd⟩, he⟩ := Option.ite_none_right_eq_some.mp h
    obtain ⟨-, rfl⟩ := Prod.mk.inj (Option.some.inj he)
    exact ⟨text.take n, Pattern.mem_oneOf_pow.mpr ⟨hl, List.all_eq_true.mp hd⟩,
      (List.take_append_drop n text).symm⟩
  · intro front behind hfront _
    obtain ⟨hl, hd⟩ := Pattern.mem_oneOf_pow.mp hfront
    exact ⟨_, takeNumber?_eq n hl hd⟩

/-- A reader behind a given character, without which nothing is taken. -/
theorem lexes_behindChar {α : Type} {read : List Char → Option (α × List Char)} {l : Language Char}
    {stop : List Char → Prop} (h : Lexes read l stop) (c : Char) :
    Lexes (fun text => (takeChar? c text).bind read) (Pattern.char c * l) stop := by
  constructor
  · intro text behind a ha
    obtain ⟨rest, hrest, ha⟩ := Option.bind_eq_some_iff.mp ha
    cases text with
    | nil => cases hrest
    | cons d tail =>
      obtain ⟨rfl, he⟩ := Option.ite_none_right_eq_some.mp hrest
      obtain rfl := Option.some.inj he
      obtain ⟨front, hfront, rfl⟩ := h.sound ha
      exact ⟨d :: front, Pattern.mem_char_mul.mpr ⟨front, hfront, rfl⟩, rfl⟩
  · intro front behind hfront hstop
    obtain ⟨rest, hrest, rfl⟩ := Pattern.mem_char_mul.mp hfront
    obtain ⟨a, ha⟩ := h.complete hrest hstop
    exact ⟨a, by rw [List.cons_append, takeChar?, if_pos rfl, Option.bind_some, ha]⟩

/-- A day is three numbers with dashes between them. -/
theorem lexes_takeDay? : Lexes takeDay? Pattern.day (fun _ => True) :=
  (lexes_takeNumber? 4).seq (fun year => lexes_behindChar
    ((lexes_takeNumber? 2).seq (fun month => lexes_behindChar
      ((lexes_takeNumber? 2).map fun day => Day.mk year month day) '-') fun _ _ => trivial) '-')
    fun _ _ => trivial

/-- A text that ends a time, or goes on with its offset. -/
def EndsClock (text : List Char) : Prop :=
  ∀ c, text.head? = some c → c ≠ ':' ∧ c ≠ '.' ∧ c.isDigit = false

/-- The end of the text ends a time. -/
theorem endsClock_nil : EndsClock [] := fun _ h => by cases h

/-- Neither seconds nor a fraction follow. -/
theorem EndsClock.startsIn {text : List Char} (h : EndsClock text) :
    startsIn (· == ':') text = false ∧ startsIn (· == '.') text = false := by
  cases text with
  | nil => exact ⟨rfl, rfl⟩
  | cons c rest =>
    obtain ⟨h1, h2, -⟩ := h c rfl
    exact ⟨by simpa [TomlKeep.startsIn] using h1, by simpa [TomlKeep.startsIn] using h2⟩

/-- Digits up to the next character of another kind. -/
theorem lexes_digits : Lexes (fun text =>
      let fraction := text.takeWhile Char.isDigit
      if fraction.isEmpty then none else some (fraction, text.dropWhile Char.isDigit))
    (Pattern.oneOf Char.isDigit * (Pattern.oneOf Char.isDigit)∗) EndsClock := by
  constructor
  · intro text behind digits h
    obtain ⟨hne, he⟩ := Option.ite_none_left_eq_some.mp h
    obtain ⟨rfl, rfl⟩ := Prod.mk.inj (Option.some.inj he)
    refine ⟨text.takeWhile Char.isDigit, Pattern.mem_digits_iff.mpr ⟨by simpa using hne, ?_⟩,
      List.takeWhile_append_dropWhile.symm⟩
    exact fun c hc => forall_takeWhile hc
  -- digits are taken up to a character that is none
  · intro front behind hfront hstop
    obtain ⟨hne, hd⟩ := Pattern.mem_digits_iff.mp hfront
    obtain ⟨htake, hdrop⟩ := takeWhile_append_stop hd fun c hc => (hstop c hc).2.2
    exact ⟨front, by simp only [htake, hdrop, List.isEmpty_iff, if_neg hne]⟩

/-- The seconds of a time and their fraction, as one result. -/
theorem lexes_takeSeconds? :
    Lexes
      (fun text => (takeSeconds? text).map fun (second, fraction, rest) =>
        ((second, fraction), rest))
      Pattern.seconds EndsClock := by
  have hfraction := lexes_digits.optional '.' []
  have hboth := (lexes_takeNumber? 2).seq
    (fun second => hfraction.map fun fraction => (second, fraction)) fun _ _ => trivial
  -- the reader is put together of its parts, case by case for what the text begins with
  refine (hboth.optional ':' (0, [])).congr ?_ ?_
  · intro text
    cases text with
    | nil => rfl
    | cons c rest =>
      by_cases hc : c = ':'
      · subst hc
        rw [startsIn, if_pos (beq_self_eq_true ':'), takeSeconds?]
        simp only [Option.bind_eq_bind, Option.map_bind, List.drop_one, List.tail_cons]
        congr 1
        funext taken
        obtain ⟨second, more⟩ := taken
        cases more with
        | nil => rfl
        | cons d tail =>
          by_cases hd : d = '.'
          · subst hd
            simp only [startsIn, beq_self_eq_true, if_true, Function.comp_apply, List.tail_cons]
            by_cases he : tail.takeWhile Char.isDigit = []
            · simp [he]
            · simp [he]
          · simp [startsIn, hd]
      · rw [startsIn, if_neg (by simpa using hc), takeSeconds?]
        · rfl
        · intro tail he
          exact hc (List.cons.inj he).1
  · intro behind hstop
    exact ⟨⟨hstop, hstop.startsIn.2⟩, hstop.startsIn.1⟩

/-- A time is hours and minutes, with seconds or without. -/
theorem lexes_takeClock? : Lexes takeClock? Pattern.clock EndsClock := by
  have hminutes := (lexes_takeNumber? 2).seq (fun minute => lexes_takeSeconds?.map fun seconds =>
    (minute, seconds)) fun _ _ => trivial
  have hclock := (lexes_takeNumber? 2).seq (fun hour => lexes_behindChar (hminutes.map fun rest =>
    Clock.mk hour rest.1 rest.2.1 rest.2.2) ':') fun _ _ => trivial
  refine hclock.congr ?_ id
  intro text
  simp only [takeClock?, Option.bind_eq_bind, Option.bind_map, Option.bind_assoc]
  rfl

/-- An offset does not carry on the time in front of it. -/
theorem endsClock_of_mem {text : List Char} (h : text ∈ Pattern.offset) : EndsClock text := by
  intro c hc
  rcases Pattern.mem_optional.mp h with rfl | ⟨d, hd, rfl⟩ | hshift
  · cases hc
  · obtain rfl := Option.some.inj hc
    rcases (by simpa using hd : d = 'Z' ∨ d = 'z') with rfl | rfl <;> decide
  · obtain ⟨d, hd, rest, -, rfl⟩ := Pattern.mem_oneOf_mul.mp hshift
    obtain rfl := Option.some.inj hc
    rcases (by simpa using hd : d = '+' ∨ d = '-') with rfl | rfl <;> decide

/-- The hours and minutes of an offset. -/
theorem lexes_shift : Lexes (fun text => (takeNumber? 2 text).bind fun (hours, text) =>
    (takeChar? ':' text).bind fun text => (takeNumber? 2 text).bind fun (minutes, text) =>
      some ((hours, minutes), text)) (Pattern.decimals 2 * (Pattern.char ':' * Pattern.decimals 2))
    (fun _ => True) :=
  (lexes_takeNumber? 2).seq (fun hours => lexes_behindChar
    ((lexes_takeNumber? 2).map fun minutes => (hours, minutes)) ':') fun _ _ => trivial

/-- An offset is read up to the end of the text, and so is its absence. -/
theorem isSome_readOffset?_iff {text : List Char} :
    (readOffset? text).isSome = true ↔ text ∈ Pattern.offset := by
  constructor
  · intro h
    unfold readOffset? at h
    split at h
    · exact .inl rfl
    · exact .inr (.inl ⟨'Z', rfl, rfl⟩)
    · exact .inr (.inl ⟨'z', rfl, rfl⟩)
    -- a sign, hours and minutes, and then the end
    · next c rest _ _ =>
      split at h
      · next hc =>
        obtain ⟨offset, ho⟩ := Option.isSome_iff_exists.mp h
        simp only [Option.bind_eq_bind, Option.bind_eq_some_iff, Prod.exists] at ho
        obtain ⟨hours, _, hhours, _, hcolon, minutes, _, hminutes, ho⟩ := ho
        obtain ⟨hend, -⟩ := Option.ite_none_right_eq_some.mp ho
        obtain rfl := List.isEmpty_iff.mp hend
        have hmem : rest ∈ Pattern.decimals 2 * (Pattern.char ':' * Pattern.decimals 2) :=
          (lexes_shift.exists_whole_iff trivial).mp
            ⟨(hours, minutes), by simp only [hhours, Option.bind_some, hcolon, hminutes]⟩
        exact .inr (.inr (Pattern.mem_oneOf_mul.mpr ⟨c, by simpa using hc, rest, hmem, rfl⟩))
      · cases h
  · intro h
    rcases Pattern.mem_optional.mp h with rfl | ⟨d, hd, rfl⟩ | hmem
    · rfl
    · rcases (by simpa using hd : d = 'Z' ∨ d = 'z') with rfl | rfl <;> rfl
    · obtain ⟨c, hc, rest, hrest, rfl⟩ := Pattern.mem_oneOf_mul.mp hmem
      obtain ⟨shift, hs⟩ := (lexes_shift.exists_whole_iff trivial).mpr hrest
      simp only [Option.bind_eq_some_iff, Prod.exists] at hs
      obtain ⟨hours, _, hhours, _, hcolon, minutes, _, hminutes, hs⟩ := hs
      obtain ⟨-, rfl⟩ := Prod.mk.inj (Option.some.inj hs)
      rcases (by simpa using hc : c = '+' ∨ c = '-') with rfl | rfl
      · simp [readOffset?, hhours, hcolon, hminutes]
      · simp [readOffset?, hhours, hcolon, hminutes]

/-- No time begins like a date, so the reader, which asks for a day first, comes to the time. -/
theorem takeDay?_of_mem_clock {text : List Char} (h : text ∈ Pattern.clock) :
    takeDay? text = none := by
  obtain ⟨hour, hhour, behind, hbehind, rfl⟩ := Language.mem_mul.mp h
  obtain ⟨rest, -, rfl⟩ := Pattern.mem_char_mul.mp hbehind
  obtain ⟨hlength, -⟩ := Pattern.mem_oneOf_pow.mp hhour
  obtain ⟨a, b, rfl⟩ := List.length_eq_two.mp hlength
  -- the two digits of the hour are followed by a colon, and a year has four
  have hyear : takeNumber? 4 ([a, b] ++ ':' :: rest) = none := by simp [takeNumber?]
  rw [takeDay?, hyear]
  rfl

/-- **The dates and times that are read are those of the pattern.** -/
theorem isSome_read?_iff {text : List Char} :
    (read? text).isSome = true ↔ text ∈ Pattern.datetime := by
  constructor
  · intro h
    unfold read? at h
    -- a day alone, a day with a time behind it, or a time alone
    split at h
    · next day hday =>
      obtain ⟨front, hfront, rfl⟩ := lexes_takeDay?.sound hday
      exact .inl (Language.append_mem_mul hfront (.inl rfl))
    · next day c rest hday =>
      split at h
      · next hc =>
        obtain ⟨front, hfront, rfl⟩ := lexes_takeDay?.sound hday
        obtain ⟨datetime, hd⟩ := Option.isSome_iff_exists.mp h
        simp only [Option.bind_eq_bind, Option.bind_eq_some_iff, Prod.exists] at hd
        obtain ⟨clock, more, hclock, offset, hoffset, -⟩ := hd
        obtain ⟨middle, hmiddle, rfl⟩ := lexes_takeClock?.sound hclock
        have hmore := isSome_readOffset?_iff.mp (Option.isSome_of_eq_some hoffset)
        have htime :=
          Pattern.mem_oneOf_mul.mpr ⟨c, hc, _, Language.append_mem_mul hmiddle hmore, rfl⟩
        exact .inl (Language.append_mem_mul hfront (.inr htime))
      · cases h
    · split at h
      · next clock hclock =>
        exact .inr ((lexes_takeClock?.exists_whole_iff endsClock_nil).mp ⟨clock, hclock⟩)
      · cases h
  -- each part is taken in front of the next one; a time alone is no day that was cut off
  · rintro (h | h)
    · obtain ⟨front, hfront, rest, hrest, rfl⟩ := Language.mem_mul.mp h
      obtain ⟨day, hday⟩ := lexes_takeDay?.complete hfront trivial
      rw [read?, hday]
      rcases Pattern.mem_optional.mp hrest with rfl | htime
      · rfl
      · obtain ⟨c, hc, behind, hbehind, rfl⟩ := Pattern.mem_oneOf_mul.mp htime
        obtain ⟨middle, hmiddle, more, hmore, rfl⟩ := Language.mem_mul.mp hbehind
        obtain ⟨clock, hclock⟩ := lexes_takeClock?.complete hmiddle (endsClock_of_mem hmore)
        obtain ⟨offset, hoffset⟩ := Option.isSome_iff_exists.mp (isSome_readOffset?_iff.mpr hmore)
        simp [hc, hclock, hoffset]
    · obtain ⟨clock, hclock⟩ := (lexes_takeClock?.exists_whole_iff endsClock_nil).mpr h
      rw [read?, takeDay?_of_mem_clock h]
      simp only [hclock, Option.isSome_some]

end Datetime

end TomlKeep
