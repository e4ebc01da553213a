/-
# Quoting leaves documents alone

Bare words are put in quotes line by line, before the grammar reads anything.  A document that
the grammar reads as it is has no bare words, so quoting ought to leave it alone, and it does
(`quoteBareWords_of_scansAsRead`): a value that the grammar takes is a literal for the line
reader too (`Stands.isLiteralWord`), and the lines that continue a value are passed over.

The scan goes wrong in two places, and the document is then changed without a word:

* a string in three quotes inside an array or an inline table is not known to the scan, so the
  brackets in it are counted;
* a byte order mark is a character of the first line for the scan, so no key is found on it and
  the value that begins there does not continue on the next line.
-/
import TomlKeep.Document
import TomlKeep.Proofs.BlockPieces
import TomlKeep.Proofs.Datetimes

namespace TomlKeep

open Text Toml

/-! ## 1. Tokens neither begin nor end in a blank

The line reader trims a value before it asks whether it is a bare word; the grammar takes a token as
it stands.  So it has to be known that a token has no blank at its ends.  Numbers have no blanks at
all, and a date-time has at most one between its date and its time: each reader passes over
characters that are not blank, and together they pass over the token.
-/

/-- A text goes on to another one without a blank. -/
def Passes (text behind : List Char) : Prop :=
  ∃ front, text = front ++ behind ∧ ∀ c ∈ front, isBlank c = false

namespace Passes

variable {text more behind : List Char}

/-- Nothing has to be passed. -/
theorem refl (text : List Char) : Passes text text := ⟨[], rfl, by simp⟩

/-- One character is passed. -/
theorem cons {c : Char} (hc : isBlank c = false) (h : Passes text behind) :
    Passes (c :: text) behind := by
  obtain ⟨front, rfl, hf⟩ := h
  exact ⟨c :: front, rfl, by simpa using ⟨hc, hf⟩⟩

/-- What passes to a place passes on from there. -/
theorem trans (h : Passes text more) (h' : Passes more behind) : Passes text behind := by
  obtain ⟨front, rfl, hf⟩ := h
  obtain ⟨front', rfl, hf'⟩ := h'
  exact ⟨front ++ front', by simp, by simpa [or_imp, forall_and] using ⟨hf, hf'⟩⟩

/-- Some characters are passed at once if none of them is a blank. -/
theorem of_take (n : Nat) (h : ∀ c ∈ text.take n, isBlank c = false) : Passes text (text.drop n) :=
  ⟨text.take n, (List.take_append_drop n text).symm, h⟩

/-- A run of characters is passed if none of its kind is a blank. -/
theorem of_takeWhile {p : Char → Bool} (h : ∀ c, p c = true → isBlank c = false) :
    Passes text (text.dropWhile p) :=
  ⟨text.takeWhile p, List.takeWhile_append_dropWhile.symm, fun c hc => h c (forall_takeWhile hc)⟩

/-- A whole text that is passed has no blank. -/
theorem forall_mem (h : Passes text []) : ∀ c ∈ text, isBlank c = false := by
  obtain ⟨front, rfl, hf⟩ := h
  simpa using hf

end Passes

/-- A digit is no blank. -/
theorem isBlank_of_isDigit {c : Char} (h : c.isDigit = true) : isBlank c = false :=
  not_isBlank_of_isBareKeyChar (by simp [Toml.isBareKeyChar, Char.isAlphanum, h])

namespace Numeral

/-- Neither is a digit of another base. -/
theorem isBlank_of_isDigitOf {base : Nat} {c : Char} (h : isDigitOf base c = true) :
    isBlank c = false := by
  simp only [isDigitOf, Bool.and_eq_true, Bool.or_eq_true, decide_eq_true_eq] at h
  have halnum : c.isAlphanum = true := by
    rw [isAlphanum_iff]
    have h := h.1
    rw [isDigit_iff] at h
    have ha : 'a'.toNat = 97 ∧ 'f'.toNat = 102 ∧ 'A'.toNat = 65 ∧ 'F'.toNat = 70 := by decide
    simp only [Char.le_def, UInt32.le_iff_toNat_le] at h
    simp only [Char.toNat] at ha h ⊢
    omega
  exact not_isBlank_of_isBareKeyChar (by simp [Toml.isBareKeyChar, halnum])

/-- Digits behind the first, with underscores between them, are passed. -/
theorem passes_digitTail (base : Nat) (text : List Char) : Passes text (digitTail base text).2 := by
  fun_induction digitTail base text with
  | case1 c rest hc digits behind hd ih =>
    rw [hd] at ih
    exact .cons (by decide) (.cons (isBlank_of_isDigitOf hc) ih)
  | case3 c rest _ hc digits behind hd ih =>
    rw [hd] at ih
    exact .cons (isBlank_of_isDigitOf hc) ih
  | case2 | case4 | case5 => exact .refl _

/-- So is a run of digits. -/
theorem passes_digitRun? {base : Nat} {text digits behind : List Char}
    (h : digitRun? base text = some (digits, behind)) : Passes text behind := by
  unfold digitRun? at h
  split at h
  · next c rest =>
    split at h
    · next hc =>
      obtain ⟨-, rfl⟩ := Prod.mk.inj (Option.some.inj h)
      exact .cons (isBlank_of_isDigitOf hc) (passes_digitTail base rest)
    · cases h
  · cases h

/-- So is a whole part, which may be a single zero. -/
theorem passes_wholePart? {text digits behind : List Char}
    (h : wholePart? text = some (digits, behind)) : Passes text behind := by
  unfold wholePart? at h
  split at h
  · obtain ⟨-, rfl⟩ := Prod.mk.inj (Option.some.inj h)
    exact .cons (by decide) (.refl _)
  · exact passes_digitRun? h

/-- So is a fraction with its point. -/
theorem passes_fraction? {text digits behind : List Char}
    (h : fraction? text = some (digits, behind)) : Passes text behind := by
  unfold fraction? at h
  split at h
  · exact .cons (by decide) (passes_digitRun? h)
  · obtain ⟨-, rfl⟩ := Prod.mk.inj (Option.some.inj h)
    exact .refl _

/-- An exponent is passed to the end. -/
theorem passes_exponent? {text : List Char} {exponent : Int}
    (h : Numeral.exponent? text = some exponent) : Passes text [] := by
  unfold Numeral.exponent? at h
  split at h
  · exact .refl _
  · next c rest =>
    split at h
    · next hc =>
      have hblank : isBlank c = false := by rcases hc with rfl | rfl <;> decide
      refine .cons hblank ?_
      -- behind the sign stand digits up to the end
      have run (text : List Char) {digits : List Char}
          (hd : digitRun? 10 text = some (digits, [])) : Passes text [] := passes_digitRun? hd
      split at h
      · next negative unsigned hsign =>
        split at h
        · next digits hd =>
          split at hsign
          · obtain ⟨-, rfl⟩ := Prod.mk.inj hsign
            exact .cons (by decide) (run _ hd)
          · obtain ⟨-, rfl⟩ := Prod.mk.inj hsign
            exact .cons (by decide) (run _ hd)
          · obtain ⟨-, rfl⟩ := Prod.mk.inj hsign
            exact run _ hd
        · cases h
    · cases h

/-- A number without a sign is passed to the end: a name, or its parts one after the other. -/
theorem passes_unsigned? {negative : Bool} {text : List Char} {numeral : Numeral}
    (h : Numeral.unsigned? negative text = some numeral) : Passes text [] := by
  unfold Numeral.unsigned? at h
  split at h
  · next ht =>
    rw [ht]
    exact .cons (by decide) (.cons (by decide) (.cons (by decide) (.refl _)))
  · split at h
    · next ht =>
      rw [ht]
      exact .cons (by decide) (.cons (by decide) (.cons (by decide) (.refl _)))
    · split at h
      · cases h
      · next hw => exact passes_wholePart? hw
      · next hw =>
        split at h
        · cases h
        · next hf =>
          split at h
          · cases h
          · next he =>
            exact (passes_wholePart? hw).trans
              ((passes_fraction? hf).trans (passes_exponent? he))

/-- So are the digits of a number in another base. -/
theorem passes_based? {base : Nat} {text : List Char} {numeral : Numeral}
    (h : based? base text = some numeral) : Passes text [] := by
  unfold based? at h
  split at h
  · next hd => exact passes_digitRun? hd
  · cases h

/-- **A number has no blanks.** -/
theorem passes_read? {text : List Char} {numeral : Numeral}
    (h : Numeral.read? text = some numeral) :
    Passes text [] := by
  unfold Numeral.read? at h
  split at h
  · exact .cons (by decide) (.cons (by decide) (passes_based? h))
  · exact .cons (by decide) (.cons (by decide) (passes_based? h))
  · exact .cons (by decide) (.cons (by decide) (passes_based? h))
  · exact .cons (by decide) (passes_unsigned? h)
  · exact .cons (by decide) (passes_unsigned? h)
  · exact passes_unsigned? h

end Numeral

namespace Datetime

/-- The digits of a part of a date-time are passed. -/
theorem passes_takeNumber? {n m : Nat} {text behind : List Char}
    (h : takeNumber? n text = some (m, behind)) : Passes text behind := by
  obtain ⟨⟨-, hd⟩, he⟩ := Option.ite_none_right_eq_some.mp h
  obtain ⟨-, rfl⟩ := Prod.mk.inj (Option.some.inj he)
  exact .of_take n fun c hc => isBlank_of_isDigit (List.all_eq_true.mp hd c hc)

/-- So is a character that has to stand between them. -/
theorem passes_takeChar? {c : Char} (hc : isBlank c = false) {text behind : List Char}
    (h : takeChar? c text = some behind) : Passes text behind := by
  unfold takeChar? at h
  split at h
  · next d rest =>
    split at h
    · next hd =>
      obtain rfl := Option.some.inj h
      exact .cons (hd ▸ hc) (.refl _)
    · cases h
  · cases h

/-- A day is passed. -/
theorem passes_takeDay? {text behind : List Char} {day : Day}
    (h : takeDay? text = some (day, behind)) : Passes text behind := by
  simp only [takeDay?, Option.bind_eq_bind, Option.bind_eq_some_iff, Option.some.injEq,
    Prod.mk.injEq, Prod.exists] at h
  obtain ⟨_, _, hyear, _, hdash, _, _, hmonth, _, hdash', _, _, hday, -, rfl⟩ := h
  exact (passes_takeNumber? hyear).trans <| (passes_takeChar? (by decide) hdash).trans <|
    (passes_takeNumber? hmonth).trans <| (passes_takeChar? (by decide) hdash').trans <|
    passes_takeNumber? hday

/-- Seconds are passed with their fraction. -/
theorem passes_takeSeconds? {text fraction behind : List Char} {second : Nat}
    (h : takeSeconds? text = some (second, fraction, behind)) : Passes text behind := by
  unfold takeSeconds? at h
  split at h
  · simp only [Option.bind_eq_bind, Option.bind_eq_some_iff] at h
    obtain ⟨⟨n, rest⟩, hn, h⟩ := h
    refine .cons (by decide) ((passes_takeNumber? hn).trans ?_)
    dsimp only at h
    split at h
    · split at h
      · cases h
      · simp only [Option.some.injEq, Prod.mk.injEq] at h
        obtain ⟨-, -, rfl⟩ := h
        exact .cons (by decide) (.of_takeWhile fun c => isBlank_of_isDigit)
    · simp only [Option.some.injEq, Prod.mk.injEq] at h
      obtain ⟨-, -, rfl⟩ := h
      exact .refl _
  · simp only [Option.some.injEq, Prod.mk.injEq] at h
    obtain ⟨-, -, rfl⟩ := h
    exact .refl _

/-- A time is passed. -/
theorem passes_takeClock? {text behind : List Char} {clock : Clock}
    (h : takeClock? text = some (clock, behind)) : Passes text behind := by
  simp only [takeClock?, Option.bind_eq_bind, Option.bind_eq_some_iff, Option.some.injEq,
    Prod.mk.injEq, Prod.exists] at h
  obtain ⟨_, _, hhour, _, hcolon, _, _, hminute, _, _, _, hseconds, -, rfl⟩ := h
  exact (passes_takeNumber? hhour).trans <| (passes_takeChar? (by decide) hcolon).trans <|
    (passes_takeNumber? hminute).trans (passes_takeSeconds? hseconds)

/-- An offset is passed to the end. -/
theorem passes_readOffset? {text : List Char} {offset : Option Offset}
    (h : readOffset? text = some offset) : Passes text [] := by
  unfold readOffset? at h
  split at h
  · exact .refl _
  · exact .cons (by decide) (.refl _)
  · exact .cons (by decide) (.refl _)
  · next c text _ _ =>
    split at h
    · next hc =>
      simp only [Option.bind_eq_bind, Option.bind_eq_some_iff, Prod.exists] at h
      obtain ⟨_, _, hhours, _, hcolon, _, rest, hminutes, h⟩ := h
      obtain ⟨hend, -⟩ := Option.ite_none_right_eq_some.mp h
      obtain rfl := List.isEmpty_iff.mp hend
      have hblank : isBlank c = false := by rcases hc with rfl | rfl <;> decide
      exact .cons hblank <| (passes_takeNumber? hhours).trans <|
        (passes_takeChar? (by decide) hcolon).trans (passes_takeNumber? hminutes)
    · cases h

/-- There is no time without a character. -/
theorem takeClock?_nil : takeClock? [] = none := rfl

/-- **A date-time neither begins nor ends in a blank.**  Between its date and its time there may
be one, so the two are passed apart and only the ends of the text are told. -/
theorem ends_of_read? {text : List Char} {datetime : Datetime} (h : read? text = some datetime) :
    ∀ c, text.head? = some c ∨ text.getLast? = some c → isBlank c = false := by
  -- where nothing is blank the ends are not
  have whole (ht : Passes text []) : ∀ c, text.head? = some c ∨ text.getLast? = some c →
      isBlank c = false := fun c hc =>
    ht.forall_mem c (hc.elim List.mem_of_mem_head? List.mem_of_mem_getLast?)
  unfold read? at h
  split at h
  · next hday => exact whole (passes_takeDay? hday)
  · next day c behind hday =>
    obtain ⟨hsep, h⟩ := Option.ite_none_right_eq_some.mp h
    simp only [Option.bind_eq_bind, Option.bind_eq_some_iff, Prod.exists] at h
    obtain ⟨clock, rest, hclock, offset, hoffset, -⟩ := h
    obtain ⟨front, rfl, hfront⟩ := passes_takeDay? hday
    have hbehind := ((passes_takeClock? hclock).trans (passes_readOffset? hoffset)).forall_mem
    have hne : front ≠ [] := by
      rintro rfl
      -- a separator is no digit
      simp only [isSeparator, Bool.or_eq_true, beq_iff_eq] at hsep
      rcases hsep with (rfl | rfl) | rfl <;> simp [takeDay?, takeNumber?] at hday
    have hne' : behind ≠ [] := by
      rintro rfl
      rw [takeClock?_nil] at hclock
      cases hclock
    rintro d (hd | hd)
    · rw [List.head?_append_of_ne_nil _ hne] at hd
      exact hfront d (List.mem_of_mem_head? hd)
    · rw [List.getLast?_append_of_ne_nil _ (by simp)] at hd
      obtain ⟨e, es, rfl⟩ := List.exists_cons_of_ne_nil hne'
      rw [List.getLast?_cons_cons] at hd
      exact hbehind d (List.mem_of_mem_getLast? hd)
  · split at h
    · next hclock => exact whole (passes_takeClock? hclock)
    · cases h

end Datetime

/-! ## 2. Values that are no bare words

A bare word is what neither opens a string or a bracket nor is a truth value, a number or a
date-time.  The last three are asked of the same readers as in the grammar, so a token that the
grammar takes is none.
-/

/-- **A word that is spelled like a literal:** there is one, and it is no bare word. -/
def IsLiteralWord (value : List Char) : Prop := trim value ≠ [] ∧ isBareWord value = false

/-- What opens a string or a bracket does so without the blanks around it. -/
theorem isQuotedStart_trim {value : List Char}
    (h : startsIn Assignment.isQuotedStart value = true) :
    startsIn Assignment.isQuotedStart (trim value) = true := by
  cases value with
  | nil => cases h
  | cons c rest =>
    have hc : isBlank c = false := by
      simp only [startsIn, Assignment.isQuotedStart, Bool.or_eq_true, beq_iff_eq] at h
      rcases h with ((rfl | rfl) | rfl) | rfl <;> decide
    have hstart : trimStart (c :: rest) = c :: rest := by simp [trimStart, hc]
    have hkept : dropEnd isBlank (c :: rest) = c :: dropEnd isBlank rest :=
      dropEnd_append_cons hc rest []
    rw [trim, hstart, trimEnd, hkept]
    exact h

/-- A value that opens a string or a bracket is no bare word. -/
theorem isBareWord_of_isQuotedStart {value : List Char}
    (h : startsIn Assignment.isQuotedStart value = true) : isBareWord value = false := by
  simp [isBareWord, isQuotedStart_trim h]

/-- A value that opens a string or a bracket is spelled like a literal. -/
theorem isLiteralWord_of_isQuotedStart {value : List Char}
    (h : startsIn Assignment.isQuotedStart value = true) : IsLiteralWord value := by
  refine ⟨?_, isBareWord_of_isQuotedStart h⟩
  intro hnil
  have hstart := isQuotedStart_trim h
  rw [hnil] at hstart
  cases hstart

/-- **A token of the grammar has no blank at its ends.**  It is a truth value, a number or a
date-time. -/
theorem trim_of_tokenValue? {token : List Char} {value : Value}
    (h : Toml.tokenValue? token = some value) : trim token = token := by
  unfold Toml.tokenValue? at h
  split at h
  · next ht => rw [ht]; decide
  · split at h
    · next ht => rw [ht]; decide
    · split at h
      · next numeral hn =>
        exact trim_of_ends fun c hc => (Numeral.passes_read? hn).forall_mem c
          (hc.elim List.mem_of_mem_head? List.mem_of_mem_getLast?)
      · obtain ⟨canonical, hc, -⟩ := Option.map_eq_some_iff.mp h
        unfold Datetime.canonical? at hc
        split at hc
        · next datetime hd => exact trim_of_ends (Datetime.ends_of_read? hd)
        · cases hc

/-- **A token of the grammar is no bare word.** -/
theorem isBareWord_of_tokenValue? {token : List Char} {value : Value}
    (h : Toml.tokenValue? token = some value) : isBareWord token = false := by
  rw [isBareWord, trim_of_tokenValue? h]
  unfold Toml.tokenValue? at h
  split at h
  · next ht => rw [ht]; decide
  · split at h
    · next ht => rw [ht]; decide
    · split at h
      · next numeral hn => simp [hn]
      · obtain ⟨canonical, hc, -⟩ := Option.map_eq_some_iff.mp h
        unfold Datetime.canonical? at hc
        split at hc
        · next datetime hd => simp [hd]
        · cases hc

/-- A token is spelled like a literal. -/
theorem isLiteralWord_of_tokenValue? {token : List Char} {value : Value}
    (h : Toml.tokenValue? token = some value) : IsLiteralWord token := by
  refine ⟨?_, isBareWord_of_tokenValue? h⟩
  rw [trim_of_tokenValue? h]
  rintro rfl
  -- there is no literal without a character
  have hnone : Toml.tokenValue? [] = none := by decide
  rw [hnone] at h
  cases h

/-! ## 3. Blocks have no bare words

Only the first line of a block can be an assignment for the scan, and only entries have such a line.
What the line holds of the value is all of it, if it is a string or token on one line, and otherwise
begins with the quotes or the bracket that open it.
-/

/-- A one-line value that the grammar takes is the value of its assignment. -/
theorem OneLine.exists_assignment {lead value rest : List Char} {key : KeyPath} (h : OneLine value)
    (hl : LineLead lead key) (hr : LineRest rest) :
    ∃ line a, lines (lead ++ (value ++ rest)) = [line] ∧ classify line.content = .assignment a
      ∧ a.value = value := by
  obtain ⟨gap, comment, ending, hrest, ht, hn, hret, -⟩ := hr.exists_parts
  have hform := h.formed hl.isLead ht
  have hlines : lines (lead ++ (value ++ rest)) = [⟨lead ++ value ++ gap ++ comment, ending⟩] := by
    have hproper : (Line.mk (lead ++ value ++ gap ++ comment) ending).Proper := by
      refine ⟨?_, fun _ hlast => ?_, fun _ => by simp [h.ne_nil]⟩
      · have := h.feed
        have := hl.feed
        simp_all
      · rw [List.append_assoc, List.getLast?_append] at hlast
        -- the line ends with its comment or gap, or with the value
        cases htail : (gap ++ comment).getLast? with
        | some c =>
          rw [htail] at hlast
          obtain rfl : c = '\r' := by simpa using hlast
          exact hret (List.mem_of_mem_getLast? htail)
        | none =>
          rw [htail, Option.none_or, List.getLast?_append_of_ne_nil _ h.ne_nil] at hlast
          exact h.ret hlast
    rw [← lines_line hproper, hrest]
    simp
  exact ⟨_, ⟨key, lead, value, gap, comment⟩, hlines, classify_eq_assignment_iff.mpr ⟨hform, rfl⟩,
    rfl⟩

/-- **The value of an entry that the grammar takes is a literal for the line reader,** as far as
it stands on the line of its key.  The line reader cuts a value at the end of its line, so of a
value over several lines it sees the beginning; that shows a quote or a bracket, and so no bare
word. -/
theorem Stands.isLiteralWord {lead value rest : List Char} {key : KeyPath} {term : Term}
    (hv : Stands value rest term) (hl : LineLead lead key) (hr : LineRest rest)
    {line : Line} {ls : List Line} {a : Assignment}
    (hlines : lines (lead ++ (value ++ rest)) = line :: ls)
    (hk : classify line.content = .assignment a) : IsLiteralWord a.value := by
  have hh := hv.head_append rest
  obtain ⟨c, more, hcons⟩ := List.exists_cons_of_ne_nil hv.ne_nil
  -- a value that opens a string or a bracket does so on its first line
  have quoted (hq : startsIn Assignment.isQuotedStart value = true) : IsLiteralWord a.value := by
    obtain ⟨line', b, hlines', hk', -, -, hbody⟩ := hl.exists_line hh
    obtain ⟨rfl, -⟩ := List.cons.inj (hlines.symm.trans hlines')
    obtain rfl := LineKind.assignment.inj (hk.symm.trans hk')
    obtain ⟨hform, -⟩ := classify_eq_assignment_iff.mp hk
    refine isLiteralWord_of_isQuotedStart ?_
    rw [← hform.startsIn_body rfl, hbody, hcons]
    rw [hcons] at hq
    have hstay : '\n' ∉ [c] ∧ [c].getLast? ≠ some '\r' := by
      simp only [startsIn, Assignment.isQuotedStart, Bool.or_eq_true, beq_iff_eq] at hq
      rcases hq with ((rfl | rfl) | rfl) | rfl <;> decide
    have hfirst := (lines_piece hstay.1 hstay.2 (more ++ rest)).1
    rw [List.singleton_append] at hfirst
    rw [List.cons_append, hfirst]
    exact hq
  -- brackets, three quotes, one quote, or a token that is all on the line
  rcases hv.cases with hb | ⟨hs, -⟩ | ⟨hone, hq | ⟨v, htoken, -⟩⟩
  · refine quoted ?_
    rw [hcons] at hb ⊢
    simp only [isBracketed, startsIn, Bool.or_eq_true, beq_iff_eq] at hb
    rcases hb with rfl | rfl <;> rfl
  · refine quoted ?_
    obtain ⟨quote, hquote⟩ := Option.isSome_iff_exists.mp hs
    obtain ⟨inner, hinner⟩ := exists_triple hquote
    rw [hcons] at hinner ⊢
    obtain ⟨rfl, -⟩ := List.cons.inj hinner
    rcases tripleQuote?_cases hquote with rfl | rfl <;> rfl
  · exact quoted hq
  · obtain ⟨line', b, hlines', hk', hvalue⟩ := hone.exists_assignment hl hr
    obtain ⟨rfl, -⟩ := List.cons.inj (hlines.symm.trans hlines')
    obtain rfl := LineKind.assignment.inj (hk.symm.trans hk')
    rw [hvalue]
    exact isLiteralWord_of_tokenValue? htoken

/-- Whether the first line of a text assigns no bare word. -/
def HasNoBareWord (text : List Char) : Prop :=
  ∀ line ls a, lines text = line :: ls → classify line.content = .assignment a →
    isBareWord a.value = false

/-- Lines that continue a value are kept as they are. -/
theorem flatMap_quoteLine_continued : ∀ (offset : Nat) (ls : List Line),
    (continued offset ls).flatMap quoteLine = ls.flatMap Line.chars
  | _, [] => rfl
  | offset, line :: ls => by
    rw [continued, List.flatMap_cons, List.flatMap_cons, flatMap_quoteLine_continued]
    rfl

/-- **Quoting leaves lines that belong together alone** if the first of them assigns no bare
word. -/
theorem HasNoBareWord.quoteLine {text : List Char} (h : HasNoBareWord text) (offset : Nat) :
    (together offset (lines text)).flatMap quoteLine = text := by
  have hflat := flatten_lines text
  cases hl : lines text with
  | nil =>
    rw [hl] at hflat
    exact hflat
  | cons line ls =>
    rw [hl, List.flatMap_cons] at hflat
    rw [together, List.flatMap_cons, flatMap_quoteLine_continued]
    refine Eq.trans ?_ hflat
    congr 1
    cases hk : classify line.content with
    | header _ | other => rfl
    | assignment a =>
      simp only [TomlKeep.quoteLine, h line ls a hl hk, Bool.false_eq_true, if_false]
      rfl

/-- What of its first line the rest of a line is: a gap and a comment. -/
theorem LineRest.exists_content {rest : List Char} (h : LineRest rest) :
    ∃ gap comment, IsTail gap comment ∧ TomlKeep.firstContent rest = gap ++ comment := by
  obtain ⟨gap, comment, ending, rfl, ht, hn, hret, -⟩ := h.exists_parts
  have hend : TomlKeep.firstContent ending.chars = [] := by cases ending <;> rfl
  have hfirst := (lines_piece hn (fun hl => hret (List.mem_of_mem_getLast? hl)) ending.chars).1
  rw [hend, List.append_nil] at hfirst
  exact ⟨gap, comment, ht, hfirst⟩

/-- **What the first line of a block assigns is a literal.** -/
theorem Block.Formed.isLiteralWord {b : Block} (h : b.Formed) {line : Line} {ls : List Line}
    {a : Assignment} (hl : lines b.text = line :: ls) (hk : classify line.content = .assignment a) :
    IsLiteralWord a.value := by
  have hcontent : line.content = firstContent b.text := by rw [firstContent, hl]
  cases h with
  | blank hr =>
    obtain ⟨gap, comment, ht, hrest⟩ := hr.exists_content
    rw [hcontent, Block.text, List.nil_append, List.nil_append, hrest, classify_tail ht] at hk
    cases hk
  | header hheader hr _ =>
    obtain ⟨gap, comment, ht, hrest⟩ := hr.exists_content
    rw [hcontent, Block.text, List.nil_append, (lines_piece hheader.feed hheader.ret _).1, hrest,
      hheader.classify gap comment ht] at hk
    cases hk
  | entry hlead hr hv => exact hv.isLiteralWord hlead.toLineLead hr hl hk

/-- A block assigns no bare word. -/
theorem Block.Formed.hasNoBareWord {b : Block} (h : b.Formed) : HasNoBareWord b.text :=
  fun _ _ _ hl hk => (h.isLiteralWord hl hk).2

/-- The pieces of a document assign no bare words. -/
theorem IsDocument.hasNoBareWord : ∀ {bs : List Block} {ps : List Piece}, IsDocument bs →
    List.Forall₂ Block.IsPiece bs ps → ∀ p ∈ ps, HasNoBareWord p.text
  | [], _, _, .nil => by simp
  | _ :: _, _, hdoc, .cons hp hps =>
    List.forall_mem_cons.mpr ⟨hp.text ▸ hdoc.1.hasNoBareWord, hdoc.2.2.2.hasNoBareWord hps⟩

/-! ## 4. A byte order mark

The reader drops a byte order mark at the beginning and the scan does not.  In front of a header or
a comment the mark does no harm, since such a line is passed over anyway.  In front of an entry it
becomes a part of the key or spoils it; if it spoils the key, the line is passed over too, which is
harmless again unless the value goes on behind the line.
-/

/-- The byte order mark. -/
def byteOrderMark : Char := '\uFEFF'

/-- Whether the line is an assignment. -/
def isAssignment (content : List Char) : Bool :=
  match classify content with
  | .assignment _ => true
  | _ => false

/-- A line that is no assignment is not classified as one. -/
theorem isAssignment_eq_false {content : List Char} (h : isAssignment content = false)
    (a : Assignment) : classify content ≠ .assignment a := by
  intro hk
  simp [isAssignment, hk] at h

/-- A line with a mark is an assignment exactly if an assignment can be read off it. -/
theorem classify_mark (content : List Char) : classify (byteOrderMark :: content)
    = match Assignment.ofLine? (byteOrderMark :: content) with
      | some a => .assignment a
      | none => .other := by
  have htrim : trimStart (byteOrderMark :: content) = byteOrderMark :: content := rfl
  have hne : byteOrderMark ≠ '#' ∧ byteOrderMark ≠ '[' := by decide
  cases h : Assignment.ofLine? (byteOrderMark :: content) with
  | some a => simp [classify, htrim, startsIn, hne.1, hne.2, h]
  | none => simp [classify, htrim, startsIn, hne.1, hne.2, h]

/-- The mark is an ordinary character outside quotes. -/
theorem outside_mark {text : List Char} (h : Outside (fun c => !isKeyEnd c) text) :
    Outside (fun c => !isKeyEnd c) (byteOrderMark :: text) :=
  .char (by decide) (by decide) (by decide) h

/-- Without an equals sign outside quotes a line with a mark is no assignment. -/
theorem isAssignment_mark {front comment : List Char} (hf : Outside (fun c => !isKeyEnd c) front)
    (hc : ∀ c, comment.head? = some c → c = '#') :
    isAssignment (byteOrderMark :: (front ++ comment)) = false := by
  have hstop (c : Char) (rest : List Char) (hc : (!isKeyEnd c) = true) :
      startsIn isKeyEnd (c :: rest) = false := by
    simpa [startsIn] using hc
  -- the search for an equals sign ends at the comment or at the end
  have hsplit := splitOutside?_outside (outside_mark hf) hstop comment
  have hnone : Assignment.ofLine? (byteOrderMark :: (front ++ comment)) = none := by
    unfold isKeyEnd at hsplit
    rw [List.cons_append] at hsplit
    rw [Assignment.ofLine?, hsplit]
    cases comment with
    | nil => rfl
    | cons c comment =>
      obtain rfl := hc c rfl
      rfl
  rw [isAssignment, classify_mark, hnone]

/-- **A mark in front of a lead** is part of the key, or no key is found on the line.  In the
first case the line is an assignment of another key with the same value, in the second it is none
whatever the value is. -/
theorem LineLead.mark {lead : List Char} {key : KeyPath} (h : LineLead lead key) :
    (∃ other, LineLead (byteOrderMark :: lead) other)
      ∨ ∀ body, isAssignment (byteOrderMark :: (lead ++ body)) = false := by
  obtain ⟨left, gap, hlead, hgap, hsplit, -, -⟩ := h.isLead
  have hsplit' (rest : List Char) :
      splitOutside? (startsIn isKeyEnd) .outside (byteOrderMark :: left ++ '=' :: rest)
        = some (byteOrderMark :: left, '=' :: rest) := by
    have hstart : startsIn isKeyEnd (byteOrderMark :: (left ++ '=' :: rest)) = false := by
      rw [startsIn]
      decide
    rw [List.cons_append, splitOutside?, if_neg (by decide), if_neg (by decide), hstart,
      if_neg Bool.false_ne_true, hsplit]
    rfl
  -- the key with the mark can be parsed, or it cannot
  cases hkey : KeyPath.parse (trim (byteOrderMark :: left)) with
  | ok other =>
    refine .inl ⟨other, ⟨byteOrderMark :: left, gap, by rw [hlead]; rfl, hgap, hsplit', hkey,
      byteOrderMark, left, rfl, by decide, by decide⟩, ?_, ?_⟩
    · simpa [byteOrderMark] using h.feed
    · rw [hlead, ← List.cons_append, List.getLast?_append_of_ne_nil _ (by simp)]
      have hret := h.ret
      rwa [hlead, List.getLast?_append_of_ne_nil _ (by simp)] at hret
  | error e =>
    refine .inr fun body => ?_
    have hnone : Assignment.ofLine? (byteOrderMark :: (lead ++ body)) = none := by
      have hs := hsplit' (gap ++ body)
      unfold isKeyEnd at hs
      have htext : byteOrderMark :: (lead ++ body)
          = byteOrderMark :: left ++ '=' :: (gap ++ body) := by
        simp [hlead]
      rw [Assignment.ofLine?, htext, hs]
      simp only [hkey]
    rw [isAssignment, classify_mark, hnone]

/-- Whether a mark in front of a block is harmless: the block has one line, or its key is found. -/
def Block.isMarkable (b : Block) : Bool :=
  (laterLines b.text).isEmpty || isAssignment (byteOrderMark :: firstContent b.text)

/-- A line that is no assignment is a piece with the mark in front of it. -/
theorem exists_marked_other (text : List Char) (hl : laterLines text = [])
    (hk : isAssignment (byteOrderMark :: firstContent text) = false) :
    HasNoBareWord (byteOrderMark :: text)
      ∧ ∀ behind, (Piece.fixed (byteOrderMark :: text)).Reads behind := by
  have hstay : '\n' ∉ [byteOrderMark] ∧ [byteOrderMark].getLast? ≠ some '\r' := by decide
  obtain ⟨hfirst, hlater⟩ := lines_piece hstay.1 hstay.2 text
  rw [List.singleton_append] at hfirst hlater
  have hp := properLines_lines (byteOrderMark :: text)
  have hflat := flatten_lines (byteOrderMark :: text)
  cases hlines : lines (byteOrderMark :: text) with
  | nil =>
    rw [hlines] at hflat
    cases hflat
  | cons line ls =>
    have hcontent : line.content = byteOrderMark :: firstContent text := by
      rw [← List.singleton_append, ← hfirst, firstContent, hlines]
    -- the text is one line, also with the mark in front of it
    obtain rfl : ls = [] := by
      rw [← hl, ← hlater, laterLines, hlines, List.tail_cons]
    rw [hlines] at hp hflat
    have hno (a : Assignment) : classify line.content ≠ .assignment a := by
      rw [hcontent]
      exact isAssignment_eq_false hk a
    have htext : line.chars = byteOrderMark :: text := by simpa using hflat
    refine ⟨fun line' ls' a hl' ha => ?_, fun behind => ?_⟩
    · obtain ⟨rfl, -⟩ := List.cons.inj (hlines.symm.trans hl')
      exact absurd ha (hno a)
    · rw [← htext]
      exact reads_other hp.1 hno behind

/-- **A block is a piece with the mark in front of it** if the mark is harmless.  The piece is of
the same kind as without the mark if its key is found, and a fixed line if not. -/
theorem Block.Formed.exists_marked {b : Block} (h : b.Formed) (hc : b.Counted)
    (hm : b.isMarkable = true) :
    ∃ p : Piece, p.text = byteOrderMark :: b.text ∧ HasNoBareWord p.text
      ∧ (b.rest.getLast? = some '\n' → p.Followed)
      ∧ ∀ behind, MayFollow b.rest behind → p.Reads behind := by
  have followed (hlast : b.rest.getLast? = some '\n') :
      (Piece.fixed (byteOrderMark :: b.text)).Followed := by
    rw [Piece.Followed, Block.text, ← List.append_assoc, ← List.cons_append, List.getLast?_append,
      hlast]
    rfl
  -- where no key is found the block has one line
  have other (hk : isAssignment (byteOrderMark :: firstContent b.text) = false) :
      ∃ p : Piece, p.text = byteOrderMark :: b.text ∧ HasNoBareWord p.text
        ∧ (b.rest.getLast? = some '\n' → p.Followed)
        ∧ ∀ behind, MayFollow b.rest behind → p.Reads behind := by
    rw [Block.isMarkable, hk, Bool.or_false, List.isEmpty_iff] at hm
    obtain ⟨hword, hread⟩ := exists_marked_other b.text hm hk
    exact ⟨.fixed (byteOrderMark :: b.text), rfl, hword, followed, fun behind _ => hread behind⟩
  cases h with
  | @blank rest hr =>
    obtain ⟨gap, comment, ht, hrest⟩ := hr.exists_content
    refine other ?_
    simp only [Block.text, List.nil_append]
    rw [hrest]
    exact isAssignment_mark (IsGapText.outside ht.gap (by decide) (by decide)) ht.comment
  | @header lead rest path heading hl hr _ =>
    obtain ⟨gap, comment, ht, hrest⟩ := hr.exists_content
    refine other ?_
    simp only [Block.text, List.nil_append]
    rw [(lines_piece hl.feed hl.ret _).1, hrest, ← List.append_assoc]
    exact isAssignment_mark (hl.noKeyEnd.append (IsGapText.outside ht.gap (by decide) (by decide)))
      ht.comment
  | @entry lead value rest path term key hl hr hv =>
    rcases hl.toLineLead.mark with ⟨key', hl'⟩ | hno
    · have hh := hv.head_append rest
      have hword {text : List Char} (ht : text = byteOrderMark :: lead ++ (value ++ rest)) :
          HasNoBareWord text := fun line ls a hlines hk =>
        (hv.isLiteralWord hl' hr (ht ▸ hlines) hk).2
      by_cases hb : isBracketed value = true
      · obtain ⟨e, -, -, htext, hlast, hread⟩ := exists_piece_brackets hl' hr hv (hc hb) hb
        exact ⟨.entry e, htext, hword htext, hlast, hread⟩
      · have htext : (Entry.mk key' (byteOrderMark :: lead) value rest).text
            = byteOrderMark :: lead ++ (value ++ rest) := by simp [Entry.text]
        refine ⟨.entry ⟨key', byteOrderMark :: lead, value, rest⟩, htext, hword htext, id,
          fun behind hbehind => ?_⟩
        rcases hv.cases with hbracket | ⟨-, hs⟩ | ⟨hline, -⟩
        · exact absurd hbracket hb
        · exact reads_string hl' hr hh hs hbehind
        · have hfits : (Entry.mk key' (byteOrderMark :: lead) value rest).Fits := hl'.fits hr
          exact hfits.reads hline behind
    · refine other ?_
      rw [Block.text, (lines_piece hl.feed hl.ret _).1]
      exact hno _

/-! ## 5. Documents have no bare words

What has been shown of blocks is put together for documents.  Both slips of the scan are in one
condition on the text that can be computed (`scansAsRead`); where it holds, the grammar and the scan
see the same pieces, and the later modules on patching start from there.
-/

/-- A text without the byte order mark at its beginning. -/
def withoutMark (text : List Char) : List Char :=
  if startsIn (· == byteOrderMark) text then text.drop 1 else text

/-- Whether the scan reads a document as the grammar does: it counts the brackets of every value
as the grammar does, and it finds the first key in spite of a byte order mark. -/
def scansAsRead (text : List Char) : Bool :=
  (blocks? (withoutMark text)).all fun bs =>
    bs.all (fun b => decide b.Counted)
      && (!startsIn (· == byteOrderMark) text || bs.head?.all Block.isMarkable)

/-- The blocks of a document. -/
theorem exists_document {text : List Char} {tree : Value} (h : readStrict text = .ok tree) :
    ∃ bs, blocks? (withoutMark text) = some bs ∧ IsDocument bs
      ∧ blocksText bs = withoutMark text := by
  unfold readStrict Toml.read? at h
  have hstatements : readStatements? text
      = readLines? ((withoutMark text).length + 1) (withoutMark text) := rfl
  cases hr : readLines? ((withoutMark text).length + 1) (withoutMark text) with
  | none => simp [hstatements, hr] at h
  | some statements => exact exists_blocks hr (Nat.lt_succ_self _)

/-- **What the grammar and the scan see of a document.**  Its blocks are its pieces, but for the
first one behind a byte order mark, of which the scan may see something else. -/
inductive BothSee : (marked : Bool) → List Block → List Piece → Prop where
  | plain {bs : List Block} {ps : List Piece} : List.Forall₂ Block.IsPiece bs ps →
      BothSee false bs ps
  | mark : BothSee true [] [.fixed [byteOrderMark]]
  | marked {b : Block} {p : Piece} {bs : List Block} {ps : List Piece} :
      p.text = byteOrderMark :: b.text → List.Forall₂ Block.IsPiece bs ps →
      BothSee true (b :: bs) (p :: ps)

/-- The text of the pieces is that of the blocks, with the mark in front. -/
theorem BothSee.textOf {marked : Bool} {bs : List Block} {ps : List Piece}
    (h : BothSee marked bs ps) :
    TomlKeep.textOf ps = if marked then byteOrderMark :: blocksText bs else blocksText bs := by
  cases h with
  | plain hps => exact textOf_of_isPiece hps
  | mark => rfl
  | marked hp hps =>
    rw [textOf_cons, hp, textOf_of_isPiece hps]
    rfl

/-- A text is its mark, if it has one, and the rest. -/
theorem eq_withoutMark (text : List Char) :
    text = if startsIn (· == byteOrderMark) text then byteOrderMark :: withoutMark text
      else withoutMark text := by
  cases hm : startsIn (· == byteOrderMark) text with
  | true =>
    rw [withoutMark, if_pos hm]
    exact eq_cons_of_startsIn hm
  | false =>
    rw [withoutMark, hm]
    rfl

/-- **The pieces of a document** if the scan reads it as the grammar does; they have no bare
words.  Every block is a piece on its own (`Block.Formed.exists_piece`), and the document falls
into these pieces because each line that another one follows has its line end.  Only the first
block may stand behind a mark, so it is the only one that has to be harmless. -/
theorem exists_bothSee {text : List Char} {tree : Value} (h : readStrict text = .ok tree)
    (hs : scansAsRead text = true) : ∃ bs ps, blocks? (withoutMark text) = some bs ∧ IsDocument bs
      ∧ BothSee (startsIn (· == byteOrderMark) text) bs ps ∧ TomlKeep.textOf ps = text
      ∧ Segmented ps
      ∧ ∀ p ∈ ps, HasNoBareWord p.text := by
  obtain ⟨bs, hbs, hdoc, htext⟩ := exists_document h
  simp only [scansAsRead, hbs, Option.all_some, Bool.and_eq_true, List.all_eq_true,
    decide_eq_true_eq] at hs
  obtain ⟨hcounted, hmark⟩ := hs
  have hall := eq_withoutMark text
  rw [← htext] at hall
  -- it is enough to know the pieces
  have of_pieces {ps : List Piece} (hp : BothSee (startsIn (· == byteOrderMark) text) bs ps)
      (hseg : Segmented ps) (hw : ∀ p ∈ ps, HasNoBareWord p.text) :
      ∃ bs ps, blocks? (withoutMark text) = some bs ∧ IsDocument bs
        ∧ BothSee (startsIn (· == byteOrderMark) text) bs ps ∧ TomlKeep.textOf ps = text
        ∧ Segmented ps ∧ ∀ p ∈ ps, HasNoBareWord p.text :=
    ⟨bs, ps, hbs, hdoc, hp, hp.textOf.trans hall.symm, hseg, hw⟩
  cases hm : startsIn (· == byteOrderMark) text with
  | true =>
    rw [hm] at of_pieces
    -- a mark alone is a line of its own; otherwise it stands in front of the first block
    cases bs with
    | nil =>
      obtain ⟨hword, hread⟩ := exists_marked_other [] rfl (by decide)
      exact of_pieces .mark ⟨fun behind _ => hread behind, .inl rfl, trivial⟩
        (by simpa [Piece.text] using hword)
    | cons b bs =>
      obtain ⟨hform, -, hfollow, hrest⟩ := id hdoc
      obtain ⟨hb, hbs⟩ := List.forall_mem_cons.mp hcounted
      have hmarkable : b.isMarkable = true := by simpa [hm] using hmark
      obtain ⟨p, hp, hword, hlast, hread⟩ := hform.exists_marked hb hmarkable
      obtain ⟨ps, hps, hseg⟩ := hrest.exists_segmented hbs
      exact of_pieces (.marked hp hps) (hseg.consBlock hps hrest hfollow hlast hread)
        (List.forall_mem_cons.mpr ⟨hword, hrest.hasNoBareWord hps⟩)
  | false =>
    rw [hm] at of_pieces
    obtain ⟨ps, hps, hseg⟩ := hdoc.exists_segmented hcounted
    exact of_pieces (.plain hps) hseg (hdoc.hasNoBareWord hps)

/-- Quoting leaves pieces without bare words alone, one after the other. -/
theorem flatMap_quoteLine_reportAll {ps : List Piece} (h : ∀ p ∈ ps, HasNoBareWord p.text)
    (offset : Nat) : (reportAll offset ps).flatMap quoteLine = textOf ps := by
  induction ps generalizing offset with
  | nil => rfl
  | cons p ps ih =>
    obtain ⟨hp, hps⟩ := List.forall_mem_cons.mp h
    rw [reportAll, List.flatMap_append, hp.quoteLine, ih hps, textOf_cons]

/-- **Quoting leaves a document alone** if the scan reads it as the grammar does.  The scan of
the text is the report of its pieces, and none of them assigns a bare word. -/
theorem quoteBareWords_of_scansAsRead {text : List Char} {tree : Value}
    (h : readStrict text = .ok tree) (hs : scansAsRead text = true) :
    quoteBareWords text = text := by
  obtain ⟨bs, ps, -, -, -, rfl, hseg, hwords⟩ := exists_bothSee h hs
  rw [quoteBareWords, scan_textOf hseg, flatMap_quoteLine_reportAll hwords]

/-- **Relaxed reading does not interfere with documents:** what is read strictly is read relaxed,
as the same tree, if the scan reads the document as the grammar does. -/
theorem readRelaxed_of_readStrict {text : List Char} {tree : Value} (h : readStrict text = .ok tree)
    (hs : scansAsRead text = true) : readRelaxed text = .ok tree := by
  rw [readRelaxed, quoteBareWords_of_scansAsRead h hs, h]

/-- An array over two lines with brackets in a comment and in a string, and a multi-line string
with what looks like a bare word. -/
theorem readRelaxed_of_readStrict_lines :
    let text :=
      ['k', '=', '[', '1', ',', ' ', '#', ']', '\n', ' ', '{', 'x', '=', '"', ']', '"', '}', ']',
       '\n', 's', '=', '"', '"', '"', '\n', 'b', '=', 'c', '"', '"', '"', '\n']
    let tree := Value.table [("k", .array [.integer 1, .table [("x", .string "]")]]),
      ("s", .string "b=c")]
    readStrict text = .ok tree ∧ scansAsRead text = true ∧ readRelaxed text = .ok tree := by
  intro text tree
  have hread : readStrict text = .ok tree := by rfl
  have hscan : scansAsRead text = true := by decide +kernel
  exact ⟨hread, hscan, readRelaxed_of_readStrict hread hscan⟩

/-- The bracket in a string of an array is counted, and a line of that string is taken for an
assignment of a bare word: what is read is another tree. -/
theorem readRelaxed_bracket_in_string :
    let text :=
      ['a', '=', '[', '"', '"', '"', '\n', ']', '\n', 'b', '=', 'c', '\n', '"', '"', '"', ']',
       '\n']
    readStrict text = .ok (.table [("a", .array [.string "]\nb=c\n"])])
      ∧ readRelaxed text = .ok (.table [("a", .array [.string "]\nb=\"c\"\n"])]) := by
  exact ⟨by rfl, by rfl⟩

end TomlKeep
