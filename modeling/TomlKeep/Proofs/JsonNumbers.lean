/-
# Numbers of JSON

A number of JSON is taken off a text by its shape alone: a whole part, digits behind a point and
an exponent.  So a number that is well spelled is taken as it is, whatever stands behind it, as
long as that does not go on with the number (`takeSpelling?_text`).  What is written for an
integer and for a finite float is well spelled (`exists_spelling_integer`,
`exists_spelling_finite`).
-/
import TomlKeep.Proofs.FloatText
import TomlKeep.Proofs.Shape
import TomlKeep.Json.Read
import TomlKeep.Json.Write

namespace TomlKeep.Json

open Numeral

/-! ## 1. The shape of a number

A number is written from its parts, and each reader of a part is shown to take that part off the
text and leave what follows.  For this it has to know what follows: the digits of one part are not
to run on in the next.
-/

/-- What may stand behind a number: it goes on with none of the characters of one. -/
def EndsNumber (rest : List Char) : Prop :=
  ∀ c, rest.head? = some c → c.isDigit = false ∧ c ≠ '.' ∧ c ≠ 'e' ∧ c ≠ 'E'

/-- The end of the text ends a number. -/
theorem endsNumber_nil : EndsNumber [] := fun _ h => by cases h

/-- It is the first character that decides. -/
theorem endsNumber_cons {c : Char} {rest : List Char} :
    EndsNumber (c :: rest) ↔ c.isDigit = false ∧ c ≠ '.' ∧ c ≠ 'e' ∧ c ≠ 'E' := by
  simp [EndsNumber]

namespace Spelling

/-- The text of an exponent; one that is not negative has a plus sign. -/
def exponentText : Option (Bool × List Char) → List Char
  | none => []
  | some (negative, digits) => 'e' :: (if negative then '-' else '+') :: digits

/-- The text of a fraction. -/
def fractionText : Option (List Char) → List Char
  | none => []
  | some digits => '.' :: digits

/-- The text of a number. -/
def text (s : Spelling) : List Char :=
  (if s.negative then ['-'] else [])
    ++ (s.whole ++ (fractionText s.fraction ++ exponentText s.exponent))

/-- **A number that is well spelled:** no zero stands in front of other digits of the whole part,
and no part is empty. -/
structure Proper (s : Spelling) : Prop where
  whole : IsWhole s.whole
  fraction : ∀ digits, s.fraction = some digits → IsDigits digits ∧ digits ≠ []
  exponent : ∀ negative digits, s.exponent = some (negative, digits) → IsDigits digits ∧ digits ≠ []

/-- A number begins with its sign or with a digit. -/
theorem Proper.exists_text_cons {s : Spelling} (h : s.Proper) :
    ∃ c rest, s.text = c :: rest ∧ (c = '-' ∨ c.isDigit = true) := by
  obtain ⟨c, more, hcons⟩ := List.exists_cons_of_ne_nil h.whole.ne_nil
  let tail := fractionText s.fraction ++ exponentText s.exponent
  -- the sign, or the first digit of the whole part
  cases hn : s.negative with
  | true => exact ⟨'-', s.whole ++ tail, by simp [text, hn, tail], .inl rfl⟩
  | false =>
    exact ⟨c, more ++ tail, by simp [text, hn, hcons, tail],
      .inr (h.whole.isDigits c (by simp [hcons]))⟩

end Spelling

/-- Digits are taken as far as they go. -/
theorem takeDigits?_append {digits rest : List Char} (hd : IsDigits digits) (hne : digits ≠ [])
    (hr : ∀ c, rest.head? = some c → c.isDigit = false) :
    takeDigits? (digits ++ rest) = some (digits, rest) := by
  obtain ⟨htake, hdrop⟩ := takeWhile_append_stop hd hr
  simp [takeDigits?, htake, hdrop, hne]

/-- An exponent is taken with its sign and all its digits; where none was written none is taken. -/
theorem takeExponent?_text {exponent : Option (Bool × List Char)} {rest : List Char}
    (h : ∀ negative digits, exponent = some (negative, digits) → IsDigits digits ∧ digits ≠ [])
    (hr : EndsNumber rest) :
    takeExponent? (Spelling.exponentText exponent ++ rest) = some (exponent, rest) := by
  cases exponent with
  | none =>
    cases rest with
    | nil => rfl
    | cons c rest =>
      obtain ⟨-, -, he, hE⟩ := endsNumber_cons.mp hr
      simp [Spelling.exponentText, takeExponent?, he, hE]
  | some e =>
    obtain ⟨negative, digits⟩ := e
    obtain ⟨hd, hne⟩ := h negative digits rfl
    have htake := takeDigits?_append hd hne fun c hc => (hr c hc).1
    cases negative <;> simp [Spelling.exponentText, takeExponent?, htake]

/-- An exponent, and what follows a number, go on with no digit and no point. -/
theorem endsNumber_exponentText (exponent : Option (Bool × List Char)) {rest : List Char}
    (hr : EndsNumber rest) : ∀ c, (Spelling.exponentText exponent ++ rest).head? = some c →
      c.isDigit = false ∧ c ≠ '.' := by
  cases exponent with
  | none => exact fun c hc => ⟨(hr c hc).1, (hr c hc).2.1⟩
  | some e =>
    intro c hc
    obtain rfl : 'e' = c := by simpa [Spelling.exponentText] using hc
    decide

/-- A fraction is taken with all its digits, and none where none was written. -/
theorem takeFraction?_text {fraction : Option (List Char)} {rest : List Char}
    (h : ∀ digits, fraction = some digits → IsDigits digits ∧ digits ≠ [])
    (hr : ∀ c, rest.head? = some c → c.isDigit = false ∧ c ≠ '.') :
    takeFraction? (Spelling.fractionText fraction ++ rest) = some (fraction, rest) := by
  cases fraction with
  | none =>
    rw [Spelling.fractionText, List.nil_append, takeFraction?]
    rintro text rfl
    exact (hr '.' rfl).2 rfl
  | some digits =>
    obtain ⟨hd, hne⟩ := h digits rfl
    have htake := takeDigits?_append hd hne fun c hc => (hr c hc).1
    simp [Spelling.fractionText, takeFraction?, htake]

/-- What stands behind the whole part goes on with no digit. -/
theorem endsNumber_fractionText (fraction : Option (List Char))
    (exponent : Option (Bool × List Char)) {rest : List Char} (hr : EndsNumber rest) :
    ∀ c, (Spelling.fractionText fraction ++ (Spelling.exponentText exponent ++ rest)).head?
      = some c →
      c.isDigit = false := by
  cases fraction with
  | none => exact fun c hc => (endsNumber_exponentText exponent hr c hc).1
  | some digits =>
    intro c hc
    obtain rfl : '.' = c := by simpa [Spelling.fractionText] using hc
    rfl

/-- Takes what stands behind the sign of a number. -/
def takeUnsigned? (negative : Bool) (text : List Char) : Option (Spelling × List Char) :=
  (takeDigits? text).bind fun (whole, text) =>
    if 1 < whole.length ∧ whole.head? = some '0' then none
    else (takeFraction? text).bind fun (fraction, text) =>
      (takeExponent? text).map fun (exponent, text) => (⟨negative, whole, fraction, exponent⟩, text)

/-- What `takeSpelling?` does behind the sign, with its binds written out. -/
theorem takeUnsigned?_eq (negative : Bool) (text : List Char) : (do
    let (whole, text) ← takeDigits? text
    if whole.length > 1 ∧ whole.head? = some '0' then none
    let (fraction, text) ← takeFraction? text
    let (exponent, text) ← takeExponent? text
    some ((⟨negative, whole, fraction, exponent⟩ : Spelling), text))
      = takeUnsigned? negative text := by
  unfold takeUnsigned?
  -- part by part, and each may be missing
  rcases takeDigits? text with _ | ⟨whole, text⟩
  · rfl
  by_cases hz : 1 < whole.length ∧ whole.head? = some '0'
  · simp [hz]
  rcases hf : takeFraction? text with _ | ⟨fraction, text⟩
  · simp [hz, hf]
  rcases he : takeExponent? text with _ | ⟨exponent, text⟩ <;> simp [hz, hf, he]

/-- A sign is taken off, and a text without one is left as it is. -/
theorem takeSpelling?_signed {text : List Char} (h : ∀ rest, text ≠ '-' :: rest) (negative : Bool) :
    takeSpelling? ((if negative then ['-'] else []) ++ text) = takeUnsigned? negative text := by
  cases negative with
  | true => exact takeUnsigned?_eq true text
  | false =>
    rw [if_neg Bool.false_ne_true, List.nil_append, takeSpelling?]
    · exact takeUnsigned?_eq false text
    · exact fun rest he => h rest he

/-- **A number that is well spelled is taken as it is spelled.**  The parts are taken in turn,
and a whole part with a zero in front of digits, which the reader refuses, is not one of a proper
spelling. -/
theorem takeSpelling?_text {s : Spelling} (h : s.Proper) {rest : List Char} (hr : EndsNumber rest) :
    takeSpelling? (s.text ++ rest) = some (s, rest) := by
  obtain ⟨hw, hf, he⟩ := h
  have hwhole := takeDigits?_append hw.isDigits hw.ne_nil
    (endsNumber_fractionText s.fraction s.exponent hr)
  have hfraction := takeFraction?_text hf (endsNumber_exponentText s.exponent hr)
  have hexponent := takeExponent?_text he hr
  -- a whole part that begins with a zero is that zero
  have hzero : ¬ (1 < s.whole.length ∧ s.whole.head? = some '0') := by
    rintro ⟨hlen, hz⟩
    rw [hw.zero hz] at hlen
    exact absurd hlen (by decide)
  obtain ⟨c, more, hcons⟩ := List.exists_cons_of_ne_nil hw.ne_nil
  have hc : c ≠ '-' := isDigit_ne (hw.isDigits c (by simp [hcons])) rfl
  rw [Spelling.text, List.append_assoc, List.append_assoc, List.append_assoc, takeSpelling?_signed,
    takeUnsigned?, hwhole, Option.bind_some]
  · simp [hzero, hfraction, hexponent]
  -- the whole part does not begin with a minus sign, which would be taken for one
  · intro tail htail
    rw [hcons] at htail
    exact hc (List.cons.inj htail).1

/-! ## 2. Numbers that are written

The texts that the program writes for integers and floats are spellings of this kind.  That they
stand for the same number again is a question of arithmetic: for an integer it is answered here, and
for a float where its decimal is read (`ShortDecimals`).
-/

/-- A number with a fraction or an exponent is a float. -/
theorem value?_eq_float? {s : Spelling} (h : s.fraction ≠ none ∨ s.exponent ≠ none) :
    s.value? = s.float? := by
  unfold Spelling.value?
  rw [if_neg]
  rintro ⟨hf, he, -⟩
  rw [Option.isNone_iff_eq_none] at hf he
  rcases h with h | h
  · exact h hf
  · exact h he

/-- The power of ten in a number. -/
def Spelling.power (s : Spelling) : Int :=
  match s.exponent with
  | none => 0
  | some (negative, digits) =>
    if negative then -(ofDigits 10 digits : Int) else ofDigits 10 digits

/-- The float of a spelling, with its exponent as a number: the digits are read as one integer,
and the place of the point and the exponent give the power of ten that it is scaled by.  An
exponent beyond all bounds gives a zero or nothing. -/
theorem float?_eq (s : Spelling) : s.float? =
    let front := absorb 0 s.whole
    let back := absorb front.1 (s.fraction.getD [])
    if maxExponent < s.power.natAbs then
      if back.1 ≠ 0 ∧ 0 < s.power then none else some (.float (Binary64.zero s.negative))
    else (scaled? back.1 ((s.whole.length - front.2 : Nat) - (back.2 : Int) + s.power)).map
      fun rank => .float (.finite s.negative rank) := by
  obtain ⟨negative, whole, fraction, exponent⟩ := s
  cases exponent <;> rfl

/-- A float that is read is finite, and has the sign that is spelled. -/
theorem eq_finite_of_float? {s : Spelling} {json : Json} (h : s.float? = some json) :
    ∃ rank, json = .float (.finite s.negative rank) := by
  rw [float?_eq] at h
  simp only at h
  -- an exponent out of bounds gives a zero at best, any other one a scaled number
  split at h
  · split at h
    · cases h
    · exact ⟨_, (Option.some.inj h).symm⟩
  · obtain ⟨rank, -, rfl⟩ := Option.map_eq_some_iff.mp h
    exact ⟨rank, rfl⟩

/-- **An integer is spelled by its text,** and read from it. -/
theorem exists_spelling_integer (n : Int64) :
    ∃ s : Spelling, s.Proper ∧ s.text = decimalInt n.toInt ∧ s.value? = some (.integer n) := by
  refine ⟨⟨decide (n.toInt < 0), Nat.toDigits 10 n.toInt.natAbs, none, none⟩, ?_, ?_, ?_⟩
  · exact ⟨isWhole_toDigits _, by simp, by simp⟩
  · simp [Spelling.text, Spelling.fractionText, Spelling.exponentText, decimalInt]
  -- the digits give the size of the integer, and the sign is in front
  · have hvalue : (if decide (n.toInt < 0) = true then -(n.toInt.natAbs : Int) else n.toInt.natAbs)
        = n.toInt := by
      simp only [decide_eq_true_eq]
      split <;> omega
    simp only [Spelling.value?, ofDigits_toDigits, hvalue]
    rw [if_pos, Int64.ofInt_toInt]
    refine ⟨rfl, rfl, ?_, Int64.le_iff_toInt_le.mp (Int64.minValue_le n),
      Int64.le_iff_toInt_le.mp (Int64.le_maxValue n)⟩
    rintro ⟨hneg, hzero⟩
    simp only [decide_eq_true_eq] at hneg
    omega

/-- **The decimal that a number spells.** -/
def Spelling.decimal (s : Spelling) : Binary64.Decimal :=
  ⟨ofDigits 10 (s.whole ++ s.fraction.getD []), s.power - (s.fraction.getD []).length⟩

/-- The spelling of zero. -/
def zeroSpelling (negative : Bool) : Spelling := ⟨negative, ['0'], some ['0'], none⟩

/-- A zero is well spelled. -/
theorem proper_zeroSpelling (negative : Bool) : (zeroSpelling negative).Proper := by
  refine ⟨⟨by simp [zeroSpelling, IsDigits], by simp [zeroSpelling], fun _ => rfl⟩, ?_,
    by simp [zeroSpelling]⟩
  rintro digits hdigits
  obtain rfl := Option.some.inj hdigits
  exact ⟨by simp [IsDigits], by decide⟩

/-- It is what is written for a float that is zero. -/
theorem text_zeroSpelling (negative : Bool) :
    (zeroSpelling negative).text = FloatStyle.json.signed negative 0 := by
  cases negative <;> rfl

/-- **A float is spelled by its text,** as the shortest decimal of its magnitude or as that
decimal with zeros behind it.  A large float is written out with zeros up to its point, so its
digits are those of the decimal times a power of ten, and the power is taken off the exponent
again. -/
theorem exists_spelling_float (negative : Bool) {rank : Nat} (hr : rank ≠ 0) :
    ∃ s : Spelling, s.Proper ∧ s.text = FloatStyle.json.signed negative rank
      ∧ s.negative = negative ∧ (s.fraction ≠ none ∨ s.exponent ≠ none)
      ∧ (s.power = 0 ∨ s.power = (Binary64.shortest .even rank).point - 1)
      ∧ ∃ zeros : Nat, zeros ≤ (Binary64.shortest .even rank).exponent.toNat + 1
        ∧ s.decimal.significand = (Binary64.shortest .even rank).significand * 10 ^ zeros
        ∧ s.decimal.exponent = (Binary64.shortest .even rank).exponent - zeros := by
  have hs : (Binary64.shortest .even rank).significand ≠ 0 := significand_shortest_ne .even hr
  rw [FloatStyle.signed, FloatStyle.magnitude, if_neg hr]
  simp only
  generalize hd : Binary64.shortest .even rank = d at hs ⊢
  have hshortest : Binary64.shortest FloatStyle.json.tie rank = d := hd
  rw [hshortest]
  -- written with a point, or with an exponent
  by_cases hpositional : FloatStyle.json.isPositional d.point = true
  · rw [if_pos hpositional]
    obtain ⟨whole, fraction, zeros, htext, hw, hf, hne, hnumber, hexponent, hzeros⟩ :=
      @exists_positional FloatStyle.json rfl d hs
    refine ⟨⟨negative, whole, some fraction, none⟩, ⟨hw, by simp [hf, hne], by simp⟩, ?_, rfl,
      by simp, .inl rfl, zeros, hzeros, hnumber, ?_⟩
    · simp [htext, Spelling.text, Spelling.fractionText, Spelling.exponentText]
    · simp only [Spelling.decimal, Spelling.power, Option.getD_some]
      omega
  · rw [if_neg hpositional]
    -- one digit in front of the point, and no point if there are no others
    obtain ⟨c, rest, hcons, hwhole, hrest, hvalue, hpoint⟩ := exists_mantissa hs
    have hpower : (if decide (d.point - 1 < 0) = true then
        -(ofDigits 10 (Nat.toDigits 10 (d.point - 1).natAbs) : Int)
        else ofDigits 10 (Nat.toDigits 10 (d.point - 1).natAbs)) = d.point - 1 := by
      simp only [ofDigits_toDigits, decide_eq_true_eq]
      split <;> omega
    refine ⟨⟨negative, [c], if rest = [] then none else some rest,
      some (decide (d.point - 1 < 0), Nat.toDigits 10 (d.point - 1).natAbs)⟩, ⟨hwhole, ?_, ?_⟩, ?_,
      rfl, by simp, .inr hpower, 0, Nat.zero_le _, ?_, ?_⟩
    · intro digits hdigits
      obtain ⟨hne, hsome⟩ := Option.ite_none_left_eq_some.mp hdigits
      obtain rfl := Option.some.inj hsome
      exact ⟨hrest, hne⟩
    · intro sign digits hdigits
      obtain ⟨-, rfl⟩ := Prod.mk.inj (Option.some.inj hdigits)
      exact ⟨isDigits_toDigits _, Nat.toDigits_ne_nil⟩
    · rw [hcons, scientific_cons]
      cases rest <;> by_cases hneg : d.point - 1 < 0 <;>
        simp [Spelling.text, Spelling.fractionText, Spelling.exponentText, FloatStyle.json, hneg]
    · rw [Nat.pow_zero, Nat.mul_one, ← hvalue]
      cases rest <;> simp [Spelling.decimal]
    · have hlength : ((if rest = [] then none else some rest).getD []).length = rest.length := by
        cases rest <;> simp
      simp only [Spelling.decimal, Spelling.power, hpower, hlength]
      omega

/-- The text of a finite float spells a number with its sign. -/
theorem exists_spelling_finite (negative : Bool) (rank : Nat) :
    ∃ s : Spelling, s.Proper ∧ s.text = FloatStyle.json.signed negative rank
      ∧ s.negative = negative ∧ (s.fraction ≠ none ∨ s.exponent ≠ none) := by
  -- a zero is spelled apart
  by_cases hr : rank = 0
  · subst hr
    exact ⟨_, proper_zeroSpelling negative, text_zeroSpelling negative, rfl,
      .inl (by simp [zeroSpelling])⟩
  · obtain ⟨s, hs, htext, hneg, hfloat, -⟩ := exists_spelling_float negative hr
    exact ⟨s, hs, htext, hneg, hfloat⟩

end TomlKeep.Json
