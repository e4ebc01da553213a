/-
# Numbers that are written are read

A run of decimal digits is read as far as it goes, and gives back the number whose digits it is
(`digitRun?_append`, `ofDigits_toDigits`).  A whole number is read from its digits
(`read?_decimalInt`), and a decimal from its digits before and behind the point and its exponent
(`unsigned?_pointed`, `unsigned?_scientific`).

No date or time is a number: its first digits are followed by a dash or a colon
(`read?_of_stop`).
-/
import Mathlib
import TomlKeep.Toml.Term
import TomlKeep.Literal

namespace TomlKeep

/-- A text of decimal digits. -/
def IsDigits (text : List Char) : Prop := ∀ c ∈ text, c.isDigit = true

/-- The digits of a number are digits. -/
theorem isDigits_toDigits (n : Nat) : IsDigits (Nat.toDigits 10 n) :=
  fun _ hc => Nat.isDigit_of_mem_toDigits (by decide) (by decide) hc

/-- Digits behind digits are digits. -/
theorem IsDigits.append {a b : List Char} (ha : IsDigits a) (hb : IsDigits b) : IsDigits (a ++ b) :=
  List.forall_mem_append.mpr ⟨ha, hb⟩

/-- Zeros are digits. -/
theorem isDigits_zeros (n : Nat) : IsDigits (List.replicate n '0') := by
  intro c hc
  obtain rfl := List.eq_of_mem_replicate hc
  rfl

/-- A digit is no other kind of character. -/
theorem isDigit_ne {c d : Char} (h : c.isDigit = true) (hd : d.isDigit = false) : c ≠ d := by
  rintro rfl
  simp [h] at hd

/-- The digits stand together in Unicode. -/
theorem isDigit_iff {c : Char} : c.isDigit = true ↔ 48 ≤ c.toNat ∧ c.toNat ≤ 57 := by
  simp only [Char.isDigit, ge_iff_le, Bool.and_eq_true, decide_eq_true_eq, UInt32.le_iff_toNat_le]
  exact Iff.rfl

namespace Numeral

/-! ## 1. Runs of digits

The reader of digits allows underscores between them and takes any base up to sixteen; a number is
written in base ten and without underscores.  For such digits the reader takes the run up to the
next character that is neither a digit nor an underscore, and its sum over the digits is that of the
library (`Nat.ofDigitChars`), where the digits of a number are known to give it back.
-/

/-- The value of a decimal digit. -/
theorem digitValue_of_isDigit {c : Char} (h : c.isDigit = true) :
    digitValue c = c.toNat - '0'.toNat := by
  rw [digitValue, if_pos h]
  rfl

/-- The digits of base ten are the decimal ones: the letters have greater values. -/
theorem isDigitOf_ten (c : Char) : isDigitOf 10 c = c.isDigit := by
  cases h : c.isDigit with
  | true =>
    have hbound := isDigit_iff.mp h
    have hvalue : digitValue c < 10 := by
      rw [digitValue, if_pos h]
      omega
    simp [isDigitOf, h, hvalue]
  | false =>
    have hge : (('a' ≤ c ∧ c ≤ 'f') ∨ ('A' ≤ c ∧ c ≤ 'F')) → ¬ digitValue c < 10 := by
      have hle (a b : Char) : a ≤ b ↔ a.toNat ≤ b.toNat := by
        simp only [Char.le_def, UInt32.le_iff_toNat_le]
        exact Iff.rfl
      have ha : 'a'.toNat = 97 := rfl
      have hA : 'A'.toNat = 65 := rfl
      have hF : 'F'.toNat = 70 := rfl
      simp only [digitValue, h, Bool.false_eq_true, if_false, hle, ha, hA, hF]
      rintro (h1 | h1)
      · rw [if_pos h1]
        omega
      · rw [if_neg (by omega), if_pos h1]
        omega
    simp only [isDigitOf, h, Bool.false_or, Bool.and_eq_false_iff, decide_eq_false_iff_not]
    by_cases hc : ('a' ≤ c ∧ c ≤ 'f') ∨ ('A' ≤ c ∧ c ≤ 'F')
    · exact .inr (hge hc)
    · exact .inl (by simpa using hc)

/-- The number that digits spell is that of the library. -/
theorem ofDigits_eq {digits : List Char} (h : IsDigits digits) :
    ofDigits 10 digits = Nat.ofDigitChars 10 digits 0 := by
  have go : ∀ (digits : List Char) (n : Nat), IsDigits digits →
      digits.foldl (fun n c => n * 10 + digitValue c) n = Nat.ofDigitChars 10 digits n := by
    -- the induction is over the digits, with the number that those before them spell
    intro digits
    induction digits with
    | nil => simp
    | cons c rest ih =>
      intro n h
      obtain ⟨hc, hrest⟩ := List.forall_mem_cons.mp h
      rw [List.foldl_cons, ih _ hrest, Nat.ofDigitChars_cons, digitValue_of_isDigit hc,
        Nat.mul_comm]
  exact go digits 0 h

/-- Digits behind others shift them. -/
theorem ofDigits_append {a b : List Char} (ha : IsDigits a) (hb : IsDigits b) :
    ofDigits 10 (a ++ b) = ofDigits 10 a * 10 ^ b.length + ofDigits 10 b := by
  rw [ofDigits_eq (ha.append hb), ofDigits_eq ha, ofDigits_eq hb, Nat.ofDigitChars_append,
    Nat.ofDigitChars_eq_ofDigitChars_zero, Nat.mul_comm]

/-- Zeros spell zero. -/
theorem ofDigits_zeros (n : Nat) : ofDigits 10 (List.replicate n '0') = 0 := by
  rw [ofDigits_eq (isDigits_zeros n), Nat.ofDigitChars_replicate_zero, Nat.mul_zero]

/-- The digits of a number spell it. -/
@[simp] theorem ofDigits_toDigits (n : Nat) : ofDigits 10 (Nat.toDigits 10 n) = n := by
  rw [ofDigits_eq (isDigits_toDigits n), Nat.ofDigitChars_ten_toDigits]

/-- A text that does not go on with a digit. -/
def Stops (rest : List Char) : Prop :=
  ∀ c, rest.head? = some c → c.isDigit = false ∧ c ≠ '_'

/-- The end of a text stops digits. -/
theorem stops_nil : Stops [] := fun _ h => by cases h

/-- So does a character that is neither a digit nor an underscore. -/
theorem stops_cons {c : Char} {rest : List Char} :
    Stops (c :: rest) ↔ c.isDigit = false ∧ c ≠ '_' := by
  simp [Stops]

/-- No digits are read where they stop. -/
theorem digitTail_stops {rest : List Char} (h : Stops rest) : digitTail 10 rest = ([], rest) := by
  cases rest with
  | nil => rw [digitTail]
  | cons c rest =>
    obtain ⟨hc, hu⟩ := stops_cons.mp h
    rw [digitTail, isDigitOf_ten, hc]
    · rfl
    · intro d tail he
      exact absurd he hu

/-- The digits behind the first are read up to where they stop. -/
theorem digitTail_append {rest : List Char} (hr : Stops rest) : ∀ {digits : List Char},
    IsDigits digits → digitTail 10 (digits ++ rest) = (digits, rest)
  | [], _ => digitTail_stops hr
  | c :: digits, h => by
    obtain ⟨hc, hd⟩ := List.forall_mem_cons.mp h
    rw [List.cons_append, digitTail, isDigitOf_ten, hc, digitTail_append hr hd]
    · rfl
    · intro d tail he
      exact absurd he (isDigit_ne hc rfl)

/-- **A run of digits is read as far as it goes.** -/
theorem digitRun?_append {digits rest : List Char} (h : IsDigits digits) (hne : digits ≠ [])
    (hr : Stops rest) : digitRun? 10 (digits ++ rest) = some (digits, rest) := by
  obtain ⟨c, tail, rfl⟩ := List.exists_cons_of_ne_nil hne
  obtain ⟨hc, ht⟩ := List.forall_mem_cons.mp h
  rw [List.cons_append, digitRun?, isDigitOf_ten, hc, digitTail_append hr ht]
  rfl

/-- Digits of a whole number: there is one, and the first is a zero only if it stands alone. -/
structure IsWhole (digits : List Char) : Prop where
  isDigits : IsDigits digits
  ne_nil : digits ≠ []
  zero : digits.head? = some '0' → digits = ['0']

/-- A whole number is read as far as its digits go.  A zero at the beginning ends it at once,
which is why it may stand there only alone. -/
theorem wholePart?_append {digits rest : List Char} (h : IsWhole digits) (hr : Stops rest) :
    wholePart? (digits ++ rest) = some (digits, rest) := by
  by_cases hz : digits.head? = some '0'
  · rw [h.zero hz]
    rfl
  · rw [wholePart?]
    · exact digitRun?_append h.isDigits h.ne_nil hr
    · intro tail he
      obtain ⟨c, more, rfl⟩ := List.exists_cons_of_ne_nil h.ne_nil
      exact hz (congrArg some (List.cons.inj he).1)

/-- The digits of a number begin with a zero only if the number is zero. -/
theorem isWhole_toDigits (n : Nat) : IsWhole (Nat.toDigits 10 n) := by
  refine ⟨isDigits_toDigits n, Nat.toDigits_ne_nil, ?_⟩
  induction n using Nat.strongRecOn with
  | _ n ih =>
    rw [Nat.toDigits_eq_if (by decide)]
    split
    · next h =>
      intro hz
      simpa using hz
    · next h =>
      intro hz
      rw [List.head?_append_of_ne_nil _ Nat.toDigits_ne_nil] at hz
      have hsmall : n / 10 < n := Nat.div_lt_self (by omega) (by decide)
      -- the digits before the last are those of a smaller number, which is not zero
      have hzero := congrArg (ofDigits 10) (ih (n / 10) hsmall hz)
      rw [ofDigits_toDigits] at hzero
      have hnil : ofDigits 10 ['0'] = 0 := rfl
      omega

/-- Digits of a number that is not zero may be followed by zeros. -/
theorem isWhole_append_zeros {n : Nat} (hn : n ≠ 0) (zeros : Nat) :
    IsWhole (Nat.toDigits 10 n ++ List.replicate zeros '0') := by
  refine ⟨(isDigits_toDigits n).append (isDigits_zeros zeros), by simp, fun hz => ?_⟩
  rw [List.head?_append_of_ne_nil _ Nat.toDigits_ne_nil] at hz
  have := congrArg (ofDigits 10) ((isWhole_toDigits n).zero hz)
  rw [ofDigits_toDigits] at this
  exact absurd this hn

/-! ## 2. Numbers

A number has a whole part, and perhaps a fraction and an exponent; the reader takes them in this
order and has to be at the end behind them.  The sign and the prefixes for other bases are looked
for first, so a number that begins with a digit and has no letter behind it is read without them.
-/

/-- What is read behind the digits of a whole number: nothing, and it is an integer; or a
fraction and an exponent, and it is a decimal. -/
theorem unsigned?_of_whole {digits rest : List Char} (h : IsWhole digits) (hr : Stops rest)
    (negative : Bool) : unsigned? negative (digits ++ rest)
      = if rest = [] then
          some (.integer (if negative then -(ofDigits 10 digits : Int) else ofDigits 10 digits))
        else (fraction? rest).bind fun (fraction, behind) => (exponent? behind).map fun exponent =>
          .decimal negative (ofDigits 10 (digits ++ fraction)) (exponent - fraction.length) := by
  obtain ⟨c, more, hcons⟩ := List.exists_cons_of_ne_nil h.ne_nil
  have hc : c.isDigit = true := h.isDigits c (by simp [hcons])
  have hname (d : Char) (hd : d.isDigit = false) (name : List Char) :
      digits ++ rest ≠ d :: name := by
    rw [hcons]
    intro he
    exact isDigit_ne hc hd (List.cons.inj he).1
  rw [unsigned?, if_neg (hname _ rfl _), if_neg (hname _ rfl _), wholePart?_append h hr]
  cases rest with
  | nil => rfl
  | cons d rest =>
    rw [if_neg (List.cons_ne_nil d rest)]
    simp only
    rcases fraction? (d :: rest) with _ | ⟨fraction, behind⟩
    · rfl
    · simp only [Option.bind_some]
      rcases exponent? behind with _ | exponent <;> rfl

/-- **A decimal with a point.** -/
theorem unsigned?_pointed {whole fraction rest : List Char} (hw : IsWhole whole)
    (hf : IsDigits fraction) (hne : fraction ≠ []) (hr : Stops rest) {exponent : Int}
    (he : exponent? rest = some exponent) (negative : Bool) :
    unsigned? negative (whole ++ '.' :: (fraction ++ rest))
      = some (.decimal negative (ofDigits 10 (whole ++ fraction))
        (exponent - fraction.length)) := by
  rw [unsigned?_of_whole hw (stops_cons.mpr ⟨rfl, by decide⟩), if_neg (List.cons_ne_nil _ _),
    fraction?, digitRun?_append hf hne hr]
  simp [he]

/-- An exponent is read from its digits, with a minus sign if it is negative. -/
theorem exponent?_digits {digits : List Char} (hd : IsDigits digits) (hne : digits ≠ [])
    (negative : Bool) : exponent? ('e' :: ((if negative then ['-'] else []) ++ digits))
      = some (if negative then -(ofDigits 10 digits : Int) else ofDigits 10 digits) := by
  have hrun : digitRun? 10 digits = some (digits, []) := by
    simpa using digitRun?_append hd hne stops_nil
  obtain ⟨c, more, rfl⟩ := List.exists_cons_of_ne_nil hne
  have hc : c.isDigit = true := hd c (by simp)
  cases negative with
  | true => simp [exponent?, hrun]
  | false =>
    -- without a sign, the first digit is none
    have hplus := isDigit_ne hc (d := '+') rfl
    have hminus := isDigit_ne hc (d := '-') rfl
    simp only [exponent?, Bool.false_eq_true, if_false, List.nil_append, true_or, if_true]
    split
    · next digits h =>
      split at h
      · next he => exact absurd (List.cons.inj he).1 hminus
      · next he => exact absurd (List.cons.inj he).1 hplus
      · obtain rfl : c :: more = digits := by simpa [hrun] using h
        rfl
    · next h =>
      split at h
      · next he => exact absurd (List.cons.inj he).1 hminus
      · next he => exact absurd (List.cons.inj he).1 hplus
      · exact absurd hrun (h _)

/-- The exponent of a number, signed if it is negative. -/
theorem exponent?_toDigits (exponent : Int) :
    exponent? ('e' :: ((if exponent < 0 then ['-'] else []) ++ Nat.toDigits 10 exponent.natAbs))
      = some exponent := by
  have h := exponent?_digits (isDigits_toDigits exponent.natAbs) Nat.toDigits_ne_nil
    (decide (exponent < 0))
  simp only [decide_eq_true_eq, ofDigits_toDigits] at h
  rw [h]
  split <;> congr 1 <;> omega

/-- An exponent stops the digits before it. -/
theorem stops_exponent (rest : List Char) : Stops ('e' :: rest) := stops_cons.mpr ⟨rfl, by decide⟩

/-- **A decimal without a point,** but with an exponent. -/
theorem unsigned?_scientific {whole rest : List Char} (hw : IsWhole whole) {exponent : Int}
    (he : exponent? ('e' :: rest) = some exponent) (negative : Bool) :
    unsigned? negative (whole ++ 'e' :: rest)
      = some (.decimal negative (ofDigits 10 whole) exponent) := by
  rw [unsigned?_of_whole hw (stops_exponent rest), if_neg (List.cons_ne_nil _ _), fraction?,
    Option.bind_some]
  · simp [he]
  · intro tail h
    exact absurd (List.cons.inj h).1 (by decide)

/-- The first character of an unsigned number is a digit, and no letter for a base follows it. -/
def IsPlainStart (text : List Char) : Prop :=
  ∃ c rest, text = c :: rest ∧ c.isDigit = true
    ∧ ∀ d, rest.head? = some d → d ≠ 'x' ∧ d ≠ 'o' ∧ d ≠ 'b'

/-- The sign of a number. -/
theorem read?_signed {text : List Char} (h : IsPlainStart text) (negative : Bool) :
    read? ((if negative then ['-'] else []) ++ text) = unsigned? negative text := by
  cases negative with
  | true => rfl
  | false =>
    -- neither a prefix for another base nor a sign
    obtain ⟨c, rest, rfl, hc, hrest⟩ := h
    rw [if_neg Bool.false_ne_true, List.nil_append, read?]
    · intro tail he
      obtain ⟨rfl, rfl⟩ := List.cons.inj he
      exact (hrest 'x' rfl).1 rfl
    · intro tail he
      obtain ⟨rfl, rfl⟩ := List.cons.inj he
      exact (hrest 'o' rfl).2.1 rfl
    · intro tail he
      obtain ⟨rfl, rfl⟩ := List.cons.inj he
      exact (hrest 'b' rfl).2.2 rfl
    · intro tail he
      exact isDigit_ne hc (d := '+') rfl (List.cons.inj he).1
    · intro tail he
      exact isDigit_ne hc (d := '-') rfl (List.cons.inj he).1

/-- Digits and what follows them begin a number. -/
theorem isPlainStart_append {digits rest : List Char} (hd : IsDigits digits) (hne : digits ≠ [])
    (hr : ∀ d, rest.head? = some d → d ≠ 'x' ∧ d ≠ 'o' ∧ d ≠ 'b') :
    IsPlainStart (digits ++ rest) := by
  obtain ⟨c, more, rfl⟩ := List.exists_cons_of_ne_nil hne
  obtain ⟨hc, hmore⟩ := List.forall_mem_cons.mp hd
  refine ⟨c, more ++ rest, rfl, hc, fun d hh => ?_⟩
  cases more with
  | nil => exact hr d hh
  | cons e more =>
    obtain rfl : e = d := by simpa using hh
    have he : e.isDigit = true := hmore e (by simp)
    exact ⟨isDigit_ne he rfl, isDigit_ne he rfl, isDigit_ne he rfl⟩

/-- **An integer is read from its digits,** with its sign before them. -/
theorem read?_decimalInt (n : Int) : read? (decimalInt n) = some (.integer n) := by
  have hwhole := isWhole_toDigits n.natAbs
  have hstart : IsPlainStart (Nat.toDigits 10 n.natAbs) := by
    have h : IsPlainStart (Nat.toDigits 10 n.natAbs ++ []) :=
      isPlainStart_append hwhole.isDigits hwhole.ne_nil (by simp)
    rwa [List.append_nil] at h
  have hread := read?_signed hstart (decide (n < 0))
  have hunsigned := unsigned?_of_whole hwhole stops_nil (decide (n < 0))
  simp only [decide_eq_true_eq] at hread
  rw [decimalInt, hread]
  rw [List.append_nil] at hunsigned
  rw [hunsigned, if_pos rfl]
  simp only [decide_eq_true_eq, ofDigits_toDigits]
  split <;> congr 2 <;> omega

/-- **Digits before a dash or a colon are no number.**  This is what tells the texts of dates and
times from those of numbers.  A zero at the beginning ends the whole part before the other
digits, and then a digit stands where a point or an exponent would have to. -/
theorem read?_of_stop {digits rest : List Char} (hd : IsDigits digits) (hne : digits ≠ [])
    {c : Char} (hc : c = '-' ∨ c = ':') : read? (digits ++ c :: rest) = none := by
  have hletters : ∀ d, (c :: rest).head? = some d → d ≠ 'x' ∧ d ≠ 'o' ∧ d ≠ 'b' := by
    intro d hd
    obtain rfl : c = d := by simpa using hd
    rcases hc with rfl | rfl <;> decide
  have hread := read?_signed (isPlainStart_append hd hne hletters) false
  rw [if_neg Bool.false_ne_true, List.nil_append] at hread
  -- what is left behind the whole part begins with a digit, a dash or a colon
  have hbehind : ∃ whole d tail, wholePart? (digits ++ c :: rest) = some (whole, d :: tail)
      ∧ (d.isDigit = true ∨ d = '-' ∨ d = ':') := by
    have hstop : Stops (c :: rest) := by
      rcases hc with rfl | rfl <;> exact stops_cons.mpr ⟨rfl, by decide⟩
    by_cases hz : digits.head? = some '0'
    · obtain ⟨more, rfl⟩ : ∃ more, digits = '0' :: more := by
        cases digits with
        | nil => cases hz
        | cons d more => exact ⟨more, by rw [show d = '0' by simpa using hz]⟩
      cases more with
      | nil => exact ⟨['0'], c, rest, rfl, .inr hc⟩
      | cons e more => exact ⟨['0'], e, more ++ c :: rest, rfl, .inl (hd e (by simp))⟩
    · exact ⟨digits, c, rest, wholePart?_append ⟨hd, hne, fun h => absurd h hz⟩ hstop, .inr hc⟩
  obtain ⟨whole, d, tail, hwhole, hd'⟩ := hbehind
  have hpoint : d ≠ '.' ∧ d ≠ 'e' ∧ d ≠ 'E' := by
    rcases hd' with h | rfl | rfl
    · exact ⟨isDigit_ne h rfl, isDigit_ne h rfl, isDigit_ne h rfl⟩
    · decide
    · decide
  have hfraction : fraction? (d :: tail) = some ([], d :: tail) := by
    rw [fraction?]
    intro more he
    exact hpoint.1 (List.cons.inj he).1
  have hexponent : exponent? (d :: tail) = none := by
    simp [exponent?, hpoint.2.1, hpoint.2.2]
  obtain ⟨e, more, hcons⟩ := List.exists_cons_of_ne_nil hne
  have he : e.isDigit = true := hd e (by simp [hcons])
  have hname (f : Char) (hf : f.isDigit = false) (name : List Char) :
      digits ++ c :: rest ≠ f :: name := by
    rw [hcons]
    intro h
    exact isDigit_ne he hf (List.cons.inj h).1
  rw [hread, unsigned?, if_neg (hname _ rfl _), if_neg (hname _ rfl _), hwhole]
  simp only [hfraction, hexponent]

end Numeral

/-! ## 3. Values of tokens

A token is read as a truth value or as a number before anything else.
-/

namespace Toml

/-- A token that is a number.  It is no truth value, since those begin with letters. -/
theorem tokenValue?_of_read? {token : List Char} {numeral : Numeral}
    (h : Numeral.read? token = some numeral) : tokenValue? token = numeral.value? := by
  have htrue : token ≠ ['t', 'r', 'u', 'e'] := by
    rintro rfl
    cases h
  have hfalse : token ≠ ['f', 'a', 'l', 's', 'e'] := by
    rintro rfl
    cases h
  rw [tokenValue?, if_neg htrue, if_neg hfalse, h]

/-- **The text of an integer is read as that integer.** -/
theorem tokenValue?_decimalInt (n : Int64) :
    tokenValue? (decimalInt n.toInt) = some (.integer n) := by
  have hbounds : Int64.minValue.toInt ≤ n.toInt ∧ n.toInt ≤ Int64.maxValue.toInt :=
    ⟨Int64.le_iff_toInt_le.mp (Int64.minValue_le n), Int64.le_iff_toInt_le.mp (Int64.le_maxValue n)⟩
  rw [tokenValue?_of_read? (Numeral.read?_decimalInt n.toInt), Numeral.value?, if_pos hbounds,
    Int64.ofInt_toInt]

/-- The text of a truth value is read as that value. -/
theorem tokenValue?_boolText (b : Bool) : tokenValue? (boolText b) = some (.bool b) := by
  cases b <;> rfl

end Toml

end TomlKeep
