/-
# Dates and times that are written are read

A date-time that is written is read as its normal form, in which the fraction has no zeros at its
end and an offset of nothing is positive (`Datetime.read?_write`).  The normal form is written in
the same way, so the canonical text of a date-time is its own canonical text
(`Datetime.canonical?_idem`).

No such text is a number (`Datetime.read?_numeral`), and so a token in canonical form is read as
the date-time that it is (`Toml.tokenValue?_canonical`).
-/
import TomlKeep.Proofs.Digits
import TomlKeep.Proofs.Literals

namespace TomlKeep.Datetime

/-! ## 1. Numbers of a fixed width

Years have four digits and all other parts of a date-time two, with zeros in front.  So a part is
read back if it has no more digits than its width; and a part that was read has no more, since that
many digits were taken.
-/

/-- Digits of the given number are read as what they spell. -/
theorem takeNumber?_eq (n : Nat) {digits rest : List Char} (hl : digits.length = n)
    (hd : IsDigits digits) :
    takeNumber? n (digits ++ rest) = some (Nat.ofDigitChars 10 digits 0, rest) := by
  have htake : (digits ++ rest).take n = digits := by simp [← hl]
  have hdrop : (digits ++ rest).drop n = rest := by simp [← hl]
  have hfold : ∀ (digits : List Char) (m : Nat),
      digits.foldl (fun m c => m * 10 + (c.toNat - 48)) m = Nat.ofDigitChars 10 digits m := by
    intro digits
    induction digits with
    | nil => simp
    | cons c digits ih =>
      intro m
      rw [List.foldl_cons, ih, Nat.ofDigitChars_cons, Nat.mul_comm]
      rfl
  simp only [takeNumber?, htake, hdrop, hl, List.all_eq_true.mpr hd, hfold, and_self, if_true]

/-- Padded digits are digits. -/
theorem isDigits_padded (width n : Nat) : IsDigits (padded width n) :=
  (isDigits_zeros _).append (isDigits_toDigits n)

/-- There is one at least. -/
theorem padded_ne_nil (width n : Nat) : padded width n ≠ [] :=
  List.append_ne_nil_of_right_ne_nil _ Nat.toDigits_ne_nil

/-- A number with few digits is padded to the width. -/
theorem length_padded {width n : Nat} (hw : 0 < width) (h : n < 10 ^ width) :
    (padded width n).length = width := by
  have hle := (Nat.length_toDigits_le_iff (b := 10) (n := n) (by decide) hw).mpr h
  simp only [padded, List.length_append, List.length_replicate]
  omega

/-- **A number is read from its padded digits.** -/
theorem takeNumber?_padded {width n : Nat} (hw : 0 < width) (h : n < 10 ^ width)
    (rest : List Char) : takeNumber? width (padded width n ++ rest) = some (n, rest) := by
  rw [takeNumber?_eq width (length_padded hw h) (isDigits_padded width n), padded,
    Nat.ofDigitChars_append, Nat.ofDigitChars_replicate_zero, Nat.mul_zero,
    Nat.ofDigitChars_ten_toDigits]

/-- A number that was read has no more digits than were taken. -/
theorem lt_of_takeNumber? {n m : Nat} {text rest : List Char}
    (h : takeNumber? n text = some (m, rest)) : m < 10 ^ n := by
  obtain ⟨⟨hl, hd⟩, he⟩ := Option.ite_none_right_eq_some.mp h
  obtain ⟨rfl, -⟩ := Prod.mk.inj (Option.some.inj he)
  -- by induction on the digits, with the number that those before them spell
  have hbound : ∀ (digits : List Char) (k : Nat), digits.all Char.isDigit = true →
      digits.foldl (fun m c => m * 10 + (c.toNat - 48)) k < (k + 1) * 10 ^ digits.length := by
    intro digits
    induction digits with
    | nil => simp
    | cons c digits ih =>
      intro k hd
      rw [List.all_cons, Bool.and_eq_true] at hd
      have hc := isDigit_iff.mp hd.1
      calc _ < (k * 10 + (c.toNat - 48) + 1) * 10 ^ digits.length := ih _ hd.2
        _ ≤ ((k + 1) * 10) * 10 ^ digits.length := Nat.mul_le_mul_right _ (by omega)
        _ = (k + 1) * 10 ^ (c :: digits).length := by rw [List.length_cons, pow_succ]; ring
  have := hbound (text.take n) 0 hd
  rwa [hl, Nat.zero_add, Nat.one_mul] at this

/-! ## 2. Days, times and offsets

Each part of a date-time is read by its own function, and for each there are two lemmas: what was
read fits into the widths, and what fits is written so that it is read again.  Days come back as
they are, times and offsets in normal form.
-/

/-- Whether the numbers of a day have no more digits than they are written with. -/
def Day.Fits (d : Day) : Prop := d.year < 10 ^ 4 ∧ d.month < 10 ^ 2 ∧ d.day < 10 ^ 2

/-- Whether the numbers of a time have no more digits than they are written with. -/
def Clock.Fits (c : Clock) : Prop :=
  c.hour < 10 ^ 2 ∧ c.minute < 10 ^ 2 ∧ c.second < 10 ^ 2 ∧ IsDigits c.fraction

/-- A day is read from its text. -/
theorem takeDay?_writeDay {d : Day} (h : Day.Fits d) (rest : List Char) :
    takeDay? (writeDay d ++ rest) = some (d, rest) := by
  obtain ⟨hy, hm, hd⟩ := h
  have h4 (tail : List Char) := takeNumber?_padded (by decide) hy tail
  have h2 (tail : List Char) := takeNumber?_padded (by decide) hm tail
  have h2' (tail : List Char) := takeNumber?_padded (by decide) hd tail
  simp [takeDay?, writeDay, h4, h2, h2', takeChar?]

/-- A day that was read fits. -/
theorem fits_of_takeDay? {text rest : List Char} {d : Day} (h : takeDay? text = some (d, rest)) :
    Day.Fits d := by
  simp only [takeDay?, Option.bind_eq_bind, Option.bind_eq_some_iff, Option.some.injEq,
    Prod.mk.injEq, Prod.exists] at h
  obtain ⟨_, _, hy, _, -, _, _, hm, _, -, _, _, hd, rfl, -⟩ := h
  exact ⟨lt_of_takeNumber? hy, lt_of_takeNumber? hm, lt_of_takeNumber? hd⟩

/-- The digits of a fraction that are written. -/
def keptFraction (digits : List Char) : List Char :=
  ((digits.take 9).reverse.dropWhile (· == '0')).reverse

/-- What is written of a fraction is written in full. -/
theorem keptFraction_idem (digits : List Char) :
    keptFraction (keptFraction digits) = keptFraction digits := by
  have hlen : (keptFraction digits).length ≤ 9 := by
    have := (List.dropWhile_sublist (· == '0') (l := (digits.take 9).reverse)).length_le
    simp only [keptFraction, List.length_reverse, List.length_take] at this ⊢
    omega
  rw [keptFraction, List.take_of_length_le hlen, keptFraction, List.reverse_reverse,
    List.dropWhile_idempotent]

/-- The digits that are kept are digits. -/
theorem isDigits_keptFraction {digits : List Char} (h : IsDigits digits) :
    IsDigits (keptFraction digits) := by
  intro c hc
  rw [keptFraction, List.mem_reverse] at hc
  have := (List.dropWhile_sublist _).mem hc
  exact h c (List.mem_of_mem_take (List.mem_reverse.mp this))

/-- A fraction is written with its point, or not at all. -/
theorem writeFraction_eq (digits : List Char) : writeFraction digits
    = if keptFraction digits = [] then [] else '.' :: keptFraction digits := by
  simp only [writeFraction, keptFraction, List.reverse_eq_nil_iff, List.isEmpty_iff]

/-- The time with the digits of its fraction that are written. -/
def Clock.normal (c : Clock) : Clock := { c with fraction := keptFraction c.fraction }

/-- A time and its normal form have the same text. -/
theorem writeClock_normal (c : Clock) : writeClock (Clock.normal c) = writeClock c := by
  simp only [writeClock, Clock.normal, writeFraction_eq, keptFraction_idem]

/-- A text that may follow a time: it goes on with no digit and no point. -/
def EndsTime (rest : List Char) : Prop :=
  ∀ c, rest.head? = some c → c.isDigit = false ∧ c ≠ '.'

/-- A time is read from its text, in normal form.  What follows must not go on with a digit or a
point, either of which would belong to the fraction. -/
theorem takeClock?_writeClock {c : Clock} (h : Clock.Fits c) {rest : List Char}
    (hr : EndsTime rest) :
    takeClock? (writeClock c ++ rest) = some (Clock.normal c, rest) := by
  obtain ⟨hh, hm, hs, hf⟩ := h
  have h1 (tail : List Char) := takeNumber?_padded (by decide) hh tail
  have h2 (tail : List Char) := takeNumber?_padded (by decide) hm tail
  have h3 (tail : List Char) := takeNumber?_padded (by decide) hs tail
  have hseconds : takeSeconds? (':' :: (padded 2 c.second ++ (writeFraction c.fraction ++ rest)))
      = some (c.second, keptFraction c.fraction, rest) := by
    -- without digits that are kept there is no point either
    by_cases hk : keptFraction c.fraction = []
    · simp only [takeSeconds?, h3, Option.bind_eq_bind, Option.bind_some, writeFraction_eq, hk,
        if_true, List.nil_append]
      split
      · next tail => exact absurd rfl (hr '.' rfl).2
      · rfl
    · have hstop : ∀ d, rest.head? = some d → d.isDigit = false := fun d hd => (hr d hd).1
      obtain ⟨htake, hdrop⟩ := takeWhile_append_stop (isDigits_keptFraction hf) hstop
      have hempty : (keptFraction c.fraction).isEmpty = false := by simpa using hk
      simp only [takeSeconds?, h3, Option.bind_eq_bind, Option.bind_some, writeFraction_eq, hk,
        if_false, List.cons_append, htake, hdrop, hempty, Bool.false_eq_true]
  have htext : writeClock c ++ rest = padded 2 c.hour ++ ':' :: (padded 2 c.minute
      ++ ':' :: (padded 2 c.second ++ (writeFraction c.fraction ++ rest))) := by
    simp [writeClock]
  rw [htext]
  simp [takeClock?, h1, h2, takeChar?, hseconds, Clock.normal]

/-- A time that was read fits; seconds that are left out are zero. -/
theorem fits_of_takeClock? {text rest : List Char} {c : Clock}
    (h : takeClock? text = some (c, rest)) : Clock.Fits c := by
  have hf := isDigit_of_takeClock? h
  simp only [takeClock?, Option.bind_eq_bind, Option.bind_eq_some_iff, Option.some.injEq,
    Prod.mk.injEq, Prod.exists] at h
  obtain ⟨_, _, hh, _, -, _, _, hm, _, _, _, hs, rfl, -⟩ := h
  refine ⟨lt_of_takeNumber? hh, lt_of_takeNumber? hm, ?_, hf⟩
  unfold takeSeconds? at hs
  split at hs
  · simp only [Option.bind_eq_bind, Option.bind_eq_some_iff] at hs
    obtain ⟨⟨n, tail⟩, hn, hs⟩ := hs
    have hlt := lt_of_takeNumber? hn
    dsimp only at hs
    split at hs
    · split at hs
      · simp at hs
      · obtain ⟨rfl, -⟩ := Prod.mk.inj (Option.some.inj hs)
        exact hlt
    · obtain ⟨rfl, -⟩ := Prod.mk.inj (Option.some.inj hs)
      exact hlt
  · obtain ⟨rfl, -⟩ := Prod.mk.inj (Option.some.inj hs)
    exact show (0 : Nat) < 10 ^ 2 by decide

/-- Whether the numbers of an offset have no more digits than they are written with. -/
def Offset.Fits : Offset → Prop
  | .zulu => True
  | .shift _ hours minutes => hours < 10 ^ 2 ∧ minutes < 10 ^ 2

/-- The offset, positive if it is nothing. -/
def Offset.normal : Offset → Offset
  | .zulu => .zulu
  | .shift negative hours minutes =>
    .shift (decide (negative ∧ (hours ≠ 0 ∨ minutes ≠ 0))) hours minutes

/-- An offset and its normal form have the same text: an offset of nothing is written with a plus
sign. -/
theorem writeOffset_normal (offset : Option Offset) :
    writeOffset (offset.map Offset.normal) = writeOffset offset := by
  rcases offset with _ | _ | ⟨negative, hours, minutes⟩
  · rfl
  · rfl
  · simp only [Option.map_some, Offset.normal, writeOffset]
    by_cases h : hours ≠ 0 ∨ minutes ≠ 0 <;> simp [h]

/-- An offset is read from its text, in normal form. -/
theorem readOffset?_writeOffset {offset : Option Offset}
    (h : ∀ o, offset = some o → Offset.Fits o) :
    readOffset? (writeOffset offset) = some (offset.map Offset.normal) := by
  rcases offset with _ | _ | ⟨negative, hours, minutes⟩
  · rfl
  · rfl
  · obtain ⟨hh, hm⟩ := h _ rfl
    have h1 (tail : List Char) := takeNumber?_padded (by decide) hh tail
    have h2 := takeNumber?_padded (by decide) hm []
    rw [List.append_nil] at h2
    by_cases hneg : negative = true ∧ (hours ≠ 0 ∨ minutes ≠ 0)
    · have hdec : decide (negative = true ∧ (hours ≠ 0 ∨ minutes ≠ 0)) = true := decide_eq_true hneg
      simp [writeOffset, if_pos hneg, readOffset?, h1, takeChar?, h2, Offset.normal, hdec]
    · have hdec : decide (negative = true ∧ (hours ≠ 0 ∨ minutes ≠ 0)) = false :=
        decide_eq_false hneg
      simp [writeOffset, if_neg hneg, readOffset?, h1, takeChar?, h2, Offset.normal, hdec]

/-- An offset that was read fits. -/
theorem fits_of_readOffset? {text : List Char} {offset : Option Offset}
    (h : readOffset? text = some offset) : ∀ o, offset = some o → Offset.Fits o := by
  rintro o rfl
  unfold readOffset? at h
  split at h
  · cases h
  · obtain rfl := Option.some.inj (Option.some.inj h)
    trivial
  · obtain rfl := Option.some.inj (Option.some.inj h)
    trivial
  · split at h
    · simp only [Option.bind_eq_bind, Option.bind_eq_some_iff, Prod.exists] at h
      obtain ⟨hours, _, hh, _, -, minutes, _, hm, h⟩ := h
      obtain ⟨-, h⟩ := Option.ite_none_right_eq_some.mp h
      obtain rfl := Option.some.inj (Option.some.inj h)
      exact ⟨lt_of_takeNumber? hh, lt_of_takeNumber? hm⟩
    · cases h

/-- An offset goes on with neither a digit nor a point, so it may follow a time. -/
theorem endsTime_writeOffset (offset : Option Offset) : EndsTime (writeOffset offset) := by
  intro c hc
  rcases offset with _ | _ | ⟨negative, hours, minutes⟩
  · cases hc
  · obtain rfl : 'Z' = c := Option.some.inj hc
    decide
  · simp only [writeOffset, List.cons_append, List.head?_cons, Option.some.injEq] at hc
    subst hc
    split <;> decide

/-! ## 3. Date-times

A date-time is a day, a time, or both with an offset.  The reader tries a day first; what begins
with a time has a colon among its first four characters and is no day.
-/

/-- Whether the numbers of a date-time have no more digits than they are written with. -/
def Fits : Datetime → Prop
  | .date day => Day.Fits day
  | .time clock => Clock.Fits clock
  | .both day clock offset => Day.Fits day ∧ Clock.Fits clock ∧ ∀ o, offset = some o → Offset.Fits o

/-- **The normal form,** which is what is written. -/
def normal : Datetime → Datetime
  | .date day => .date day
  | .time clock => .time (Clock.normal clock)
  | .both day clock offset => .both day (Clock.normal clock) (offset.map Offset.normal)

/-- A date-time and its normal form have the same text. -/
theorem write_normal (d : Datetime) : d.normal.write = d.write := by
  cases d <;> simp [normal, write, writeClock_normal, writeOffset_normal]

/-- The normal form is valid if the date-time is: no number in it changes but the zeros of the
fraction and the sign of an offset of nothing. -/
theorem isValid_normal (d : Datetime) : d.normal.isValid = d.isValid := by
  cases d with
  | date => rfl
  | time => rfl
  | both day clock offset =>
    rcases offset with _ | _ | ⟨negative, hours, minutes⟩ <;> rfl

/-- A text that begins with two digits and a colon is no day. -/
theorem takeDay?_writeClock {clock : Clock} (h : Clock.Fits clock) (rest : List Char) :
    takeDay? (writeClock clock ++ rest) = none := by
  have hlen : (padded 2 clock.hour).length = 2 := length_padded (by decide) h.1
  obtain ⟨a, b, hpair⟩ : ∃ a b, padded 2 clock.hour = [a, b] := List.length_eq_two.mp hlen
  have hnone : takeNumber? 4 (writeClock clock ++ rest) = none := by
    have hcolon : ':' ∈ (writeClock clock ++ rest).take 4 := by
      simp [writeClock, hpair]
    have hall : ((writeClock clock ++ rest).take 4).all Char.isDigit = false := by
      rw [List.all_eq_false]
      exact ⟨':', hcolon, by decide⟩
    simp [takeNumber?, hall]
  simp [takeDay?, hnone]

/-- **A date-time that is written is read as its normal form.** -/
theorem read?_write {d : Datetime} (h : d.Fits) : read? d.write = some d.normal := by
  cases d with
  | date day =>
    have := takeDay?_writeDay h []
    rw [List.append_nil] at this
    simp only [read?, write, this, normal]
  | time clock =>
    have hday := takeDay?_writeClock h []
    have hclock : takeClock? (writeClock clock ++ []) = some (Clock.normal clock, []) :=
      takeClock?_writeClock h (by simp [EndsTime])
    rw [List.append_nil] at hday hclock
    simp only [read?, write, hday, hclock, normal]
  | both day clock offset =>
    obtain ⟨hd, hc, ho⟩ := h
    have hday := takeDay?_writeDay hd ('T' :: (writeClock clock ++ writeOffset offset))
    have hclock := takeClock?_writeClock hc (endsTime_writeOffset offset)
    have hoffset := readOffset?_writeOffset ho
    have htext : write (.both day clock offset)
        = writeDay day ++ 'T' :: (writeClock clock ++ writeOffset offset) := by
      simp [write]
    have hsep : isSeparator 'T' = true := by decide
    rw [htext, read?, hday]
    simp only [hsep, if_true, hclock, hoffset, Option.bind_eq_bind, Option.bind_some, normal]

/-- A date-time that was read fits. -/
theorem fits_of_read? {text : List Char} {d : Datetime} (h : read? text = some d) : d.Fits := by
  unfold read? at h
  split at h
  · next hd =>
    obtain rfl := Option.some.inj h
    exact fits_of_takeDay? hd
  · next hd =>
    obtain ⟨-, h⟩ := Option.ite_none_right_eq_some.mp h
    simp only [Option.bind_eq_bind, Option.bind_eq_some_iff, Option.some.injEq, Prod.exists] at h
    obtain ⟨clock, _, hc, offset, ho, rfl⟩ := h
    exact ⟨fits_of_takeDay? hd, fits_of_takeClock? hc, fits_of_readOffset? ho⟩
  · split at h
    · next hc =>
      obtain rfl := Option.some.inj h
      exact fits_of_takeClock? hc
    · cases h

/-- A text in canonical form is written by a date-time that was read. -/
theorem exists_of_canonical? {text canonical : List Char} (h : canonical? text = some canonical) :
    ∃ d : Datetime, d.Fits ∧ d.isValid = true ∧ d.write = canonical := by
  unfold canonical? at h
  split at h
  · next d hr =>
    obtain ⟨hv, he⟩ := Option.ite_none_right_eq_some.mp h
    exact ⟨d, fits_of_read? hr, hv, Option.some.inj he⟩
  · cases h

/-- **The canonical text of a date-time is its own canonical text.**  It is read as the normal
form, which is as valid and is written in the same way. -/
theorem canonical?_idem {text canonical : List Char} (h : canonical? text = some canonical) :
    canonical? canonical = some canonical := by
  obtain ⟨d, hf, hv, rfl⟩ := exists_of_canonical? h
  simp only [canonical?, read?_write hf, isValid_normal, hv, if_true, write_normal]

/-- A date-time that is written is no number.  Its first digits are followed by a dash in a day
and by a colon in a time. -/
theorem read?_numeral (d : Datetime) : Numeral.read? d.write = none := by
  have hday (day : Day) (rest : List Char) : Numeral.read? (writeDay day ++ rest) = none := by
    have h : Numeral.read? (padded 4 day.year ++ '-' :: (padded 2 day.month
        ++ '-' :: padded 2 day.day ++ rest)) = none :=
      Numeral.read?_of_stop (isDigits_padded 4 day.year) (padded_ne_nil _ _) (.inl rfl)
    simpa [writeDay] using h
  have hclock (clock : Clock) : Numeral.read? (writeClock clock) = none := by
    have h : Numeral.read? (padded 2 clock.hour ++ ':' :: (padded 2 clock.minute
        ++ ':' :: padded 2 clock.second ++ writeFraction clock.fraction)) = none :=
      Numeral.read?_of_stop (isDigits_padded 2 clock.hour) (padded_ne_nil _ _) (.inr rfl)
    simpa [writeClock] using h
  cases d with
  | date day =>
    have := hday day []
    rwa [List.append_nil] at this
  | time clock => exact hclock clock
  | both day clock offset =>
    have := hday day ('T' :: (writeClock clock ++ writeOffset offset))
    simpa [write] using this

end Datetime

namespace Toml

/-- **A token in canonical form is read as the date-time that it is.** -/
theorem tokenValue?_canonical {text : List Char} (h : Datetime.canonical? text = some text) :
    tokenValue? text = some (.datetime (String.ofList text)) := by
  have htrue : text ≠ ['t', 'r', 'u', 'e'] := by
    rintro rfl
    exact absurd h (by decide)
  have hfalse : text ≠ ['f', 'a', 'l', 's', 'e'] := by
    rintro rfl
    exact absurd h (by decide)
  obtain ⟨d, -, -, hd⟩ := Datetime.exists_of_canonical? h
  have hnumber : Numeral.read? text = none := hd ▸ Datetime.read?_numeral d
  rw [tokenValue?, if_neg htrue, if_neg hfalse, hnumber, h]
  rfl

end Toml

end TomlKeep
