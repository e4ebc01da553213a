/-
# Short decimals in JSON

A float of JSON is read in two rounded steps: its digits as a whole number, and then the product
or the quotient of that number and a power of ten.  If the digits make up no more than 2 to the
power 53, and the power of ten is at most the 22nd, then both are magnitudes of the format, only
the last step is rounded, and the float is the one nearest to the decimal (`scaled?_of_short`).

So a float is read as it was written if its shortest decimal is short in this sense
(`read?_writeFloat_of_short`); others may come back one step away.
-/
import TomlKeep.Proofs.JsonText
import TomlKeep.Proofs.Magnitudes

namespace TomlKeep.Json

open Numeral Binary64

/-! ## 1. Whole numbers that are magnitudes

The magnitudes of the format come in blocks, each with as many of them as the others and evenly
spaced.  A whole number of 53 binary digits is moved up by powers of two until it lies in the first
block, and there it is one of them.
-/

/-- A number is moved up into a block.  Its highest binary digit says how far; the one number
with 54 digits, 2 to the power 53, is the upper end of a block. -/
theorem exists_shift {m : Nat} (h0 : m ≠ 0) (hm : m ≤ 2 ^ 53) :
    ∃ a, a ≤ 52 ∧ blockSize ≤ m * 2 ^ a ∧ m * 2 ^ a ≤ 2 * blockSize := by
  rw [blockSize_eq]
  have hlow := Nat.log2_self_le h0
  have hhigh : m < 2 ^ (m.log2 + 1) := Nat.lt_log2_self
  -- all of them but the last have 53 digits at most
  by_cases hlog : m.log2 ≤ 52
  · refine ⟨52 - m.log2, Nat.sub_le _ _, ?_, ?_⟩
    · calc 2 ^ 52 = 2 ^ m.log2 * 2 ^ (52 - m.log2) := by rw [← Nat.pow_add]; congr 1; omega
        _ ≤ m * 2 ^ (52 - m.log2) := Nat.mul_le_mul_right _ hlow
    · calc m * 2 ^ (52 - m.log2) ≤ 2 ^ (m.log2 + 1) * 2 ^ (52 - m.log2) :=
          Nat.mul_le_mul_right _ hhigh.le
        _ = 2 * 2 ^ 52 := by rw [← Nat.pow_add, ← Nat.pow_succ']; congr 1; omega
  · have hge : 2 ^ 53 ≤ 2 ^ m.log2 := Nat.pow_le_pow_right (by decide) (by omega)
    exact ⟨0, by decide, by omega, by omega⟩

/-- The number of units in one is a power of two. -/
theorem exists_unitsPerOne_eq : ∃ e, 52 ≤ e ∧ unitsPerOne = 2 ^ e :=
  ⟨1074, by decide, by decide +kernel⟩

/-- There is a unit at least in one. -/
theorem unitsPerOne_pos : 0 < unitsPerOne := by
  obtain ⟨e, -, he⟩ := exists_unitsPerOne_eq
  rw [he]
  exact Nat.two_pow_pos e

/-- **A whole number with at most 53 digits in base two,** times a power of two, is a magnitude. -/
theorem exists_units_eq {m : Nat} (hm : m ≤ 2 ^ 53) (k : Nat) :
    ∃ rank, units rank = m * 2 ^ k * unitsPerOne := by
  by_cases h0 : m = 0
  · exact ⟨0, by simp [h0, units_of_lt blockSize_pos]⟩
  obtain ⟨a, ha, hlow, hhigh⟩ := exists_shift h0 hm
  obtain ⟨e, he, hunits⟩ := exists_unitsPerOne_eq
  refine ⟨(k + e - a) * blockSize + m * 2 ^ a, ?_⟩
  -- what the number is moved up by is taken off the block it is moved from
  have hsum : a + (k + e - a) = k + e := by omega
  rw [units_block hlow hhigh, Nat.mul_assoc, ← Nat.pow_add, hsum, hunits, Nat.mul_assoc,
    ← Nat.pow_add]

/-- Such a number is read as itself. -/
theorem units_rankOfRatio {m : Nat} (hm : m ≤ 2 ^ 53) (k : Nat) :
    units (rankOfRatio (m * 2 ^ k) 1) = m * 2 ^ k * unitsPerOne := by
  obtain ⟨rank, hrank⟩ := exists_units_eq hm k
  rw [rankOfRatio_of_units Nat.one_pos (by rw [Nat.mul_one, hrank]), hrank]

/-- So is each power of ten up to the 22nd: the power of five in it has 53 digits at most, and
the power of two costs nothing. -/
theorem units_power {k : Nat} (hk : k ≤ 22) :
    units (rankOfRatio (Nat.pow 10 k) 1) = 10 ^ k * unitsPerOne := by
  have hfive : 5 ^ k ≤ 2 ^ 53 :=
    (Nat.pow_le_pow_right (by decide) hk).trans (by decide)
  rw [Nat.pow_eq, ten_pow]
  exact units_rankOfRatio hfive k

/-! ## 2. Decimals that are short

The power of ten is one factor of the product, or the divisor of the quotient.  Both the number and
the power being exact, the one rounding of the last step is that of the decimal itself.
-/

/-- **A short decimal:** its significand and its power of ten are magnitudes. -/
structure IsShort (d : Decimal) : Prop where
  significand : d.significand ≤ 2 ^ 53
  low : -22 ≤ d.exponent
  high : d.exponent ≤ 22

/-- **A short decimal is rounded once.**  The rank that the reader comes to and that of the
decimal are the nearest to two equal fractions. -/
theorem scaled?_of_short {d : Decimal} (h : IsShort d) (hr : d.rank < maxRank) :
    scaled? d.significand d.exponent = some ⟨d.rank, hr⟩ := by
  obtain ⟨significand, exponent⟩ := d
  obtain ⟨hs, hlow, hhigh⟩ := h
  simp only at hs hlow hhigh
  have hone := unitsPerOne_pos
  have hunits : units (rankOfRatio significand 1) = significand * unitsPerOne := by
    have := units_rankOfRatio hs 0
    rwa [Nat.pow_zero, Nat.mul_one] at this
  have hrank : (if 0 ≤ exponent then
      if exponent ≤ 308 then timesPower (rankOfRatio significand 1) exponent.toNat
      else if rankOfRatio significand 1 = 0 then 0
      else maxRank
    else overPowers 5 (rankOfRatio significand 1) (-exponent).toNat)
      = Decimal.rank ⟨significand, exponent⟩ := by
    -- a product for a power above one, a quotient for one below
    by_cases hpos : 0 ≤ exponent
    · obtain ⟨k, rfl⟩ := Int.eq_ofNat_of_zero_le hpos
      rw [if_pos hpos, if_pos (by omega), Decimal.rank_nonneg, timesPower, hunits,
        Int.toNat_natCast, units_power (by omega)]
      exact rankOfRatio_congr (Nat.mul_pos hone hone) Nat.one_pos (by ring)
    · obtain ⟨k, hk⟩ := Int.eq_ofNat_of_zero_le (Int.neg_nonneg_of_nonpos (by omega : exponent ≤ 0))
      obtain rfl : exponent = -(k : Int) := by omega
      rw [if_neg hpos, Decimal.rank_neg, Int.neg_neg, Int.toNat_natCast, overPowers,
        if_pos (by omega), overPower, hunits, units_power (by omega)]
      exact rankOfRatio_congr (Nat.mul_pos (Nat.pow_pos (by decide)) hone) (Nat.pow_pos (by decide))
        (by ring)
  simp only [scaled?, hrank, hr, dif_pos]

/-- The bound is sharp up to a digit: 2 to the power 53 less one, with a zero behind its point,
is read as another number. -/
example : (scaled? 90071992547409910 (-1)).map (·.val) ≠ some (rankOfRatio 9007199254740991 1) := by
  decide +kernel

/-! ## 3. Digits that fit

The digits are read into a word of 64 bits, and those that do not fit are dropped.  A short decimal
fits, so nothing is dropped of it, neither in front of the point nor behind.
-/

/-- The first digit counts for the length of the rest. -/
theorem ofDigits_cons {c : Char} {rest : List Char} (h : IsDigits (c :: rest)) :
    ofDigits 10 (c :: rest) = digitValue c * 10 ^ rest.length + ofDigits 10 rest := by
  obtain ⟨hc, hrest⟩ := List.forall_mem_cons.mp h
  have hone : ofDigits 10 [c] = digitValue c := by simp [ofDigits]
  rw [← List.singleton_append, ofDigits_append (by simpa [IsDigits] using hc) hrest, hone]

/-- **Digits are all taken** if the number that they make up fits. -/
theorem absorb_eq : ∀ {digits : List Char} {n : Nat}, IsDigits digits →
    n * 10 ^ digits.length + ofDigits 10 digits ≤ maxWord →
      absorb n digits = (n * 10 ^ digits.length + ofDigits 10 digits, digits.length)
  | [], n, _, _ => by simp [absorb, ofDigits]
  -- what is read already and the next digit fit, as the whole does
  | c :: rest, n, h, hmax => by
    have hrest := (List.forall_mem_cons.mp h).2
    have hsplit : n * 10 ^ (c :: rest).length + ofDigits 10 (c :: rest)
        = (n * 10 + digitValue c) * 10 ^ rest.length + ofDigits 10 rest := by
      rw [ofDigits_cons h, List.length_cons, pow_succ]
      ring
    rw [hsplit] at hmax ⊢
    have hnext : n * 10 + digitValue c ≤ maxWord := by
      have hpos : 0 < 10 ^ rest.length := Nat.pow_pos (by decide)
      exact (Nat.le_mul_of_pos_right _ hpos).trans ((Nat.le_add_right _ _).trans hmax)
    simp only [absorb, if_pos hnext, absorb_eq hrest hmax, List.length_cons]

/-- The float of a number whose digits fit is that of its decimal. -/
theorem float?_of_fits {s : Spelling} (h : s.Proper) (hs : s.decimal.significand ≤ maxWord)
    (hp : s.power.natAbs ≤ maxExponent) :
    s.float? = (scaled? s.decimal.significand s.decimal.exponent).map
      fun rank => .float (.finite s.negative rank) := by
  have hfraction : IsDigits (s.fraction.getD []) := by
    cases hf : s.fraction with
    | none => simp [IsDigits]
    | some digits => exact (h.fraction digits hf).1
  have hall : s.decimal.significand = ofDigits 10 s.whole * 10 ^ (s.fraction.getD []).length
      + ofDigits 10 (s.fraction.getD []) := ofDigits_append h.whole.isDigits hfraction
  rw [hall] at hs
  -- the whole part fits since the whole with its fraction does
  have hwhole : ofDigits 10 s.whole ≤ maxWord := by
    have hpos : 0 < 10 ^ (s.fraction.getD []).length := Nat.pow_pos (by decide)
    exact (Nat.le_mul_of_pos_right _ hpos).trans ((Nat.le_add_right _ _).trans hs)
  have hfront : absorb 0 s.whole = (ofDigits 10 s.whole, s.whole.length) := by
    have := absorb_eq (n := 0) h.whole.isDigits (by simpa using hwhole)
    simpa using this
  have hexponent :
      ((s.whole.length - s.whole.length : Nat) : Int) - ((s.fraction.getD []).length : Int)
      + s.power = s.decimal.exponent := by
    simp only [Spelling.decimal]
    omega
  rw [float?_eq]
  simp only [hfront, absorb_eq hfraction hs, if_neg (Nat.not_lt_of_le hp), hexponent, hall]

/-! ## 4. Floats that are read as they were written

What is written for a float is its shortest decimal, which reads as the float in exact arithmetic.
So it is enough that this decimal is short, as it is spelled: a float that is written out with a
point has one zero more behind it.
-/

/-- A number whose decimal is short is read as the float nearest to it. -/
theorem read?_text_of_short {s : Spelling} (h : s.Proper)
    (hf : s.fraction ≠ none ∨ s.exponent ≠ none) (hp : s.power.natAbs ≤ maxExponent)
    (hs : IsShort s.decimal) {rank : Fin maxRank} (hr : s.decimal.rank = rank.val) :
    read? s.text = some (.float (.finite s.negative rank)) := by
  have hlt : s.decimal.rank < maxRank := hr ▸ rank.isLt
  have hfits : s.decimal.significand ≤ maxWord := hs.significand.trans (by decide)
  have hrank : (⟨s.decimal.rank, hlt⟩ : Fin maxRank) = rank := Fin.ext hr
  rw [(scalarText_number h).read?_eq, value?_eq_float? hf, float?_of_fits h hfits hp,
    scaled?_of_short hs hlt, Option.map_some, hrank]

/-- Zero is read as it was written, with its sign. -/
theorem read?_writeFloat_zero (negative : Bool) :
    read? (writeFloat (zero negative)) = some (.float (zero negative)) := by
  have hdecimal : (zeroSpelling negative).decimal = ⟨0, -1⟩ := rfl
  have hwrite : writeFloat (zero negative) = (zeroSpelling negative).text :=
    (text_zeroSpelling negative).symm
  rw [hwrite]
  refine read?_text_of_short (proper_zeroSpelling negative) (.inl (by simp [zeroSpelling]))
    (Nat.zero_le _) ?_
    (by rw [hdecimal, Decimal.rank_zero])
  rw [hdecimal]
  exact ⟨by decide, by decide, by decide⟩

/-- **A float is read as it was written** if its shortest decimal is short, also with one more zero
behind it. -/
theorem read?_writeFloat_of_short (negative : Bool) (rank : Fin maxRank)
    (hs : (shortest .even rank.val).significand
      * 10 ^ ((shortest .even rank.val).exponent.toNat + 1) ≤ 2 ^ 53)
    (hlow : -21 ≤ (shortest .even rank.val).exponent) :
    read? (writeFloat (.finite negative rank)) = some (.float (.finite negative rank)) := by
  by_cases h0 : rank.val = 0
  · obtain rfl : rank = ⟨0, by decide⟩ := Fin.ext h0
    exact read?_writeFloat_zero negative
  obtain ⟨s, hproper, htext, rfl, hfloat, hpower, zeros, hzeros, hsignificand, hexponent⟩ :=
    exists_spelling_float negative h0
  have hrank := rank_shortest .even rank.val
  have hne := significand_shortest_ne .even h0
  generalize shortest .even rank.val = d at hs hlow hpower hzeros hsignificand hexponent hrank hne
  -- the number has at most 16 digits, so its exponent is small
  have hsmall : 2 ^ 53 < 10 ^ 16 := by decide
  have hhigh : d.exponent.toNat + 1 ≤ 16 := by
    by_contra hlt
    have hpow : 10 ^ 16 ≤ 10 ^ (d.exponent.toNat + 1) := Nat.pow_le_pow_right (by decide) (by omega)
    have hmul := Nat.le_mul_of_pos_left (10 ^ (d.exponent.toNat + 1)) (Nat.pos_of_ne_zero hne)
    omega
  have hlength : d.digits.length ≤ 16 := by
    by_contra hlt
    have hpow : 10 ^ 16 ≤ d.significand := le_of_length_toDigits hne (Nat.lt_of_not_le hlt)
    have hmul := Nat.le_mul_of_pos_right d.significand (Nat.pow_pos (by decide : 0 < 10)
      (n := d.exponent.toNat + 1))
    omega
  have hwrite : writeFloat (.finite s.negative rank) = s.text := htext.symm
  rw [hwrite]
  -- what remains: the exponent as it is written, the digits, the power of ten from both sides,
  -- and the float that the decimal stands for
  refine read?_text_of_short hproper hfloat ?_ ⟨?_, ?_, ?_⟩ ?_
  · rcases hpower with hpower | hpower
    · rw [hpower]
      decide
    · have hmax : maxExponent = 2147483647 := rfl
      rw [hpower, hmax, Decimal.point]
      omega
  · rw [hsignificand]
    exact (Nat.mul_le_mul_left _ (Nat.pow_le_pow_right (by decide) hzeros)).trans hs
  · omega
  · omega
  · have hsum : d.exponent - zeros + zeros = d.exponent := by omega
    have hdecimal : s.decimal = ⟨d.significand * 10 ^ zeros, d.exponent - zeros⟩ := by
      rw [← hsignificand, ← hexponent]
    rw [hdecimal, Decimal.rank_mul_pow, hsum]
    exact hrank

/-- One tenth is read as it was written. -/
example : read? (writeFloat (.finite false ⟨0x3FB999999999999A, by decide⟩))
    = some (.float (.finite false ⟨0x3FB999999999999A, by decide⟩)) :=
  read?_writeFloat_of_short false _ (by decide +kernel) (by decide +kernel)

end TomlKeep.Json
