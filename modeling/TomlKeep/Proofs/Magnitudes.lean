/-
# Magnitudes and rounding

The magnitudes of the format increase with their rank, and `floorRank` finds the greatest one
that is not above a number (`units_floorRank_le`, `lt_units_floorRank_succ`).  What follows for
rounding:

* the rank of a quotient depends on the quotient alone (`rankOfRatio_congr`);
* a magnitude is read as itself, however it is written (`rankOfRatio_of_units`);
* a decimal is rounded by its size alone where that is too great or too small, and rightly so
  (`ofDecimal_eq_ofRank`).
-/
import Mathlib
import TomlKeep.Binary64.Shortest

namespace TomlKeep.Binary64

/-! ## 1. Ranks and magnitudes

The magnitudes come in blocks of `2 ^ 52` ranks.  In the first two blocks neighbours are one unit
apart, and in each block behind them twice as far as in the one before.  Everything about them is
therefore a fact about one block (`units_block`), once every rank is known to stand in one
(`exists_block`).
-/

theorem blockSize_eq : blockSize = 2 ^ 52 := by decide

theorem blockSize_pos : 0 < blockSize := by decide

/-- The ranks of the first block are their own magnitudes. -/
theorem units_of_lt {rank : Nat} (h : rank < blockSize) : units rank = rank := by
  rw [units, if_pos h]

/-- **The magnitudes of a block:** `t` steps of 2 to the power `k`, the last of them the first of
the next block. -/
theorem units_block {k t : Nat} (h1 : blockSize ≤ t) (h2 : t ≤ 2 * blockSize) :
    units (k * blockSize + t) = t * 2 ^ k := by
  have hpos := blockSize_pos
  have hge : ¬ k * blockSize + t < blockSize := by
    have := Nat.zero_le (k * blockSize)
    omega
  rw [units, if_neg hge, Nat.pow_eq]
  rcases Nat.lt_or_eq_of_le h2 with hlt | rfl
  · obtain ⟨m, rfl⟩ := Nat.exists_eq_add_of_le h1
    have hm : m < blockSize := by omega
    have hsplit : k * blockSize + (blockSize + m) = m + blockSize * (k + 1) := by ring
    rw [hsplit, Nat.add_mul_mod_self_left, Nat.add_mul_div_left _ _ hpos, Nat.mod_eq_of_lt hm,
      Nat.div_eq_of_lt hm, Nat.zero_add, Nat.add_sub_cancel]
  · have hsplit : k * blockSize + 2 * blockSize = blockSize * (k + 2) := by ring
    rw [hsplit, Nat.mul_mod_right, Nat.mul_div_cancel_left _ hpos, Nat.add_zero,
      show k + 2 - 1 = k + 1 from rfl, pow_succ]
    ring

/-- Every rank stands in a block. -/
theorem exists_block {rank : Nat} (h : blockSize ≤ rank) :
    ∃ k t, rank = k * blockSize + t ∧ blockSize ≤ t ∧ t < 2 * blockSize := by
  have hpos := blockSize_pos
  have hdiv : 0 < rank / blockSize := Nat.div_pos h hpos
  obtain ⟨k, hk⟩ : ∃ k, rank / blockSize = k + 1 := ⟨rank / blockSize - 1, by omega⟩
  have hmod := Nat.mod_lt rank hpos
  refine ⟨k, blockSize + rank % blockSize, ?_, by omega, by omega⟩
  have hsplit := Nat.div_add_mod rank blockSize
  rw [hk] at hsplit
  calc rank = blockSize * (k + 1) + rank % blockSize := hsplit.symm
    _ = k * blockSize + (blockSize + rank % blockSize) := by ring

/-- Neighbours increase.  Inside a block this is a step of its width, and the last magnitude of a
block is below the first of the next one since `units_block` covers that one, too. -/
theorem units_lt_units_succ (rank : Nat) : units rank < units (rank + 1) := by
  by_cases h : rank < blockSize
  · rw [units_of_lt h]
    -- the next rank is in the first block as well, or it opens the second
    rcases Nat.lt_or_eq_of_le (Nat.succ_le_of_lt h) with hlt | heq
    · rw [units_of_lt hlt]
      exact Nat.lt_succ_self rank
    · have hblock := units_block (k := 0) (le_refl blockSize) (by omega)
      rw [Nat.zero_mul, Nat.zero_add, pow_zero, Nat.mul_one] at hblock
      rw [show rank + 1 = blockSize from heq, hblock]
      exact h
  · obtain ⟨k, t, rfl, h1, h2⟩ := exists_block (Nat.le_of_not_lt h)
    rw [Nat.add_assoc, units_block h1 (Nat.le_of_lt h2), units_block (by omega) (by omega)]
    exact Nat.mul_lt_mul_of_pos_right (Nat.lt_succ_self t) (by positivity)

/-- **Magnitudes increase with their rank.** -/
theorem units_strictMono : StrictMono units := strictMono_nat_of_lt_succ units_lt_units_succ

/-- A number that is not in the first two blocks, as the steps of its block.  The length of the
number in binary gives the block, and what is left of it when its last `k` bits are dropped gives
the steps. -/
theorem floorRank_steps {n : Nat} (h : 2 * blockSize ≤ n) : ∃ k t, floorRank n = k * blockSize + t
    ∧ blockSize ≤ t ∧ t < 2 * blockSize ∧ t * 2 ^ k ≤ n ∧ n < (t + 1) * 2 ^ k := by
  have hn : n ≠ 0 := by
    have := blockSize_pos
    omega
  have hlog : 53 ≤ n.log2 := by
    rw [Nat.le_log2 hn]
    calc 2 ^ 53 = 2 * blockSize := by decide
      _ ≤ n := h
  obtain ⟨k, hk⟩ := Nat.exists_eq_add_of_le (show 52 ≤ n.log2 by omega)
  -- the number has `53 + k` binary digits, so `53` of them are left of the last `k`
  have hlow : 2 ^ (52 + k) ≤ n := hk ▸ Nat.log2_self_le hn
  have hhigh : n < 2 ^ (53 + k) := by
    have := @Nat.lt_log2_self n
    rwa [hk, show 52 + k + 1 = 53 + k by omega] at this
  have hpow : 0 < 2 ^ k := by positivity
  refine ⟨k, n / 2 ^ k, ?_, ?_, ?_, Nat.div_mul_le_self n _, ?_⟩
  · simp only [floorRank, if_neg (Nat.not_lt.mpr h), hk, Nat.add_sub_cancel_left, Nat.pow_eq]
  · rw [blockSize_eq, Nat.le_div_iff_mul_le hpow, ← pow_add]
    exact hlow
  · rw [Nat.div_lt_iff_lt_mul hpow, blockSize_eq, ← pow_succ', ← pow_add]
    exact hhigh
  · rw [Nat.add_mul, Nat.one_mul]
    exact Nat.lt_div_mul_add hpow

/-- The rank that is found is not above the number. -/
theorem units_floorRank_le (n : Nat) : units (floorRank n) ≤ n := by
  by_cases h : n < 2 * blockSize
  · rw [floorRank, if_pos h]
    by_cases h1 : n < blockSize
    · exact (units_of_lt h1).le
    · have := units_block (k := 0) (Nat.le_of_not_lt h1) h.le
      simpa using this.le
  · obtain ⟨k, t, hf, h1, h2, hle, -⟩ := floorRank_steps (Nat.le_of_not_lt h)
    rw [hf, units_block h1 h2.le]
    exact hle

/-- The next rank is above the number. -/
theorem lt_units_floorRank_succ (n : Nat) : n < units (floorRank n + 1) := by
  by_cases h : n < 2 * blockSize
  · rw [floorRank, if_pos h]
    by_cases h1 : n + 1 < blockSize
    · rw [units_of_lt h1]
      exact Nat.lt_succ_self n
    · have := units_block (k := 0) (Nat.le_of_not_lt h1) (Nat.succ_le_of_lt h)
      rw [Nat.zero_mul, Nat.zero_add, pow_zero, Nat.mul_one] at this
      rw [this]
      exact Nat.lt_succ_self n
  · obtain ⟨k, t, hf, h1, h2, -, hlt⟩ := floorRank_steps (Nat.le_of_not_lt h)
    rw [hf, Nat.add_assoc, units_block (by omega) (by omega)]
    exact hlt

/-- **The rank of a number is at least `rank`** if the magnitude of `rank` is not above it.  So
`floorRank` and `units` are adjoint, and nothing else about `floorRank` is used for rounding. -/
theorem le_floorRank_iff {rank n : Nat} : rank ≤ floorRank n ↔ units rank ≤ n := by
  constructor
  · intro h
    exact (units_strictMono.monotone h).trans (units_floorRank_le n)
  · intro h
    have hlt : units rank < units (floorRank n + 1) := h.trans_lt (lt_units_floorRank_succ n)
    exact Nat.lt_succ_iff.mp (units_strictMono.lt_iff_lt.mp hlt)

/-- A magnitude is found as itself: nothing is lost between `units` and `floorRank`. -/
theorem floorRank_units (rank : Nat) : floorRank (units rank) = rank := by
  refine Nat.le_antisymm ?_ (le_floorRank_iff.mpr (le_refl _))
  exact units_strictMono.le_iff_le.mp (units_floorRank_le _)

/-! ## 2. Rounding

A quotient is rounded to the rank at or below it, or to the next one, by comparing it with the
middle between the two.  The comparison is made without division, so a common factor of both numbers
does no harm; that is why a number may be written with any power of ten.
-/

/-- A common factor of both numbers is a factor on both sides of every comparison. -/
theorem rankOfRatio_scale {num den k : Nat} (hk : 0 < k) :
    rankOfRatio (num * k) (den * k) = rankOfRatio num den := by
  have hdiv : num * k * unitsPerOne / (den * k) = num * unitsPerOne / den := by
    rw [Nat.mul_right_comm, Nat.mul_div_mul_right _ _ hk]
  have hmiddle (m : Nat) : den * k * m = den * m * k := Nat.mul_right_comm _ _ _
  have htwice : 2 * (num * k * unitsPerOne) = 2 * (num * unitsPerOne) * k := by ring
  simp only [rankOfRatio, hdiv, hmiddle, htwice, Nat.mul_lt_mul_right hk]

/-- **The rank of a quotient depends on the quotient alone.** -/
theorem rankOfRatio_congr {a b c d : Nat} (hb : 0 < b) (hd : 0 < d) (h : a * d = c * b) :
    rankOfRatio a b = rankOfRatio c d := by
  rw [← rankOfRatio_scale (k := d) hd, h, Nat.mul_comm b d, rankOfRatio_scale hb]

/-- Rounding goes up or not at all from the rank that is found first. -/
theorem floorRank_le_rankOfRatio (num den : Nat) :
    floorRank (num * unitsPerOne / den) ≤ rankOfRatio num den := by
  unfold rankOfRatio
  simp only
  split
  · exact le_refl _
  · split <;> omega

/-- A quotient is not rounded below a magnitude that is not above it. -/
theorem le_rankOfRatio {rank num den : Nat} (hd : 0 < den)
    (h : units rank * den ≤ num * unitsPerOne) : rank ≤ rankOfRatio num den := by
  have hfloor : rank ≤ floorRank (num * unitsPerOne / den) := by
    rw [le_floorRank_iff, Nat.le_div_iff_mul_le hd]
    exact h
  exact hfloor.trans (floorRank_le_rankOfRatio num den)

/-- **A magnitude is read as itself.**  It is found by its rank, and it is nearer to itself than
to the middle between it and the next one. -/
theorem rankOfRatio_of_units {rank num den : Nat} (hd : 0 < den)
    (h : num * unitsPerOne = units rank * den) : rankOfRatio num den = rank := by
  have hfloor : floorRank (num * unitsPerOne / den) = rank := by
    rw [h, Nat.mul_div_cancel _ hd, floorRank_units]
  -- the middle is above the magnitude, so it is not rounded up
  have hlt : 2 * (num * unitsPerOne) < den * (units rank + units (rank + 1)) := by
    calc 2 * (num * unitsPerOne) = den * (units rank + units rank) := by rw [h]; ring
      _ < den * (units rank + units (rank + 1)) :=
        Nat.mul_lt_mul_of_pos_left (Nat.add_lt_add_left (units_lt_units_succ rank) _) hd
  simp only [rankOfRatio, hfloor, if_pos hlt]

/-- What is less than half a unit is rounded to zero. -/
theorem rankOfRatio_eq_zero {num den : Nat} (h : 2 * (num * unitsPerOne) < den) :
    rankOfRatio num den = 0 := by
  have hfloor : floorRank (num * unitsPerOne / den) = 0 := by
    rw [Nat.div_eq_of_lt (by omega)]
    exact floorRank_units 0
  have hone : units 0 + units (0 + 1) = 1 := by decide
  have hmiddle : 2 * (num * unitsPerOne) < den * (units 0 + units (0 + 1)) := by
    rw [hone, Nat.mul_one]
    exact h
  simp only [rankOfRatio, hfloor, if_pos hmiddle]

/-! ## 3. Decimals

A decimal is a quotient whose one number is a power of ten: the exponent stands above the line or
below it, as its sign tells.  That a zero may go from the significand into the exponent is said for
both, and it is the common factor of a quotient only where the exponent stays below the line.
-/

namespace Decimal

/-- The rank of a decimal with a negative exponent. -/
theorem rank_neg (significand k : Nat) :
    rank ⟨significand, -(k : Int)⟩ = rankOfRatio significand (10 ^ k) := by
  cases k with
  | zero => simp [rank]
  | succ k =>
    have hneg : ¬ (0 : Int) ≤ -((k + 1 : Nat) : Int) := by omega
    rw [rank, if_neg hneg, Int.neg_neg, Int.toNat_natCast, Nat.pow_eq]

/-- The rank of a decimal with an exponent that is not negative. -/
theorem rank_nonneg (significand k : Nat) :
    rank ⟨significand, (k : Int)⟩ = rankOfRatio (significand * 10 ^ k) 1 := by
  simp [rank]

/-- **A zero at the end of the significand** may go into the exponent. -/
theorem rank_mul_ten (significand : Nat) (exponent : Int) :
    rank ⟨significand * 10, exponent⟩ = rank ⟨significand, exponent + 1⟩ := by
  -- one more in the exponent keeps it on its side of the line; a zero exponent stands on both
  obtain ⟨k, rfl | rfl⟩ := exponent.eq_nat_or_neg
  · rw [rank_nonneg, show ((k : Int) + 1) = ((k + 1 : Nat) : Int) by push_cast; rfl, rank_nonneg,
      pow_succ]
    congr 1
    ring
  · cases k with
    | zero =>
      have h0 := rank_nonneg (significand * 10) 0
      have h1 := rank_nonneg significand 1
      simp only [pow_zero, pow_one, Nat.mul_one] at h0 h1
      exact h0.trans h1.symm
    | succ k =>
      rw [rank_neg, show -((k + 1 : Nat) : Int) + 1 = -(k : Int) by push_cast; ring, rank_neg,
        pow_succ]
      exact rankOfRatio_scale (by decide)

/-- The same for any number of zeros. -/
theorem rank_mul_pow (significand : Nat) : ∀ (zeros : Nat) (exponent : Int),
    rank ⟨significand * 10 ^ zeros, exponent⟩ = rank ⟨significand, exponent + zeros⟩
  | 0, exponent => by simp
  | zeros + 1, exponent => by
    rw [pow_succ, ← Nat.mul_assoc, rank_mul_ten, rank_mul_pow significand zeros]
    congr 2
    push_cast
    ring

/-- The zeros that are taken off do not change the rank. -/
theorem rank_stripZeros : ∀ (fuel : Nat) (d : Decimal), (d.stripZeros fuel).rank = d.rank
  | 0, _ => rfl
  | fuel + 1, ⟨significand, exponent⟩ => by
    rw [stripZeros]
    split
    · next h =>
      have hten : significand / 10 * 10 = significand :=
        Nat.div_mul_cancel (Nat.dvd_of_mod_eq_zero h.1)
      rw [rank_stripZeros fuel, ← rank_mul_ten, hten]
    · rfl

/-- A decimal of nothing is nothing, whatever its exponent. -/
theorem rank_zero (exponent : Int) : rank ⟨0, exponent⟩ = 0 := by
  have hunits : units 0 = 0 := units_of_lt blockSize_pos
  obtain ⟨k, rfl | rfl⟩ := exponent.eq_nat_or_neg
  · rw [rank_nonneg]
    exact rankOfRatio_of_units Nat.one_pos
      (by rw [hunits, Nat.zero_mul, Nat.zero_mul, Nat.zero_mul])
  · rw [rank_neg]
    exact rankOfRatio_of_units (by positivity) (by rw [hunits, Nat.zero_mul, Nat.zero_mul])

end Decimal

/-- The powers of ten are those of five moved by binary places; so a quotient of two numbers of
units has a decimal that ends. -/
theorem ten_pow (k : Nat) : 10 ^ k = 5 ^ k * 2 ^ k := by
  rw [← Nat.mul_pow]

/-- The decimal with all digits of a magnitude reads back, since it is the magnitude. -/
theorem rank_exactDecimal (rank : Nat) : (exactDecimal rank).rank = rank := by
  have hexponent : (exactDecimal rank) = ⟨units rank * 5 ^ 1074, -((1074 : Nat) : Int)⟩ := rfl
  rw [hexponent, Decimal.rank_neg]
  refine rankOfRatio_of_units (by positivity) ?_
  rw [ten_pow, unitsPerOne, Nat.pow_eq, Nat.mul_assoc]

/-- **The shortest decimal reads back.**  It is looked for among the candidates that do, and
where none is found all digits are written.  Which of two candidates equally near is taken makes
no difference here. -/
theorem rank_shortest (tie : Tie) (rank : Nat) : (shortest tie rank).rank = rank := by
  unfold shortest
  split
  · next h =>
    subst h
    exact Decimal.rank_zero 0
  · split
    · next d hd =>
      rw [Decimal.rank_stripZeros]
      simpa [Decimal.reads] using reads_of_firstReading hd
    · exact rank_exactDecimal rank

/-! ## 4. Decimals far outside the range

The digits in front of the point, or the zeros behind it, tell the size of a decimal.  Far outside
the range that is decided before any power of ten is computed.  Here it is shown that the short cut
gives what rounding would give: the greatest magnitude has less than 311 digits, and half a unit has
323 zeros behind its point.
-/

/-- A number is at least the power of ten that has as many zeros as it has digits behind its
first. -/
theorem le_of_length_toDigits {n k : Nat} (hn : n ≠ 0) (h : k < (Nat.toDigits 10 n).length) :
    10 ^ k ≤ n := by
  by_contra hlt
  cases k with
  | zero => simp at hlt; omega
  | succ k =>
    have := (Nat.length_toDigits_le_iff (n := n) (b := 10) (k := k + 1) (by decide)
      (by omega)).mpr (by omega)
    omega

/-- A number is below the power of ten with one zero for each of its digits. -/
theorem lt_of_length_toDigits (n : Nat) : n < 10 ^ (Nat.toDigits 10 n).length :=
  (Nat.length_toDigits_le_iff (b := 10) (by decide) Nat.length_toDigits_pos).mp (le_refl _)

/-- A decimal of more than 310 digits before its point is beyond the format. -/
theorem maxRank_le_rank {significand : Nat} (hs : significand ≠ 0) {exponent : Int}
    (h : 310 < exponent + (Nat.toDigits 10 significand).length) :
    maxRank ≤ Decimal.rank ⟨significand, exponent⟩ := by
  have hmax : units maxRank ≤ 10 ^ 310 * unitsPerOne := by decide +kernel
  have hlen := Nat.length_toDigits_pos (b := 10) (n := significand)
  have hpow := le_of_length_toDigits hs (Nat.sub_lt hlen Nat.one_pos)
  -- a power above the line adds zeros to the significand; one below moves the point to the left
  obtain ⟨k, rfl | rfl⟩ := exponent.eq_nat_or_neg
  · rw [Decimal.rank_nonneg]
    refine le_rankOfRatio Nat.one_pos ?_
    rw [Nat.mul_one]
    refine hmax.trans (Nat.mul_le_mul_right _ ?_)
    calc 10 ^ 310 ≤ 10 ^ ((Nat.toDigits 10 significand).length - 1 + k) :=
          Nat.pow_le_pow_right (by decide) (by omega)
      _ = 10 ^ ((Nat.toDigits 10 significand).length - 1) * 10 ^ k := pow_add _ _ _
      _ ≤ significand * 10 ^ k := Nat.mul_le_mul_right _ hpow
  · rw [Decimal.rank_neg]
    refine le_rankOfRatio (by positivity) ?_
    calc units maxRank * 10 ^ k ≤ 10 ^ 310 * unitsPerOne * 10 ^ k := Nat.mul_le_mul_right _ hmax
      _ = 10 ^ (310 + k) * unitsPerOne := by rw [pow_add]; ring
      _ ≤ 10 ^ ((Nat.toDigits 10 significand).length - 1) * unitsPerOne :=
        Nat.mul_le_mul_right _ (Nat.pow_le_pow_right (by decide) (by omega))
      _ ≤ significand * unitsPerOne := Nat.mul_le_mul_right _ hpow

/-- A decimal with more than 330 zeros behind its point is nothing to the format. -/
theorem rank_eq_zero {significand : Nat} {exponent : Int}
    (h : exponent + (Nat.toDigits 10 significand).length < -330) :
    Decimal.rank ⟨significand, exponent⟩ = 0 := by
  have hunit : 2 * unitsPerOne < 10 ^ 330 := by decide +kernel
  have hpow := lt_of_length_toDigits significand
  -- an exponent that is not negative leaves no zeros behind the point
  obtain ⟨k, rfl | rfl⟩ := exponent.eq_nat_or_neg
  · omega
  · rw [Decimal.rank_neg]
    refine rankOfRatio_eq_zero ?_
    calc 2 * (significand * unitsPerOne) = significand * (2 * unitsPerOne) := by ring
      _ ≤ significand * 10 ^ 330 := Nat.mul_le_mul_left _ hunit.le
      _ < 10 ^ (Nat.toDigits 10 significand).length * 10 ^ 330 :=
        Nat.mul_lt_mul_of_pos_right hpow (by positivity)
      _ = 10 ^ ((Nat.toDigits 10 significand).length + 330) := (pow_add _ _ _).symm
      _ ≤ 10 ^ k := Nat.pow_le_pow_right (by decide) (by omega)

/-- **A decimal is read as the number of its rank,** whatever its size. -/
theorem ofDecimal_eq_ofRank (negative : Bool) (significand : Nat) (exponent : Int) :
    ofDecimal negative significand exponent
      = ofRank negative (Decimal.rank ⟨significand, exponent⟩) := by
  -- the four cases of the reader: nothing, too great, too small, and what is rounded in earnest
  unfold ofDecimal
  split
  · next h =>
    subst h
    rw [Decimal.rank_zero]
    rfl
  · next hs =>
    simp only
    split
    · next h =>
      rw [ofRank, dif_neg (Nat.not_lt.mpr (maxRank_le_rank hs (by simpa using h)))]
    · split
      · next h =>
        rw [rank_eq_zero (by simpa using h)]
        rfl
      · rw [Decimal.rank]
        split <;> rfl

end TomlKeep.Binary64
