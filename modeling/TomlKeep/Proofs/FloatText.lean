/-
# Floats that are written are read

The text of a finite float spells a decimal of its rank, in positional form or with an exponent
(`spells_positional`, `spells_scientific`), and a decimal is read as the number of its rank.  So the
literal of a finite float is read as that float (`Toml.tokenValue?_write`): the sign of a zero is
kept, and no two floats share a literal.
-/
import TomlKeep.Proofs.Digits
import TomlKeep.Proofs.Magnitudes
import TomlKeep.Binary64.Text

namespace TomlKeep

open Binary64 Numeral

/-- **A text that spells a magnitude:** an unsigned decimal of its rank. -/
structure Spells (text : List Char) (rank : Nat) : Prop where
  start : IsPlainStart text
  read : ∀ negative, ∃ significand exponent,
    Numeral.unsigned? negative text = some (.decimal negative significand exponent)
      ∧ Decimal.rank ⟨significand, exponent⟩ = rank

/-- Digits that do not begin with a zero. -/
theorem isWhole_of_head {digits : List Char} (hd : IsDigits digits) (hne : digits ≠ [])
    (hz : digits.head? ≠ some '0') : IsWhole digits :=
  ⟨hd, hne, fun h => absurd h hz⟩

/-- The digits of a number that is not zero do not begin with one. -/
theorem head?_toDigits_ne {n : Nat} (hn : n ≠ 0) : (Nat.toDigits 10 n).head? ≠ some '0' := by
  intro hz
  have hzero := congrArg (ofDigits 10) ((isWhole_toDigits n).zero hz)
  rw [ofDigits_toDigits] at hzero
  exact hn hzero

/-- Digits before and behind a point spell the decimal whose digits they are together; those
behind it lower the exponent. -/
theorem spells_pointed {whole fraction rest : List Char} {exponent : Int} (hw : IsWhole whole)
    (hf : IsDigits fraction) (hne : fraction ≠ []) (hr : Stops rest)
    (he : Numeral.exponent? rest = some exponent) :
    Spells (whole ++ '.' :: (fraction ++ rest))
      (Decimal.rank ⟨ofDigits 10 (whole ++ fraction), exponent - fraction.length⟩) := by
  refine ⟨isPlainStart_append hw.isDigits hw.ne_nil ?_, fun negative => ?_⟩
  · intro d hd
    obtain rfl : '.' = d := by simpa using hd
    decide
  · exact ⟨_, _, unsigned?_pointed hw hf hne hr he negative, rfl⟩

variable {style : FloatStyle}

/-- **The positional form** of a decimal has digits before and behind the point.  They are those
of its significand, with `zeros` more of them if the number is whole.  The point stands before
all digits, behind all of them, or among them, and zeros fill the gap in the first two cases. -/
theorem exists_positional (hm : style.wholeMark = true) {d : Decimal} (hs : d.significand ≠ 0) :
    ∃ whole fraction, ∃ zeros : Nat, style.positional d.digits d.point = whole ++ '.' :: fraction
      ∧ IsWhole whole ∧ IsDigits fraction ∧ fraction ≠ []
      ∧ ofDigits 10 (whole ++ fraction) = d.significand * 10 ^ zeros
      ∧ (zeros : Int) - fraction.length = d.exponent ∧ zeros ≤ d.exponent.toNat + 1 := by
  obtain ⟨significand, exponent⟩ := d
  have hdigits := isDigits_toDigits significand
  have hhead : (Nat.toDigits 10 significand).head? ≠ some '0' := head?_toDigits_ne hs
  have hlen := Nat.length_toDigits_pos (b := 10) (n := significand)
  have hpoint : Decimal.point ⟨significand, exponent⟩
      = (Nat.toDigits 10 significand).length + exponent := rfl
  rw [hpoint, Decimal.digits]
  change significand ≠ 0 at hs
  generalize hd : Nat.toDigits 10 significand = digits at hdigits hhead hlen ⊢
  have hvalue : ofDigits 10 digits = significand := by rw [← hd, ofDigits_toDigits]
  have hnil : digits ≠ [] := List.ne_nil_of_length_pos hlen
  unfold FloatStyle.positional
  split
  · next hp =>
    -- zeros stand between the point and the digits
    have hzeros := isDigits_zeros (-((digits.length : Int) + exponent)).toNat
    refine ⟨['0'], _, 0, rfl, ⟨by simp [IsDigits], by decide, fun _ => rfl⟩, hzeros.append hdigits,
      List.append_ne_nil_of_right_ne_nil _ hnil, ?_, ?_, Nat.zero_le _⟩
    · rw [← List.append_assoc, ← List.replicate_one, List.replicate_append_replicate,
        ofDigits_append (isDigits_zeros _) hdigits, ofDigits_zeros, hvalue, Nat.zero_mul,
        Nat.zero_add, Nat.pow_zero, Nat.mul_one]
    · rw [List.length_append, List.length_replicate]
      push_cast
      omega
  · next hp =>
    split
    · next hle =>
      -- zeros stand between the digits and the point
      obtain ⟨zeros, rfl⟩ : ∃ zeros : Nat, exponent = zeros := ⟨exponent.toNat, by omega⟩
      have hzeros : ((digits.length : Int) + (zeros : Int)).toNat - digits.length
          = zeros := by omega
      have hwhole : IsWhole (digits ++ List.replicate zeros '0') :=
        hd ▸ isWhole_append_zeros hs zeros
      rw [hzeros]
      refine ⟨_, ['0'], zeros + 1, rfl, hwhole, isDigits_zeros 1, by decide, ?_, by simp, by simp⟩
      rw [← List.replicate_one, List.append_assoc, List.replicate_append_replicate,
        ofDigits_append hdigits (isDigits_zeros _), ofDigits_zeros, hvalue, List.length_replicate,
        Nat.add_zero]
    · next hlt =>
      -- the point stands among the digits
      obtain ⟨point, hpt⟩ : ∃ point : Nat, (digits.length : Int) + exponent = point :=
        ⟨((digits.length : Int) + exponent).toNat, by omega⟩
      rw [hpt, Int.toNat_natCast] at hlt ⊢
      have hpos : 0 < point := by omega
      have htake : (digits.take point).head? ≠ some '0' := by
        rw [List.head?_take, if_neg (by omega)]
        exact hhead
      have hfront : digits.take point ≠ [] := by
        rw [ne_eq, List.take_eq_nil_iff, not_or]
        exact ⟨by omega, hnil⟩
      have hback : digits.drop point ≠ [] := by
        rw [ne_eq, List.drop_eq_nil_iff]
        omega
      have htakes : IsDigits (digits.take point) := fun c hc => hdigits c (List.mem_of_mem_take hc)
      refine ⟨_, _, 0, rfl, isWhole_of_head htakes hfront htake,
        fun c hc => hdigits c (List.mem_of_mem_drop hc), hback, ?_, ?_, Nat.zero_le _⟩
      · rw [List.take_append_drop, hvalue, Nat.pow_zero, Nat.mul_one]
      · rw [List.length_drop]
        change (0 : Int) - ((digits.length - point : Nat) : Int) = exponent
        omega

/-- The positional form of a decimal spells it.  The zeros at its end do not change the rank,
since they are taken off the exponent again. -/
theorem spells_positional (hm : style.wholeMark = true) {d : Decimal} (hs : d.significand ≠ 0) :
    Spells (style.positional d.digits d.point) d.rank := by
  obtain ⟨whole, fraction, zeros, htext, hw, hf, hne, hnumber, hexponent, -⟩ :=
    exists_positional hm hs
  have h := spells_pointed hw hf hne stops_nil (rfl : Numeral.exponent? [] = some 0)
  have hzero : (0 : Int) - fraction.length + zeros = d.exponent := by omega
  rw [List.append_nil, ← htext, hnumber, Decimal.rank_mul_pow, hzero] at h
  exact h

/-- The digits of a decimal, the first of them apart.  The exponent that is written counts from
behind the first digit. -/
theorem exists_mantissa {d : Decimal} (hs : d.significand ≠ 0) : ∃ c rest, d.digits = c :: rest
    ∧ IsWhole [c] ∧ IsDigits rest ∧ ofDigits 10 (c :: rest) = d.significand
    ∧ d.point - 1 - rest.length = d.exponent := by
  have hdigits := isDigits_toDigits d.significand
  have hhead : (Nat.toDigits 10 d.significand).head? ≠ some '0' := head?_toDigits_ne hs
  obtain ⟨c, rest, hcons⟩ : ∃ c rest, d.digits = c :: rest :=
    List.exists_cons_of_ne_nil Nat.toDigits_ne_nil
  have hvalue : ofDigits 10 (c :: rest) = d.significand := by
    rw [← hcons, Decimal.digits, ofDigits_toDigits]
  have hpoint : d.point - 1 - rest.length = d.exponent := by
    simp only [Decimal.point, hcons, List.length_cons]
    push_cast
    ring
  rw [← Decimal.digits, hcons] at hdigits hhead
  obtain ⟨hc, hrest⟩ := List.forall_mem_cons.mp hdigits
  exact ⟨c, rest, hcons, isWhole_of_head (by simpa [IsDigits] using hc) (by simp) hhead, hrest,
    hvalue, hpoint⟩

/-- **The form with an exponent** has one digit before the point, and no point if there is no
other. -/
theorem scientific_cons (c : Char) (rest : List Char) (point : Int) :
    style.scientific (c :: rest) point = [c] ++ ((if rest = [] then [] else '.' :: rest)
      ++ 'e' :: ((if point - 1 < 0 then ['-'] else if style.plusSign then ['+'] else [])
        ++ Nat.toDigits 10 (point - 1).natAbs)) := by
  cases rest <;> simp [FloatStyle.scientific]

/-- The form with an exponent spells the decimal.  A plus sign before the exponent could be read
as well, but no literal has one. -/
theorem spells_scientific (hp : style.plusSign = false) {d : Decimal} (hs : d.significand ≠ 0) :
    Spells (style.scientific d.digits d.point) d.rank := by
  obtain ⟨c, rest, hcons, hwhole, hrest, hvalue, hpoint⟩ := exists_mantissa hs
  have hexp : Numeral.exponent? ('e' :: ((if d.point - 1 < 0 then ['-'] else [])
      ++ Nat.toDigits 10 (d.point - 1).natAbs)) = some (d.point - 1) := exponent?_toDigits _
  rw [hcons, scientific_cons, hp]
  simp only [Bool.false_eq_true, if_false]
  split
  · next hnil =>
    -- a single digit, and no point
    subst hnil
    refine ⟨isPlainStart_append hwhole.isDigits hwhole.ne_nil ?_, fun negative => ?_⟩
    · intro e he
      obtain rfl : 'e' = e := by simpa using he
      decide
    · refine ⟨_, _, unsigned?_scientific hwhole hexp negative, ?_⟩
      rw [hvalue]
      congr 2
      simpa using hpoint
  · next hne =>
    have h := spells_pointed hwhole hrest hne (stops_exponent _) hexp
    rw [hpoint, List.singleton_append, List.singleton_append, hvalue] at h
    exact h

/-- Only zero has no digits but zero.  The shortest decimal has the rank of the number, and a
significand of zero would make it zero. -/
theorem significand_shortest_ne (tie : Tie) {rank : Nat} (hr : rank ≠ 0) :
    (shortest tie rank).significand ≠ 0 := by
  intro hzero
  have hrank := rank_shortest tie rank
  have heq : shortest tie rank = ⟨0, (shortest tie rank).exponent⟩ := by rw [← hzero]
  rw [heq, Decimal.rank_zero] at hrank
  exact hr hrank.symm

/-- **The text of a magnitude spells it.**  Zero has a text of its own; any other magnitude is
written from its shortest decimal, in one of the two forms. -/
theorem spells_magnitude (hm : style.wholeMark = true) (hp : style.plusSign = false) (rank : Nat) :
    Spells (style.magnitude rank) rank := by
  unfold FloatStyle.magnitude
  split
  · next h =>
    subst h
    have hz := @spells_pointed ['0'] ['0'] [] _
      ⟨by simp [IsDigits], by decide, fun _ => rfl⟩ (by simp [IsDigits]) (by decide) stops_nil rfl
    have hzero : ofDigits 10 (['0'] ++ ['0']) = 0 := rfl
    rw [hzero, Decimal.rank_zero] at hz
    exact hz
  · next h =>
    have hrank := rank_shortest style.tie rank
    have hs := significand_shortest_ne style.tie h
    simp only
    split
    · have := spells_positional hm hs
      rwa [hrank] at this
    · have := spells_scientific hp hs
      rwa [hrank] at this

/-- **The text of a finite float is read as that float.**  The rank is found again exactly,
because the decimal that is written has just this rank and no rounding is left to do. -/
theorem Toml.tokenValue?_signed (hm : style.wholeMark = true) (hp : style.plusSign = false)
    (negative : Bool) (rank : Fin maxRank) :
    tokenValue? (style.signed negative rank.val) = some (.float (.finite negative rank)) := by
  obtain ⟨hstart, hread⟩ := spells_magnitude hm hp rank.val
  obtain ⟨significand, exponent, hunsigned, hrank⟩ := hread negative
  have htext := read?_signed hstart negative
  rw [hunsigned] at htext
  rw [FloatStyle.signed, tokenValue?_of_read? htext, Numeral.value?, ofDecimal_eq_ofRank, hrank,
    ofRank_rank]
  rfl

/-- The literal of a finite float is read as that float. -/
theorem Toml.tokenValue?_write {x : Binary64} (h : x.isFinite = true) :
    tokenValue? (FloatStyle.literal.write x) = some (.float x) := by
  cases x with
  | finite negative rank => exact tokenValue?_signed rfl rfl negative rank
  | nan | infinite => cases h

end TomlKeep
