/-
# Numbers of the binary64 format

A finite number is a sign and a *rank*: the place of its magnitude in the increasing list of all
magnitudes of the format, zero first.  `units r` is the magnitude of rank `r` as a multiple of the
least positive one, 2 to the power −1074.  So the order of numbers is that of their ranks
(`place?`), and a number is known by its sign and its rank (`ofRank_rank`).

Every operation is exact arithmetic followed by one rounding (`rankOfRatio`): to the nearest
magnitude, and from halfway to the one of even rank.  What rounds to `maxRank` or beyond is
infinite.
-/

namespace TomlKeep

/-! ## 1. Magnitudes -/

namespace Binary64

/-- The number of magnitudes between a power of two and the next: 2 to the power 52. -/
def blockSize : Nat := 0x10000000000000

/-- The number of finite magnitudes. -/
def maxRank : Nat := 2047 * blockSize

/-- The magnitude of a rank, in multiples of the least positive one: the ranks of the first two
blocks are one unit apart, and those of each further block twice as far as those of the last. -/
def units (rank : Nat) : Nat :=
  if rank < blockSize then rank
  else (blockSize + rank % blockSize) * Nat.pow 2 (rank / blockSize - 1)

/-- The number of units in one. -/
def unitsPerOne : Nat := Nat.pow 2 1074

/-- The greatest rank whose magnitude is at most `n` units. -/
def floorRank (n : Nat) : Nat :=
  if n < 2 * blockSize then n
  else
    let shift := n.log2 - 52
    shift * blockSize + n / Nat.pow 2 shift

/-- The rank nearest to `num / den`; halfway between two ranks, the even one. -/
def rankOfRatio (num den : Nat) : Nat :=
  let below := floorRank (num * unitsPerOne / den)
  let middle := den * (units below + units (below + 1))
  let twice := 2 * (num * unitsPerOne)
  if twice < middle then below
  else if middle < twice then below + 1
  else below + below % 2

end Binary64

/-! ## 2. The numbers -/

/-- A number of the format. -/
inductive Binary64 where
  | nan (negative : Bool)
  | infinite (negative : Bool)
  | finite (negative : Bool) (rank : Fin Binary64.maxRank)
  deriving DecidableEq, Repr

namespace Binary64

/-- The number of the given sign and rank; a rank that is too great means infinity. -/
def ofRank (negative : Bool) (rank : Nat) : Binary64 :=
  if h : rank < maxRank then .finite negative ⟨rank, h⟩ else .infinite negative

/-- The number nearest to `± num / den`. -/
def ofRatio (negative : Bool) (num den : Nat) : Binary64 :=
  ofRank negative (rankOfRatio num den)

/-- The number nearest to an integer. -/
def ofInt (n : Int) : Binary64 :=
  ofRatio (n < 0) n.natAbs 1

/-- The number nearest to a natural number. -/
def ofNat (n : Nat) : Binary64 :=
  ofRatio false n 1

/-- Zero. -/
def zero (negative : Bool) : Binary64 :=
  .finite negative ⟨0, by decide⟩

/-- Whether the number is neither infinite nor a NaN. -/
def isFinite : Binary64 → Bool
  | .finite _ _ => true
  | _ => false

/-- The sign, set for a negative number. -/
def negative : Binary64 → Bool
  | .nan s | .infinite s | .finite s _ => s

/-- The place of the number in the order of all numbers; the two zeros share a place, and a NaN
has none. -/
def place? : Binary64 → Option Int
  | .nan _ => none
  | .infinite s => some (if s then -maxRank else maxRank)
  | .finite s rank => some (if s then -rank.val else rank.val)

/-- Less than; false for a NaN. -/
def lt (a b : Binary64) : Bool :=
  match a.place?, b.place? with
  | some x, some y => x < y
  | _, _ => false

/-- Numerical equality: a NaN equals nothing, and the two zeros are equal. -/
def same (a b : Binary64) : Bool :=
  match a.place?, b.place? with
  | some x, some y => x == y
  | _, _ => false

/-- The number nearest to `± significand · 10 ^ exponent`.  Numbers far outside the range of the
format are settled by their size alone, so that the exponent may be of any length. -/
def ofDecimal (negative : Bool) (significand : Nat) (exponent : Int) : Binary64 :=
  if significand = 0 then zero negative
  else
    let size := exponent + (Nat.toDigits 10 significand).length
    if 310 < size then .infinite negative
    else if size < -330 then zero negative
    else if 0 ≤ exponent then ofRatio negative (significand * Nat.pow 10 exponent.toNat) 1
    else ofRatio negative significand (Nat.pow 10 (-exponent).toNat)

/-! ## 3. Small facts -/

theorem ofRank_rank (s : Bool) (rank : Fin maxRank) : ofRank s rank.val = .finite s rank := by
  simp [ofRank, rank.isLt]

end Binary64

end TomlKeep
