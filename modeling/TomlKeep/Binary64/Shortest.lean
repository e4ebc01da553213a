/-
# The shortest decimal of a number

`shortest` gives the fewest decimal digits that read back as the number, and of several decimals
with that many digits the nearest one.  Two can be equally near, and then the writers differ; a
`Tie` says which of the two is taken.

Whether a decimal reads back is decided by reading it (`Decimal.reads`), so that what the search
finds reads back by construction (`reads_of_firstReading`).  On the grid of decimals with a given
number of digits only the two neighbours of the number are tried: if any point of the grid reads
back then one of them does.
-/
import TomlKeep.Binary64.Basic

namespace TomlKeep.Binary64

/-- The decimal `significand · 10 ^ exponent`. -/
structure Decimal where
  significand : Nat
  exponent : Int
  deriving DecidableEq, Repr

namespace Decimal

/-- The rank of the decimal, read as a number. -/
def rank (d : Decimal) : Nat :=
  if 0 ≤ d.exponent then rankOfRatio (d.significand * Nat.pow 10 d.exponent.toNat) 1
  else rankOfRatio d.significand (Nat.pow 10 (-d.exponent).toNat)

/-- Whether the decimal reads back as the magnitude of that rank. -/
def reads (rank : Nat) (d : Decimal) : Bool :=
  d.rank == rank

/-- The decimal with no zero at the end of its significand; `fuel` zeros are taken off at most. -/
def stripZeros : Nat → Decimal → Decimal
  | 0, d => d
  | fuel + 1, d =>
    if d.significand % 10 = 0 ∧ d.significand ≠ 0 then
      stripZeros fuel ⟨d.significand / 10, d.exponent + 1⟩
    else d

/-- The digits of the significand. -/
def digits (d : Decimal) : List Char :=
  Nat.toDigits 10 d.significand

/-- The number of digits before the decimal point, less the zeros behind it: the decimal is
`0.d₁d₂… · 10 ^ point`. -/
def point (d : Decimal) : Int :=
  d.digits.length + d.exponent

end Decimal

/-- Which of two equally near neighbours on a grid is taken. -/
inductive Tie where
  /-- The greater one. -/
  | up
  /-- The one whose last digit is even. -/
  | even
  deriving DecidableEq, Repr

/-- Whether the neighbour above is taken, of two equally near ones of which the lower has the
significand `below`. -/
def Tie.goesUp (below : Nat) : Tie → Bool
  | up => true
  | even => below % 2 == 1

/-- The least `p` with `num / den < 10 ^ p`, for a positive quotient. -/
def decimalPoint (num den : Nat) : Int :=
  if den ≤ num then (Nat.toDigits 10 (num / den)).length
  else 1 - ((Nat.toDigits 10 ((den - 1) / num)).length : Int)

/-- The neighbours of `num / den` on the grid of multiples of `10 ^ exponent`, the nearer one
first and of two equally near ones the one that `tie` takes. -/
def neighbours (tie : Tie) (num den : Nat) (exponent : Int) : List Decimal :=
  let (num, den) :=
    if 0 ≤ exponent then (num, den * Nat.pow 10 exponent.toNat)
    else (num * Nat.pow 10 (-exponent).toNat, den)
  let below := num / den
  let goesUp :=
    match compare (2 * (num % den)) den with
    | .lt => false
    | .eq => tie.goesUp below
    | .gt => true
  if goesUp then [⟨below + 1, exponent⟩, ⟨below, exponent⟩]
  else [⟨below, exponent⟩, ⟨below + 1, exponent⟩]

/-- The decimal that stands for the magnitude exactly. -/
def exactDecimal (rank : Nat) : Decimal :=
  ⟨units rank * Nat.pow 5 1074, -1074⟩

/-- The first neighbour that reads back on one of the grids with `digits`, `digits + 1`, …
digits. -/
def firstReading (tie : Tie) (rank : Nat) (point : Int) : Nat → Nat → Option Decimal
  | 0, _ => none
  | grids + 1, digits =>
    match (neighbours tie (units rank) unitsPerOne (point - digits)).find? (Decimal.reads rank) with
    | some d => some d
    | none => firstReading tie rank point grids (digits + 1)

/-- What the search finds reads back. -/
theorem reads_of_firstReading {tie : Tie} {rank : Nat} {point : Int} {d : Decimal} :
    ∀ {grids digits}, firstReading tie rank point grids digits = some d → d.reads rank = true
  | 0, _, h => by simp [firstReading] at h
  | grids + 1, digits, h => by
    unfold firstReading at h
    split at h
    · next found hf =>
      obtain rfl := Option.some.inj h
      simpa using List.find?_some hf
    · exact reads_of_firstReading h

/-- The shortest decimal of the magnitude of a rank.  Seventeen digits are enough for every
magnitude. -/
def shortest (tie : Tie) (rank : Nat) : Decimal :=
  if rank = 0 then ⟨0, 0⟩
  else
    match firstReading tie rank (decimalPoint (units rank) unitsPerOne) 17 1 with
    | some d => d.stripZeros 20
    | none => exactDecimal rank

end TomlKeep.Binary64
