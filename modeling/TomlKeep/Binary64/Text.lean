/-
# Numbers as text

A `FloatStyle` says how the shortest decimal of a number is laid out: from which to which size it
is written in positional form, whether a whole number keeps `.0`, whether a positive exponent has
a sign, and which of two equally near decimals stands for the number.  Three styles are in use,
and none of them has a text for the numbers that are not finite; each writer adds its own.
-/
import TomlKeep.Binary64.Shortest

namespace TomlKeep

/-- The layout of decimals. -/
structure FloatStyle where
  /-- A decimal `0.d₁d₂… · 10 ^ p` is positional if `p` is at least this. -/
  least : Option Int
  /-- A decimal `0.d₁d₂… · 10 ^ p` is positional if `p` is at most this. -/
  greatest : Option Int
  /-- Whole numbers in positional form end in `.0`. -/
  wholeMark : Bool
  /-- Positive exponents have a plus sign. -/
  plusSign : Bool
  /-- Which of two equally near shortest decimals is written. -/
  tie : Binary64.Tie
  deriving Repr

namespace FloatStyle

/-- Positional from 0.0001 up to 10¹⁶, whole numbers with `.0`. -/
def literal : FloatStyle := ⟨some (-3), some 16, true, false, .up⟩

/-- Always positional, whole numbers without a point. -/
def plain : FloatStyle := ⟨none, none, false, false, .up⟩

/-- Positional from 0.00001 up to 10¹⁶, whole numbers with `.0`, exponents with their sign; the
only style that goes to the even digit. -/
def json : FloatStyle := ⟨some (-4), some 16, true, true, .even⟩

/-- Whether a decimal with this point is written in positional form. -/
def isPositional (style : FloatStyle) (point : Int) : Bool :=
  style.least.all (· ≤ point) && style.greatest.all (point ≤ ·)

/-- The digits with the decimal point set before the digit number `point`. -/
def positional (style : FloatStyle) (digits : List Char) (point : Int) : List Char :=
  if point ≤ 0 then
    '0' :: '.' :: (List.replicate (-point).toNat '0' ++ digits)
  else if digits.length ≤ point.toNat then
    digits ++ List.replicate (point.toNat - digits.length) '0'
      ++ (if style.wholeMark then ['.', '0'] else [])
  else digits.take point.toNat ++ '.' :: digits.drop point.toNat

/-- The digits with the decimal point behind the first one, and the exponent. -/
def scientific (style : FloatStyle) (digits : List Char) (point : Int) : List Char :=
  let exponent := point - 1
  let mantissa :=
    match digits with
    | d :: e :: rest => d :: '.' :: e :: rest
    | short => short
  let sign := if exponent < 0 then ['-'] else if style.plusSign then ['+'] else []
  mantissa ++ 'e' :: sign ++ Nat.toDigits 10 exponent.natAbs

/-- The text of a magnitude. -/
def magnitude (style : FloatStyle) (rank : Nat) : List Char :=
  if rank = 0 then '0' :: (if style.wholeMark then ['.', '0'] else [])
  else
    let d := Binary64.shortest style.tie rank
    if style.isPositional d.point then style.positional d.digits d.point
    else style.scientific d.digits d.point

/-- The text of a finite number. -/
def signed (style : FloatStyle) (negative : Bool) (rank : Nat) : List Char :=
  (if negative then ['-'] else []) ++ style.magnitude rank

/-- The text of any number: `NaN` without a sign, and `inf`. -/
def write (style : FloatStyle) : Binary64 → List Char
  | .nan _ => ['N', 'a', 'N']
  | .infinite negative => (if negative then ['-'] else []) ++ ['i', 'n', 'f']
  | .finite negative rank => style.signed negative rank.val

end FloatStyle

end TomlKeep
