/-
# Reading numbers

The text of a number: a sign if need be, then a name (`inf`, `infinity` or `nan`, in any case) or
decimal digits with a point before, among or behind them, and an exponent if need be.  At least
one digit stands before the exponent.
-/
import TomlKeep.Numeral

namespace TomlKeep.Binary64

/-- Reads the exponent of a number. -/
def exponent? : List Char → Option Int
  | [] => some 0
  | c :: rest =>
    if c = 'e' ∨ c = 'E' then
      let (negative, digits) :=
        match rest with
        | '-' :: rest => (true, rest)
        | '+' :: rest => (false, rest)
        | rest => (false, rest)
      if digits.isEmpty || !digits.all Char.isDigit then none
      else
        let n : Int := Numeral.ofDigits 10 digits
        some (if negative then -n else n)
    else none

/-- Reads a number behind its sign. -/
def unsigned? (negative : Bool) (text : List Char) : Option Binary64 :=
  let name := text.map Char.toLower
  if name = ['n', 'a', 'n'] then some (.nan negative)
  else if name = ['i', 'n', 'f'] ∨ name = ['i', 'n', 'f', 'i', 'n', 'i', 't', 'y'] then
    some (.infinite negative)
  else
    let whole := text.takeWhile Char.isDigit
    let (fraction, behind) :=
      match text.dropWhile Char.isDigit with
      | '.' :: rest => (rest.takeWhile Char.isDigit, rest.dropWhile Char.isDigit)
      | rest => ([], rest)
    if whole.isEmpty && fraction.isEmpty then none
    else
      (exponent? behind).map fun exponent =>
        ofDecimal negative (Numeral.ofDigits 10 (whole ++ fraction)) (exponent - fraction.length)

/-- Reads a text as a number. -/
def read? : List Char → Option Binary64
  | '-' :: text => unsigned? true text
  | '+' :: text => unsigned? false text
  | text => unsigned? false text

end TomlKeep.Binary64
