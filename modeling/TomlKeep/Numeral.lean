/-
# Spellings of numbers

A number of a document is an integer in decimal, hexadecimal, octal or binary form, a decimal with
a fraction or an exponent, an infinity or a NaN.  Single underscores may stand between digits,
decimal integers have no leading zero, and only decimal forms and the names have a sign.

`Numeral.read?` reads a whole text; `Numeral.value?` is the value, for those that are in range.
-/
import TomlKeep.Value

namespace TomlKeep

/-- A number as it is spelled. -/
inductive Numeral where
  | integer (value : Int)
  | decimal (negative : Bool) (significand : Nat) (exponent : Int)
  | infinity (negative : Bool)
  | nan (negative : Bool)
  deriving DecidableEq, Repr

namespace Numeral

/-! ## 1. Digits -/

/-- The value of a digit, of any base up to sixteen. -/
def digitValue (c : Char) : Nat :=
  if c.isDigit then c.toNat - 48
  else if 'a' ≤ c ∧ c ≤ 'f' then c.toNat - 87
  else if 'A' ≤ c ∧ c ≤ 'F' then c.toNat - 55
  else 0

/-- Whether the character is a digit of the base. -/
def isDigitOf (base : Nat) (c : Char) : Bool :=
  (c.isDigit || ('a' ≤ c && c ≤ 'f') || ('A' ≤ c && c ≤ 'F')) && digitValue c < base

/-- The number that digits of a base spell. -/
def ofDigits (base : Nat) (digits : List Char) : Nat :=
  digits.foldl (fun n c => n * base + digitValue c) 0

/-- Takes digits of a base off a text, single underscores before a digit left out. -/
def digitTail (base : Nat) : List Char → List Char × List Char
  | '_' :: c :: rest =>
    if isDigitOf base c then
      let (digits, behind) := digitTail base rest
      (c :: digits, behind)
    else ([], '_' :: c :: rest)
  | c :: rest =>
    if isDigitOf base c then
      let (digits, behind) := digitTail base rest
      (c :: digits, behind)
    else ([], c :: rest)
  | [] => ([], [])

/-- Takes one or more digits of a base off a text. -/
def digitRun? (base : Nat) : List Char → Option (List Char × List Char)
  | c :: rest =>
    if isDigitOf base c then
      let (digits, behind) := digitTail base rest
      some (c :: digits, behind)
    else none
  | [] => none

/-- Takes a decimal integer without leading zero off a text. -/
def wholePart? : List Char → Option (List Char × List Char)
  | '0' :: rest => some (['0'], rest)
  | text => digitRun? 10 text

/-! ## 2. Numbers -/

/-- Takes a fraction off a text: no digits if there is no point. -/
def fraction? : List Char → Option (List Char × List Char)
  | '.' :: rest => digitRun? 10 rest
  | text => some ([], text)

/-- Reads the rest of a number as its exponent. -/
def exponent? : List Char → Option Int
  | [] => some 0
  | c :: rest =>
    if c = 'e' ∨ c = 'E' then
      let (negative, unsigned) :=
        match rest with
        | '-' :: rest => (true, rest)
        | '+' :: rest => (false, rest)
        | rest => (false, rest)
      match digitRun? 10 unsigned with
      | some (digits, []) =>
        let n : Int := ofDigits 10 digits
        some (if negative then -n else n)
      | _ => none
    else none

/-- Reads what stands behind the sign of a decimal number. -/
def unsigned? (negative : Bool) (text : List Char) : Option Numeral :=
  if text = ['i', 'n', 'f'] then some (.infinity negative)
  else if text = ['n', 'a', 'n'] then some (.nan negative)
  else
    match wholePart? text with
    | none => none
    | some (whole, []) =>
      let n : Int := ofDigits 10 whole
      some (.integer (if negative then -n else n))
    | some (whole, behind) =>
      match fraction? behind with
      | none => none
      | some (fraction, behind) =>
        match exponent? behind with
        | none => none
        | some exponent =>
          some (.decimal negative (ofDigits 10 (whole ++ fraction)) (exponent - fraction.length))

/-- Reads the digits behind the mark of a base. -/
def based? (base : Nat) (text : List Char) : Option Numeral :=
  match digitRun? base text with
  | some (digits, []) => some (.integer (ofDigits base digits))
  | _ => none

/-- Reads a text as a number. -/
def read? : List Char → Option Numeral
  | '0' :: 'x' :: rest => based? 16 rest
  | '0' :: 'o' :: rest => based? 8 rest
  | '0' :: 'b' :: rest => based? 2 rest
  | '+' :: rest => unsigned? false rest
  | '-' :: rest => unsigned? true rest
  | text => unsigned? false text

/-- The value of a number: an integer has to fit 64 bits, and a decimal must not be too great for
a finite float. -/
def value? : Numeral → Option Value
  | .integer n =>
    if Int64.minValue.toInt ≤ n ∧ n ≤ Int64.maxValue.toInt then some (.integer (Int64.ofInt n))
    else none
  | .decimal negative significand exponent =>
    let x := Binary64.ofDecimal negative significand exponent
    if x.isFinite then some (.float x) else none
  | .infinity negative => some (.float (.infinite negative))
  | .nan negative => some (.float (.nan negative))

end Numeral

end TomlKeep
