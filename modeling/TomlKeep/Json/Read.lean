/-
# Reading JSON

Strict JSON: one value with blanks around it.  Of two members of one name the later value stands,
in the place of the earlier.  Arrays and objects nest 127 deep at most.

An integer that fits 64 bits is one; every other number is a float.  A float is read in two
rounded steps: the leading digits of the number that fit 64 bits make up a whole number, which is
then multiplied or divided by a power of ten.  A float too great to be finite is an error.
-/
import TomlKeep.Json.Basic
import TomlKeep.Literal
import TomlKeep.Numeral
import TomlKeep.Text.Blank

namespace TomlKeep.Json

open Text

/-! ## 1. Numbers -/

/-- The greatest number of 64 bits without sign. -/
def maxWord : Nat := 0xFFFFFFFFFFFFFFFF

/-- An exponent beyond this is settled by its sign alone. -/
def maxExponent : Nat := 0x7FFFFFFF

/-- Appends leading digits to a number as long as it fits 64 bits; the number and how many digits
it took. -/
def absorb : Nat → List Char → Nat × Nat
  | n, [] => (n, 0)
  | n, c :: rest =>
    let next := n * 10 + Numeral.digitValue c
    if next ≤ maxWord then
      let (total, taken) := absorb next rest
      (total, taken + 1)
    else (n, 0)

/-- The product of two magnitudes. -/
def timesPower (rank : Nat) (exponent : Nat) : Nat :=
  Binary64.rankOfRatio
    (Binary64.units rank * Binary64.units (Binary64.rankOfRatio (Nat.pow 10 exponent) 1))
    (Binary64.unitsPerOne * Binary64.unitsPerOne)

/-- The quotient of a magnitude and a power of ten. -/
def overPower (rank : Nat) (exponent : Nat) : Nat :=
  Binary64.rankOfRatio (Binary64.units rank)
    (Binary64.units (Binary64.rankOfRatio (Nat.pow 10 exponent) 1))

/-- Divides by a power of ten in steps of at most `10 ^ 308`. -/
def overPowers : Nat → Nat → Nat → Nat
  | 0, _, _ => 0
  | steps + 1, rank, exponent =>
    if exponent ≤ 308 then overPower rank exponent
    else if rank = 0 then 0
    else overPowers steps (overPower rank 308) (exponent - 308)

/-- The rank of `significand · 10 ^ exponent`; none if it is not finite. -/
def scaled? (significand : Nat) (exponent : Int) : Option (Fin Binary64.maxRank) :=
  let rank := Binary64.rankOfRatio significand 1
  let result :=
    if 0 ≤ exponent then
      if exponent ≤ 308 then timesPower rank exponent.toNat
      else if rank = 0 then 0
      else Binary64.maxRank
    else overPowers 5 rank (-exponent).toNat
  if h : result < Binary64.maxRank then some ⟨result, h⟩ else none

/-- A number as it is spelled, in parts. -/
structure Spelling where
  negative : Bool
  whole : List Char
  fraction : Option (List Char)
  exponent : Option (Bool × List Char)

/-- Takes one or more digits off a text. -/
def takeDigits? (text : List Char) : Option (List Char × List Char) :=
  let digits := text.takeWhile Char.isDigit
  if digits.isEmpty then none else some (digits, text.dropWhile Char.isDigit)

/-- Takes the fraction of a number off a text. -/
def takeFraction? : List Char → Option (Option (List Char) × List Char)
  | '.' :: text => (takeDigits? text).map fun (digits, behind) => (some digits, behind)
  | text => some (none, text)

/-- Takes the exponent of a number off a text: whether it is negative, and its digits. -/
def takeExponent? : List Char → Option (Option (Bool × List Char) × List Char)
  | [] => some (none, [])
  | c :: text =>
    if c = 'e' ∨ c = 'E' then
      match text with
      | '-' :: text => (takeDigits? text).map fun (digits, behind) => (some (true, digits), behind)
      | '+' :: text => (takeDigits? text).map fun (digits, behind) => (some (false, digits), behind)
      | text => (takeDigits? text).map fun (digits, behind) => (some (false, digits), behind)
    else some (none, c :: text)

/-- Takes a number off a text, by its shape alone. -/
def takeSpelling? (text : List Char) : Option (Spelling × List Char) := do
  let (negative, text) :=
    match text with
    | '-' :: text => (true, text)
    | text => (false, text)
  let (whole, text) ← takeDigits? text
  if whole.length > 1 ∧ whole.head? = some '0' then none
  let (fraction, text) ← takeFraction? text
  let (exponent, text) ← takeExponent? text
  some (⟨negative, whole, fraction, exponent⟩, text)

/-- The float of a spelling; none if it is not finite. -/
def Spelling.float? (s : Spelling) : Option Json :=
  let (n, taken) := absorb 0 s.whole
  let (significand, places) := absorb n (s.fraction.getD [])
  let shift : Int := (s.whole.length - taken : Nat) - (places : Int)
  let exponent : Int :=
    match s.exponent with
    | none => 0
    | some (negative, digits) =>
      let n : Int := Numeral.ofDigits 10 digits
      if negative then -n else n
  if maxExponent < exponent.natAbs then
    if significand ≠ 0 ∧ 0 < exponent then none
    else some (.float (Binary64.zero s.negative))
  else
    (scaled? significand (shift + exponent)).map fun rank => .float (.finite s.negative rank)

/-- The value of a spelling. -/
def Spelling.value? (s : Spelling) : Option Json :=
  let n : Int := Numeral.ofDigits 10 s.whole
  let n := if s.negative then -n else n
  if s.fraction.isNone ∧ s.exponent.isNone ∧ ¬(s.negative ∧ n = 0)
      ∧ Int64.minValue.toInt ≤ n ∧ n ≤ Int64.maxValue.toInt then
    some (.integer (Int64.ofInt n))
  else s.float?

/-! ## 2. Strings -/

/-- Where the reader of a string stands. -/
inductive StringPlace where
  | plain
  /-- Behind a backslash. -/
  | escape
  /-- In a code with this many digits to go; `high` is the first half of a pair. -/
  | code (high : Option Nat) (left : Nat) (value : Nat)
  /-- Behind the first half of a pair, before the backslash. -/
  | pair (high : Nat)
  /-- Behind the first half of a pair and the backslash. -/
  | pairEscape (high : Nat)
  deriving DecidableEq, Repr

/-- The character that a short escape stands for. -/
def shortEscape? (c : Char) : Option Char :=
  if c = '"' then some '"'
  else if c = '\\' then some '\\'
  else if c = '/' then some '/'
  else if c = 'b' then some '\x08'
  else if c = 'f' then some '\x0c'
  else if c = 'n' then some '\n'
  else if c = 'r' then some '\r'
  else if c = 't' then some '\t'
  else none

/-- The first half of a pair. -/
def isHighHalf (code : Nat) : Bool :=
  0xD800 ≤ code && code < 0xDC00

/-- The second half of a pair. -/
def isLowHalf (code : Nat) : Bool :=
  0xDC00 ≤ code && code < 0xE000

/-- The character of two halves. -/
def joinHalves (high low : Nat) : Char :=
  Char.ofNat (0x10000 + (high - 0xD800) * 0x400 + (low - 0xDC00))

/-- Reads the rest of a string, closing quote included, and what follows it. -/
def stringBody? : StringPlace → List Char → Option (List Char × List Char)
  | _, [] => none
  | .plain, c :: rest =>
    if c = '"' then some ([], rest)
    else if c = '\\' then stringBody? .escape rest
    else if c.toNat < 0x20 then none
    else pushBefore c (stringBody? .plain rest)
  | .escape, c :: rest =>
    match shortEscape? c with
    | some d => pushBefore d (stringBody? .plain rest)
    | none => if c = 'u' then stringBody? (.code none 4 0) rest else none
  | .pair high, c :: rest => if c = '\\' then stringBody? (.pairEscape high) rest else none
  | .pairEscape high, c :: rest =>
    if c = 'u' then stringBody? (.code (some high) 4 0) rest else none
  | .code high left value, c :: rest =>
    if Numeral.isDigitOf 16 c then
      let value := value * 16 + Numeral.digitValue c
      if 1 < left then stringBody? (.code high (left - 1) value) rest
      else
        match high with
        | some high =>
          if isLowHalf value then pushBefore (joinHalves high value) (stringBody? .plain rest)
          else none
        | none =>
          if isHighHalf value then stringBody? (.pair value) rest
          else if isLowHalf value then none
          else pushBefore (Char.ofNat value) (stringBody? .plain rest)
    else none

/-! ## 3. Values -/

/-- Arrays and objects may nest this deep. -/
def maxNesting : Nat := 127

/-- A blank of JSON. -/
def isJsonBlank (c : Char) : Bool :=
  c == ' ' || c == '\t' || c == '\n' || c == '\r'

/-- The text without leading blanks. -/
def skipBlanks (text : List Char) : List Char :=
  text.dropWhile isJsonBlank

/-- Takes a value that is neither an array nor an object off a text. -/
def takeScalar? (text : List Char) : Option (Json × List Char) :=
  match text with
  | '"' :: rest => (stringBody? .plain rest).map fun (s, behind) =>
    (.string (String.ofList s), behind)
  | _ =>
    match after? ['n', 'u', 'l', 'l'] text with
    | some behind => some (.null, behind)
    | none =>
      match after? (boolText true) text with
      | some behind => some (.bool true, behind)
      | none =>
        match after? (boolText false) text with
        | some behind => some (.bool false, behind)
        | none =>
          match takeSpelling? text with
          | none => none
          | some (spelling, behind) => spelling.value?.map fun json => (json, behind)

/-- Takes the items of an array off a text, closing bracket included. -/
def takeItems? (item : List Char → Option (Json × List Char)) :
    Nat → List Char → Option (List Json × List Char)
  | 0, _ => none
  | bound + 1, text =>
    match item (skipBlanks text) with
    | none => none
    | some (json, text) =>
      match skipBlanks text with
      | ']' :: behind => some ([json], behind)
      | ',' :: text =>
        match takeItems? item bound text with
        | none => none
        | some (items, behind) => some (json :: items, behind)
      | _ => none

/-- Takes the name of a member and its colon off a text. -/
def takeName? (text : List Char) : Option (String × List Char) :=
  match skipBlanks text with
  | '"' :: rest =>
    match stringBody? .plain rest with
    | none => none
    | some (name, text) =>
      match skipBlanks text with
      | ':' :: text => some (String.ofList name, text)
      | _ => none
  | _ => none

/-- Takes the members of an object off a text, closing brace included. -/
def takeMembers? (item : List Char → Option (Json × List Char)) :
    Nat → List Char → Option (List (String × Json) × List Char)
  | 0, _ => none
  | bound + 1, text =>
    match takeName? text with
    | none => none
    | some (name, text) =>
      match item (skipBlanks text) with
      | none => none
      | some (json, text) =>
        match skipBlanks text with
        | '}' :: behind => some ([(name, json)], behind)
        | ',' :: text =>
          match takeMembers? item bound text with
          | none => none
          | some (members, behind) => some ((name, json) :: members, behind)
        | _ => none

/-- Takes a value off a text; `levels` more brackets may open. -/
def takeValue? : Nat → List Char → Option (Json × List Char)
  | 0, text => takeScalar? text
  | levels + 1, '[' :: text =>
    match skipBlanks text with
    | ']' :: behind => some (.array [], behind)
    | _ =>
      (takeItems? (takeValue? levels) text.length text).map
        fun (items, behind) => (.array items, behind)
  | levels + 1, '{' :: text =>
    match skipBlanks text with
    | '}' :: behind => some (.object [], behind)
    | _ =>
      (takeMembers? (takeValue? levels) text.length text).map
        fun (members, behind) => (.object (Keyed.ofList members), behind)
  | _ + 1, text => takeScalar? text

/-- Reads a text as JSON. -/
def read? (text : List Char) : Option Json :=
  match takeValue? maxNesting (skipBlanks text) with
  | some (json, behind) => if (skipBlanks behind).isEmpty then some json else none
  | none => none

end TomlKeep.Json
