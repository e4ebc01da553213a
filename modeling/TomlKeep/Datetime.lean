/-
# Dates and times

A date-time is a date, a time, or both, and with both it may have an offset.  `read?` takes the
shape alone, digits in their places; `isValid` checks the calendar and the clock.  The canonical
text (`write`) has `T` between date and time, seconds always, a fraction of at most nine digits
without zeros at its end, and `Z` or an offset whose zero is positive.
-/

namespace TomlKeep

/-- A day of the calendar. -/
structure Day where
  year : Nat
  month : Nat
  day : Nat
  deriving DecidableEq, Repr

/-- A time of the day; `fraction` holds the digits behind the seconds. -/
structure Clock where
  hour : Nat
  minute : Nat
  second : Nat
  fraction : List Char
  deriving DecidableEq, Repr

/-- The distance from universal time. -/
inductive Offset where
  | zulu
  | shift (negative : Bool) (hours minutes : Nat)
  deriving DecidableEq, Repr

/-- A date, a time, or both. -/
inductive Datetime where
  | date (day : Day)
  | time (clock : Clock)
  | both (day : Day) (clock : Clock) (offset : Option Offset)
  deriving DecidableEq, Repr

namespace Datetime

/-! ## 1. Reading -/

/-- Takes a number of exactly `n` digits off a text. -/
def takeNumber? : Nat → List Char → Option (Nat × List Char)
  | n, text =>
    let digits := text.take n
    if digits.length = n ∧ digits.all Char.isDigit then
      some (digits.foldl (fun m c => m * 10 + (c.toNat - 48)) 0, text.drop n)
    else none

/-- Takes a given character off a text. -/
def takeChar? (c : Char) : List Char → Option (List Char)
  | d :: rest => if d = c then some rest else none
  | [] => none

/-- Takes a day such as `1979-05-27` off a text. -/
def takeDay? (text : List Char) : Option (Day × List Char) := do
  let (year, text) ← takeNumber? 4 text
  let text ← takeChar? '-' text
  let (month, text) ← takeNumber? 2 text
  let text ← takeChar? '-' text
  let (day, text) ← takeNumber? 2 text
  some (⟨year, month, day⟩, text)

/-- Takes the seconds off a text, none meaning zero, with their fraction. -/
def takeSeconds? : List Char → Option (Nat × List Char × List Char)
  | ':' :: text => do
    let (second, text) ← takeNumber? 2 text
    match text with
    | '.' :: text =>
      let fraction := text.takeWhile Char.isDigit
      if fraction.isEmpty then none else some (second, fraction, text.dropWhile Char.isDigit)
    | text => some (second, [], text)
  | text => some (0, [], text)

/-- Takes a time such as `07:32:00.5` off a text. -/
def takeClock? (text : List Char) : Option (Clock × List Char) := do
  let (hour, text) ← takeNumber? 2 text
  let text ← takeChar? ':' text
  let (minute, text) ← takeNumber? 2 text
  let (second, fraction, text) ← takeSeconds? text
  some (⟨hour, minute, second, fraction⟩, text)

/-- Reads a text as an offset; the empty text is none. -/
def readOffset? : List Char → Option (Option Offset)
  | [] => some none
  | ['Z'] => some (some .zulu)
  | ['z'] => some (some .zulu)
  | c :: text =>
    if c = '+' ∨ c = '-' then do
      let (hours, text) ← takeNumber? 2 text
      let text ← takeChar? ':' text
      let (minutes, text) ← takeNumber? 2 text
      if text.isEmpty then some (some (.shift (c == '-') hours minutes)) else none
    else none

/-- Whether the character may stand between a date and a time. -/
def isSeparator (c : Char) : Bool :=
  c == 'T' || c == 't' || c == ' '

/-- Reads a text as a date-time, by its shape alone. -/
def read? (text : List Char) : Option Datetime :=
  match takeDay? text with
  | some (day, []) => some (.date day)
  | some (day, c :: text) =>
    if isSeparator c then do
      let (clock, text) ← takeClock? text
      let offset ← readOffset? text
      some (.both day clock offset)
    else none
  | none =>
    match takeClock? text with
    | some (clock, []) => some (.time clock)
    | _ => none

/-! ## 2. The calendar -/

/-- Whether a year has a 29th of February. -/
def isLeapYear (year : Nat) : Bool :=
  year % 4 == 0 && (year % 100 != 0 || year % 400 == 0)

/-- The number of days of a month; none for a month that does not exist. -/
def daysInMonth (year month : Nat) : Nat :=
  if month = 2 then (if isLeapYear year then 29 else 28)
  else if month = 4 ∨ month = 6 ∨ month = 9 ∨ month = 11 then 30
  else if 1 ≤ month ∧ month ≤ 12 then 31
  else 0

/-- Whether the day exists. -/
def Day.isValid (d : Day) : Bool :=
  1 ≤ d.day && d.day ≤ daysInMonth d.year d.month

/-- Whether the clock can show the time; a minute may have a leap second. -/
def Clock.isValid (c : Clock) : Bool :=
  c.hour ≤ 23 && c.minute ≤ 59 && c.second ≤ 60

/-- Whether the offset is less than a day and has less than sixty minutes. -/
def Offset.isValid : Offset → Bool
  | .zulu => true
  | .shift _ hours minutes => hours ≤ 23 && minutes ≤ 59

/-- Whether the date-time exists. -/
def isValid : Datetime → Bool
  | .date day => Day.isValid day
  | .time clock => Clock.isValid clock
  | .both day clock offset => Day.isValid day && Clock.isValid clock && offset.all Offset.isValid

/-! ## 3. Writing -/

/-- The digits of a number, zeros in front up to the width. -/
def padded (width n : Nat) : List Char :=
  let digits := Nat.toDigits 10 n
  List.replicate (width - digits.length) '0' ++ digits

/-- A fraction of at most nine digits, without zeros at its end. -/
def writeFraction (digits : List Char) : List Char :=
  let kept := (digits.take 9).reverse.dropWhile (· == '0')
  if kept.isEmpty then [] else '.' :: kept.reverse

/-- The text of a day. -/
def writeDay (d : Day) : List Char :=
  padded 4 d.year ++ '-' :: padded 2 d.month ++ '-' :: padded 2 d.day

/-- The text of a time. -/
def writeClock (c : Clock) : List Char :=
  padded 2 c.hour ++ ':' :: padded 2 c.minute ++ ':' :: padded 2 c.second
    ++ writeFraction c.fraction

/-- The text of an offset. -/
def writeOffset : Option Offset → List Char
  | none => []
  | some .zulu => ['Z']
  | some (.shift negative hours minutes) =>
    (if negative ∧ (hours ≠ 0 ∨ minutes ≠ 0) then '-' else '+') :: padded 2 hours
      ++ ':' :: padded 2 minutes

/-- The canonical text. -/
def write : Datetime → List Char
  | .date day => writeDay day
  | .time clock => writeClock clock
  | .both day clock offset => writeDay day ++ 'T' :: writeClock clock ++ writeOffset offset

/-- The canonical form of a text that is a date-time. -/
def canonical? (text : List Char) : Option (List Char) :=
  match read? text with
  | some datetime => if datetime.isValid then some datetime.write else none
  | none => none

end Datetime

end TomlKeep
