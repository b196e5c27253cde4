import Scriptlet.Decimal.Reading

/-!
# Numbers and dates of settings documents

Values other than strings are words: integers of 64 bits, in base ten with a sign or in another base
behind its mark; decimals with a point or an exponent, infinities and what is not a number; `true`
and `false`; dates, times of day, and both together with or without their offset. Nothing is done
with them, but a word that is none of these makes the document malformed.

## Contents

- §1 digits
- §2 numbers
- §3 dates and times
-/

namespace Scriptlet

namespace Document

/-! ## §1 Digits -/

/-- At least one digit of the base, single underscores between them; `afterDigit` says whether one
stands right before. -/
def areDigits (base : Nat) (afterDigit : Bool) : List Char → Bool
  | [] => afterDigit
  | c :: rest =>
    if (Decimal.digitValue? base c).isSome then areDigits base true rest
    else c == '_' && afterDigit && areDigits base false rest

/-- Decimal digits with no zero in front of others. -/
def isWhole (cs : List Char) : Bool :=
  areDigits 10 false cs && (cs.head? != some '0' || cs.length == 1)

/-- The characters behind a sign. -/
def withoutSign : List Char → List Char
  | '+' :: rest => rest
  | '-' :: rest => rest
  | cs => cs

/-! ## §2 Numbers -/

/-- The bound of integers: one more is too large, and so is its negative less one. -/
def integerBound : Nat := 9223372036854775807

/-- The digits of a number within the bounds of integers. -/
def fits (base : Nat) (negative : Bool) (cs : List Char) : Bool :=
  Decimal.natOf base cs ≤ if negative then integerBound + 1 else integerBound

/-- An integer of 64 bits. -/
def isInteger : List Char → Bool
  | '-' :: rest => isWhole rest && fits 10 true rest
  | '0' :: 'x' :: rest => areDigits 16 false rest && fits 16 false rest
  | '0' :: 'o' :: rest => areDigits 8 false rest && fits 8 false rest
  | '0' :: 'b' :: rest => areDigits 2 false rest && fits 2 false rest
  | cs => isWhole (withoutSign cs) && fits 10 false (withoutSign cs)

/-- An exponent with its mark. -/
def isExponent : List Char → Bool
  | 'e' :: rest | 'E' :: rest => areDigits 10 false (withoutSign rest)
  | _ => false

/-- Digits up to a point or an exponent, and the rest. -/
def spanWhole (cs : List Char) : List Char × List Char :=
  cs.span fun c => c.isDigit || c == '_'

/-- A decimal with a point, an exponent or both, in the range of numbers. -/
def isDecimal (cs : List Char) : Bool :=
  let (whole, rest) := spanWhole (withoutSign cs)
  let formed :=
    match rest with
    | '.' :: more =>
      let (places, rest) := spanWhole more
      areDigits 10 false places && (rest.isEmpty || isExponent rest)
    | _ => isExponent rest
  isWhole whole && formed && (Decimal.readChars cs).isOk

/-- A word that stands for a value of its own. -/
def isNamed (cs : List Char) : Bool :=
  cs == "true".toList || cs == "false".toList ||
    withoutSign cs == "inf".toList || withoutSign cs == "nan".toList

/-- A character of words. -/
def isWordChar (c : Char) : Bool :=
  c.isAlphanum || c == '_' || c == '-' || c == '+' || c == '.'

/-! ## §3 Dates and times -/

/-- The number of two digits, and the rest. -/
def twoDigits? : List Char → Option (Nat × List Char)
  | a :: b :: rest => if a.isDigit && b.isDigit then some (Decimal.natOf 10 [a, b], rest) else none
  | _ => none

/-- The characters behind one that must be there. -/
def behind? (c : Char) : List Char → Option (List Char)
  | d :: rest => if d == c then some rest else none
  | [] => none

/-- The number of days of a month. -/
def daysOf (year month : Nat) : Nat :=
  if month == 2 then
    if year % 4 == 0 && (year % 100 != 0 || year % 400 == 0) then 29 else 28
  else if month == 4 || month == 6 || month == 9 || month == 11 then 30
  else 31

/-- What follows a date that is in the calendar. -/
def behindDate? (cs : List Char) : Option (List Char) := do
  let (century, cs) ← twoDigits? cs
  let (rest, cs) ← twoDigits? cs
  let (month, cs) ← twoDigits? (← behind? '-' cs)
  let (day, cs) ← twoDigits? (← behind? '-' cs)
  let year := century * 100 + rest
  if 1 ≤ month ∧ month ≤ 12 ∧ 1 ≤ day ∧ day ≤ daysOf year month then some cs else none

/-- What follows a time of day; its seconds may have places behind a point. -/
def behindTime? (cs : List Char) : Option (List Char) := do
  let (hour, cs) ← twoDigits? cs
  let (minute, cs) ← twoDigits? (← behind? ':' cs)
  let (second, cs) ← twoDigits? (← behind? ':' cs)
  if hour < 24 ∧ minute < 60 ∧ second < 60 then
    match cs with
    | '.' :: d :: rest => some (if d.isDigit then rest.dropWhile Char.isDigit else cs)
    | _ => some cs
  else none

/-- The offset of a time: none, that of the standard time, or hours and minutes with a sign. -/
def isOffset : List Char → Bool
  | [] => true
  | ['Z'] | ['z'] => true
  | sign :: cs =>
    let fields := do
      let (hours, cs) ← twoDigits? cs
      let (minutes, cs) ← twoDigits? (← behind? ':' cs)
      return (hours, minutes, cs)
    match fields with
    | some (hours, minutes, []) => (sign == '+' || sign == '-') && hours ≤ 24 && minutes ≤ 60
    | _ => false

/-- A time of day without an offset. -/
def isTime (cs : List Char) : Bool := behindTime? cs == some []

/-- A date, alone or with a time behind a letter or one space. -/
def isDate (cs : List Char) : Bool :=
  match behindDate? cs with
  | some [] => true
  | some (mark :: rest) =>
    (mark == 'T' || mark == 't' || mark == ' ') && (behindTime? rest).any isOffset
  | none => false

/-- A character of dates and times. -/
def isDateChar (c : Char) : Bool :=
  c.isDigit || c == '-' || c == ':' || c == 'T' || c == 't' || c == ' ' || c == '.' || c == 'Z' ||
    c == 'z' || c == '+'

/-- What follows the digits shows that a date or a time starts here. -/
def startsDate (cs : List Char) : Bool :=
  cs.head?.any Char.isDigit &&
    match cs.dropWhile Char.isDigit with
    | c :: _ => c == '-' || c == ':'
    | [] => false

/-- The characters up to the spaces at the end. -/
def withoutLastSpaces (cs : List Char) : List Char := (cs.reverse.dropWhile (· == ' ')).reverse

/-- What follows a word that is a number, a truth value, a date or a time. -/
def behindWord? (cs : List Char) : Option (List Char) :=
  if startsDate cs then
    let (word, rest) := cs.span isDateChar
    let word := withoutLastSpaces word
    if isDate word || isTime word then some rest else none
  else
    let (word, rest) := cs.span isWordChar
    if isInteger word || isDecimal word || isNamed word then some rest else none

end Document

end Scriptlet
