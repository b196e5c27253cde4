import Scriptlet.Decimal.Shortest
import Scriptlet.Text.Glyph

/-!
# Reading numbers

A number is a decimal with an optional point and an optional exponent, a hexadecimal with an
optional point and a mandatory binary exponent, an infinity or not-a-number. A sign may stand in
front of all of them but the last. Underscores may separate digits, also from a base mark. The
nearest floating-point number is taken; one too large is out of range, one too small is zero.
-/

namespace Scriptlet

namespace Decimal

/-- Why a text is no number. -/
inductive ReadError where
  /-- It has not the form of one. -/
  | malformed
  /-- It is too large; the infinity of its sign is the nearest value. -/
  | outOfRange (nearest : Float)

/-! ## §1 Exact values to numbers -/

/-- The infinity. -/
def infinity : Float := Float.ofBits 0x7FF0000000000000

/-- Not a number. -/
def notANumber : Float := Float.ofBits 0x7FF8000000000001

/-- The nearest number to `m · 10^e`; exponents that leave the range whatever the digits are settled
without computing the power. -/
def ofScientific (m : Nat) (e : Int) : Float :=
  let size := (Nat.toDigits 10 m).length
  if m == 0 then 0
  else if e + size > 400 then infinity
  else if e + size < -400 then 0
  else if e < 0 then Float.ofScientific m true e.natAbs
  else Float.ofScientific m false e.natAbs

/-- The nearest number to `m · 2^e`, through the decimal that equals it. -/
def ofBinary (m : Nat) (e : Int) : Float :=
  let size := Nat.log2 m + 1
  if m == 0 then 0
  else if e + size > 1100 then infinity
  else if e + size < -1200 then 0
  else if e < 0 then Float.ofScientific (m * Nat.pow 5 e.natAbs) true e.natAbs
  else Float.ofScientific (m * Nat.pow 2 e.natAbs) false 0

/-- An unsigned value with its sign; out of range if it is infinite. -/
def signedResult (negative : Bool) (x : Float) : Except ReadError Float :=
  let y := if negative then -x else x
  if x.isInf then .error (.outOfRange y) else .ok y

/-! ## §2 Digits -/

/-- The value of a hexadecimal digit. -/
def hexValue? (c : Char) : Option Nat :=
  if c.isDigit then some (c.toNat - 48)
  else if 'a' ≤ c ∧ c ≤ 'f' then some (c.toNat - 87)
  else if 'A' ≤ c ∧ c ≤ 'F' then some (c.toNat - 55)
  else none

/-- The value of a digit of the base. -/
def digitValue? (base : Nat) (c : Char) : Option Nat :=
  (hexValue? c).filter (· < base)

/-- The number that a sequence of digits of the base spells; other characters count nothing. -/
def natOf (base : Nat) (cs : List Char) : Nat :=
  cs.foldl (fun n c => match digitValue? base c with | some d => n * base + d | none => n) 0

/-- The longest start of digits of the base, underscores among them, and the rest. -/
def spanDigits (base : Nat) (cs : List Char) : List Char × List Char :=
  cs.span fun c => (digitValue? base c).isSome || c == '_'

/-- Each underscore stands between digits; `afterDigit` says whether a digit, or the base mark,
stands right before. -/
def underscoresSeparate (base : Nat) (afterDigit : Bool) : List Char → Bool
  | [] => true
  | '_' :: rest =>
    match rest with
    | c :: _ => afterDigit && (digitValue? base c).isSome && underscoresSeparate base false rest
    | [] => false
  | c :: rest => underscoresSeparate base (digitValue? base c).isSome rest

/-! ## §3 The forms -/

/-- A mantissa `whole.fraction` with the digits that follow it. -/
structure Mantissa where
  whole : List Char
  fraction : List Char
  rest : List Char

/-- Reads a mantissa of the base; it has at least one digit. -/
def mantissa? (base : Nat) (cs : List Char) : Option Mantissa :=
  let (whole, rest) := spanDigits base cs
  let m : Mantissa :=
    match rest with
    | '.' :: more =>
      let (fraction, rest') := spanDigits base more
      ⟨whole, fraction, rest'⟩
    | _ => ⟨whole, [], rest⟩
  if (m.whole ++ m.fraction).any (· != '_') then some m else none

/-- Reads an exponent after its mark: a sign and at least one digit, up to the end. -/
def exponent? (cs : List Char) : Option Int :=
  let (negative, digits) :=
    match cs with
    | '-' :: ds => (true, ds)
    | '+' :: ds => (false, ds)
    | ds => (false, ds)
  match digits with
  | d :: _ =>
    let (run, rest) := spanDigits 10 digits
    if d.isDigit && rest.isEmpty then
      some (if negative then -(natOf 10 run : Int) else natOf 10 run)
    else none
  | [] => none

/-- The digits of a mantissa other than underscores. -/
def Mantissa.places (m : Mantissa) : Nat := (m.fraction.filter (· != '_')).length

/-- An unsigned decimal. -/
def readDecimal (negative : Bool) (cs : List Char) : Except ReadError Float :=
  match mantissa? 10 cs with
  | none => .error .malformed
  | some m =>
    let exponent :=
      match m.rest with
      | [] => some 0
      | c :: more => if c.toLower == 'e' then exponent? more else none
    match exponent with
    | none => .error .malformed
    | some e =>
      if underscoresSeparate 10 false cs then
        signedResult negative (ofScientific (natOf 10 (m.whole ++ m.fraction)) (e - m.places))
      else .error .malformed

/-- An unsigned hexadecimal after its base mark. -/
def readHexadecimal (negative : Bool) (cs : List Char) : Except ReadError Float :=
  match mantissa? 16 cs with
  | none => .error .malformed
  | some m =>
    match m.rest with
    | c :: more =>
      if c.toLower != 'p' then .error .malformed
      else
        match exponent? more with
        | none => .error .malformed
        | some e =>
          if underscoresSeparate 16 true cs then
            signedResult negative (ofBinary (natOf 16 (m.whole ++ m.fraction)) (e - 4 * m.places))
          else .error .malformed
    | [] => .error .malformed

/-- A number without its sign. -/
def readUnsigned (negative : Bool) (cs : List Char) : Except ReadError Float :=
  match cs with
  | '0' :: x :: rest =>
    if x.toLower == 'x' && !rest.isEmpty then readHexadecimal negative rest
    else readDecimal negative cs
  | _ => readDecimal negative cs

/-- Reads a number from characters. -/
def readChars (cs : List Char) : Except ReadError Float :=
  let (signed, negative, body) :=
    match cs with
    | '-' :: rest => (true, true, rest)
    | '+' :: rest => (true, false, rest)
    | _ => (false, false, cs)
  let word := String.ofList (body.map Char.toLower)
  if word == "inf" || word == "infinity" then .ok (if negative then -infinity else infinity)
  else if word == "nan" && !signed then .ok notANumber
  else readUnsigned negative body

/-- Reads a number. Stray bytes and characters beyond ASCII belong to none. -/
def read (t : Text) : Except ReadError Float := readChars t.chars

/-- The number nearest to what a text spells, whether it is in range or not. -/
def readNearest? (t : Text) : Option Float :=
  match read t with
  | .ok x => some x
  | .error (.outOfRange x) => some x
  | .error .malformed => none

end Decimal

end Scriptlet
