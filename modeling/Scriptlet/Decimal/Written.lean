import Scriptlet.Decimal.Shortest

/-!
# How numbers are written

The one format of numbers in this language: shortest digits, positional for decimal exponents from
-4 up to 5 and in exponent form `d.ddde+XX` elsewhere, the exponent with its sign and at least two
digits. Zeros keep their sign; the infinities are `+Inf` and `-Inf`, and `NaN` has no sign.
-/

namespace Scriptlet

namespace Decimal

/-- The decisions of a number format. -/
structure Format where
  /-- Smallest decimal exponent written positionally. -/
  leastPositional : Int
  /-- Smallest decimal exponent no longer written positionally. -/
  endPositional : Int
  /-- Least number of digits of a written exponent. -/
  exponentWidth : Nat
  deriving Repr

/-- The format of this language. -/
def format : Format := ⟨-4, 6, 2⟩

/-- Digits with a point after the first, or none if there is only one. -/
def pointed : List Char → List Char
  | [] => []
  | [d] => [d]
  | d :: ds => d :: '.' :: ds

/-- The exponent part: mark, sign and digits. -/
def exponentPart (f : Format) (e : Int) : List Char :=
  let digits := Nat.toDigits 10 e.natAbs
  ['e', if e < 0 then '-' else '+']
    ++ List.replicate (f.exponentWidth - digits.length) '0' ++ digits

/-- Positional writing of digits whose leading one has decimal exponent `e`. -/
def positional (ds : List Char) (e : Int) : List Char :=
  if e < 0 then
    ['0', '.'] ++ List.replicate (e.natAbs - 1) '0' ++ ds
  else
    let whole := e.toNat + 1
    if ds.length ≤ whole then ds ++ List.replicate (whole - ds.length) '0'
    else ds.take whole ++ ['.'] ++ ds.drop whole

/-- A decimal in the given format. -/
def Digits.written (f : Format) (d : Digits) : List Char :=
  let ds := Nat.toDigits 10 d.digits
  let e := d.exponent + ds.length - 1
  if f.leastPositional ≤ e ∧ e < f.endPositional then positional ds e
  else pointed ds ++ exponentPart f e

/-- The sign of a negative number. -/
def sign (negative : Bool) : List Char := if negative then ['-'] else []

/-- The characters of a number. -/
def chars (x : Float) : List Char :=
  match classify x with
  | .nan => ['N', 'a', 'N']
  | .infinite negative => [if negative then '-' else '+', 'I', 'n', 'f']
  | .zero negative => sign negative ++ ['0']
  | .finite negative size => sign negative ++ size.shortest.written format

/-- The text of a number. -/
def written (x : Float) : Text := Text.ofChars (chars x)

end Decimal

end Scriptlet
