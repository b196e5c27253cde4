import Scriptlet.Decimal.Reading

/-!
# Powers of numbers

A finite base other than zero is split into a factor between one half and one and a power of two.
The whole part of the exponent is worked off bit by bit: the base is squared for every bit and
multiplied in where the bit is set, factor and power of two apart, so that nothing overflows on the
way. What the exponent has beyond a whole number goes through the logarithm. The result is put
together once, at the end, with one rounding.

Zeros, infinities and exponents too large to be odd have powers that follow from size and sign
alone.

## Contents

- §1 scaled numbers
- §2 logarithm and exponential
- §3 powers
-/

namespace Scriptlet

namespace Power

/-! ## §1 Scaled numbers -/

/-- The number `factor · 2^exponent`. -/
structure Scaled where
  factor : Float
  exponent : Int

namespace Scaled

/-- One. -/
def one : Scaled := ⟨1, 0⟩

/-- A finite number with its factor between one half and one. -/
def ofFloat (x : Float) : Scaled :=
  let (factor, exponent) := x.frExp
  ⟨factor, exponent⟩

/-- The nearest number. -/
def toFloat (s : Scaled) : Float := s.factor.scaleB s.exponent

/-- The product. -/
def mul (s t : Scaled) : Scaled := ⟨s.factor * t.factor, s.exponent + t.exponent⟩

/-- The square, its factor at least one half again. -/
def square (s : Scaled) : Scaled :=
  let factor := s.factor * s.factor
  if factor < 0.5 then ⟨factor + factor, 2 * s.exponent - 1⟩ else ⟨factor, 2 * s.exponent⟩

/-- One over the number. -/
def inverse (s : Scaled) : Scaled := ⟨1 / s.factor, -s.exponent⟩

/-- A power of two that no further factor brings back into the range of numbers. -/
def reach : Nat := 4096

/-- The number `acc · base^n`. Once the base is out of reach the result is, too. -/
def mulPow (acc base : Scaled) (n : Nat) : Scaled :=
  if n = 0 then acc
  else if base.exponent.natAbs > reach then { acc with exponent := acc.exponent + base.exponent }
  else mulPow (if n % 2 = 1 then acc.mul base else acc) base.square (n / 2)
termination_by n

end Scaled

/-! ## §2 Logarithm and exponential -/

/-- The value at `x` of a polynomial whose coefficients are listed from the constant one up. -/
def polynomial (coefficients : List Float) (x : Float) : Float :=
  coefficients.foldr (fun c value => c + x * value) 0

/-- The natural logarithm of two, cut in two so that small multiples of the first part are exact. -/
def logTwo : Float × Float := (6.93147180369123816490e-01, 1.90821492927058770002e-10)

/-- The natural logarithm of a positive number: with the factor `1 + f` between the roots of one
half and two, that of the factor is a polynomial in `f / (2 + f)`. -/
def naturalLog (x : Float) : Float :=
  let s := Scaled.ofFloat x
  let s : Scaled :=
    if s.factor < 0.70710678118654752440 then ⟨s.factor * 2, s.exponent - 1⟩ else s
  let f := s.factor - 1
  let k := Float.ofInt s.exponent
  let q := f / (2 + f)
  let q2 := q * q
  let q4 := q2 * q2
  let odd := q2 * polynomial
    [6.666666666666735130e-01, 2.857142874366239149e-01, 1.818357216161805012e-01,
      1.479819860511658591e-01] q4
  let even := q4 * polynomial
    [3.999999999940941908e-01, 2.222219843214978396e-01, 1.531383769920937332e-01] q4
  let half := 0.5 * f * f
  k * logTwo.1 - ((half - (q * (half + (odd + even)) + k * logTwo.2)) - f)

/-- The exponential function less one at `2 · x`, from its value at `x`. -/
def doubled (value : Float) : Float := value * (value + 2)

/-- The exponential function: multiples of the logarithm of two become a power of two, and the
sixteenth part of the rest is small enough for the first terms of the series. -/
def exponential (x : Float) : Float :=
  let k := (1.4426950408889634073599246810018920 * x).round
  let rest := x - 0.69314718055966295651160180568695068359375 * k
  let rest := rest - 0.28235290563031577122588448175013436025525412068e-12 * k
  let part := rest * 0.0625
  let series := part * polynomial
    [1, 0.5, 1.6666666666666666667e-1, 4.1666666666666666667e-2, 8.3333333333333333333e-3,
      1.3888888888888888889e-3, 1.9841269841269841270e-4, 2.4801587301587301587e-5] part
  let value := doubled (doubled (doubled (doubled series)))
  (value + 1).scaleB k.toInt64.toInt

/-! ## §3 Powers -/

/-- The size from which on all numbers are even, and whole parts are no longer taken. -/
def evenFrom : Float := 9223372036854775808

/-- The number is odd. -/
def isOdd (y : Float) : Bool :=
  let size := y.abs
  size < evenFrom && size.floor == size && size.toUInt64.toNat % 2 == 1

/-- The number with its sign changed if asked for. -/
def negatedIf (negative : Bool) (x : Float) : Float := if negative then -x else x

/-- The power of a finite base other than zero to a finite exponent other than zero. -/
def finite (x y : Float) : Float :=
  let size := y.abs
  let whole := size.floor
  let beyond := size - whole
  if beyond != 0 && x < 0 then Decimal.notANumber
  else if evenFrom ≤ whole then
    if x == -1 then 1 else if (x.abs < 1) == (0 < y) then 0 else Decimal.infinity
  else
    let start : Scaled × Float :=
      if beyond == 0 then (.one, whole)
      else if 0.5 < beyond then (⟨exponential ((beyond - 1) * naturalLog x), 0⟩, whole + 1)
      else (⟨exponential (beyond * naturalLog x), 0⟩, whole)
    let result := start.1.mulPow (.ofFloat x) start.2.toUInt64.toNat
    (if y < 0 then result.inverse else result).toFloat

/-- The power `x^y`. Any number to the power zero is one, and so is one to any power; a negative
number has powers to whole exponents only. Half an exponent is a square root. -/
def pow (x y : Float) : Float :=
  if y == 0 || x == 1 then 1
  else if y == 1 then x
  else
    match Decimal.classify x, Decimal.classify y with
    | .nan, _ | _, .nan => Decimal.notANumber
    | .zero negative, _ =>
      negatedIf (negative && isOdd y) (if y < 0 then Decimal.infinity else 0)
    | _, .infinite down =>
      if x == -1 then 1 else if (x.abs < 1) == !down then 0 else Decimal.infinity
    | .infinite negative, _ =>
      negatedIf (negative && isOdd y) (if y < 0 then 0 else Decimal.infinity)
    | _, _ =>
      if y == 0.5 then x.sqrt
      else if y == -0.5 then 1 / x.sqrt
      else finite x y

end Power

end Scriptlet
