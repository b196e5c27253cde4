import Scriptlet.Text.Basic

/-!
# The shortest decimal of a floating-point number

A finite number other than zero is `m · 2^q` with naturals `m` and an integer `q`. The reals that
round to it form an interval around it, whose ends belong to it exactly when `m` is even. Among the
decimals in that interval those with the fewest digits are wanted, and of these the one nearest to
the number. All arithmetic here is exact, on natural numbers.
-/

namespace Scriptlet

namespace Decimal

/-! ## §1 Decoding -/

/-- A positive finite number `mantissa · 2^exponent`, with the two facts about its neighbours that
decide which reals round to it. -/
structure Binary where
  /-- The factor, below `2^53`. -/
  mantissa : Nat
  /-- The power of two it is scaled by. -/
  exponent : Int
  /-- The next smaller number is only half a unit away. -/
  narrowBelow : Bool
  deriving DecidableEq, Repr

/-- What the bits of a number say. -/
inductive Class where
  /-- Not a number. -/
  | nan
  /-- An infinity. -/
  | infinite (negative : Bool)
  /-- A zero. -/
  | zero (negative : Bool)
  /-- Any other number. -/
  | finite (negative : Bool) (size : Binary)
  deriving DecidableEq, Repr

/-- Reads the sign, the eleven exponent bits and the fifty-two fraction bits. -/
def classify (x : Float) : Class :=
  let bits : Nat := x.toBits.toNat
  let negative := bits / Nat.pow 2 63 == 1
  let scale : Nat := bits / Nat.pow 2 52 % Nat.pow 2 11
  let fraction : Nat := bits % Nat.pow 2 52
  if scale == 2047 then if fraction == 0 then .infinite negative else .nan
  else if scale == 0 then
    if fraction == 0 then .zero negative
    else .finite negative ⟨fraction, -1074, false⟩
  else
    .finite negative ⟨Nat.pow 2 52 + fraction, (scale : Int) - 1075, fraction == 0 && scale > 1⟩

/-! ## §2 The interval on a decimal grid -/

/-- Decimal digits `digits · 10^exponent`. -/
structure Digits where
  /-- The digits as one natural number. -/
  digits : Nat
  /-- The power of ten it is scaled by. -/
  exponent : Int
  deriving DecidableEq, Repr

/-- The interval of a number measured in steps of a decimal grid: `low`, `value` and `high` over the
common denominator `step`. -/
structure Window where
  low : Nat
  value : Nat
  high : Nat
  step : Nat
  /-- The ends round to the number too. -/
  closed : Bool

/-- The window of `b` on the grid of multiples of `10^p`. -/
def Binary.window (b : Binary) (p : Int) : Window :=
  let up (e : Int) (base : Nat) : Nat := Nat.pow base e.toNat
  let scale := up (b.exponent - 2) 2 * up (-p) 10
  let step := up (2 - b.exponent) 2 * up p 10
  { low := (4 * b.mantissa - (if b.narrowBelow then 1 else 2)) * scale
    value := 4 * b.mantissa * scale
    high := (4 * b.mantissa + 2) * scale
    step := step
    closed := b.mantissa % 2 == 0 }

/-- The grid point `c` lies in the window. -/
def Window.contains (w : Window) (c : Nat) : Bool :=
  if w.closed then w.low ≤ c * w.step && c * w.step ≤ w.high
  else w.low < c * w.step && c * w.step < w.high

/-- The grid point in the window nearest to the value: only the two neighbours of the value can be
it, because the window reaches no further on either side than they do if it reaches any point. -/
def Window.nearest? (w : Window) : Option Nat :=
  let below := w.value / w.step
  let above := below + 1
  match w.contains below, w.contains above with
  | true, true =>
    let gapBelow := w.value - below * w.step
    let gapAbove := above * w.step - w.value
    if gapBelow < gapAbove then some below
    else if gapAbove < gapBelow then some above
    else some (if below % 2 == 0 then below else above)
  | true, false => some below
  | false, true => some above
  | false, false => none

/-! ## §3 The search -/

/-- The decimal exponent one above that of the leading digit: `10^(k-1) ≤ value < 10^k`.
Every positive number is above `10^-400`, so counting the digits of its whole multiples of
that suffices. -/
def Binary.magnitude (b : Binary) : Int :=
  let w := b.window (-400)
  ((Nat.toDigits 10 (w.value / w.step)).length : Int) - 400

/-- Moves zeros at the end of the digits into the exponent; `fuel` bounds their number. -/
def Digits.trimmed : Nat → Digits → Digits
  | 0, d => d
  | fuel + 1, d =>
    if d.digits % 10 == 0 && d.digits != 0 then
      trimmed fuel ⟨d.digits / 10, d.exponent + 1⟩
    else d

/-- Tries `n`, `n + 1`, … digits, `fuel` attempts in all. -/
def Binary.search (b : Binary) (magnitude : Int) : Nat → Nat → Digits
  | 0, n => ⟨(b.window (magnitude - n)).value / (b.window (magnitude - n)).step, magnitude - n⟩
  | fuel + 1, n =>
    let p := magnitude - n
    match (b.window p).nearest? with
    | some c => Digits.trimmed 20 ⟨c, p⟩
    | none => search b magnitude fuel (n + 1)

/-- The shortest decimal that rounds to the number, and of the shortest the nearest. Seventeen
digits always suffice. -/
def Binary.shortest (b : Binary) : Digits := b.search b.magnitude 17 1

end Decimal

end Scriptlet
