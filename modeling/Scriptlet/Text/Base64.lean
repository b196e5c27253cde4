import Scriptlet.Text.Basic

/-!
# Bytes as letters

Bytes that are no text are written in base 64: three bytes are four digits of six bits each, and one
or two bytes at the end are filled up with equals signs.
-/

namespace Scriptlet

namespace Text

/-- The digit with a value below sixty-four. -/
def base64Digit (n : Nat) : Char :=
  if n < 26 then Char.ofNat (65 + n)
  else if n < 52 then Char.ofNat (97 + (n - 26))
  else if n < 62 then Char.ofNat (48 + (n - 52))
  else if n = 62 then '+'
  else '/'

/-- The bytes in base 64. -/
def base64 : Text → List Char
  | [] => []
  | [a] =>
    let n := a.toNat
    [base64Digit (n / 4), base64Digit (n % 4 * 16), '=', '=']
  | [a, b] =>
    let n := a.toNat * 256 + b.toNat
    [base64Digit (n / 1024), base64Digit (n / 16 % 64), base64Digit (n % 16 * 4), '=']
  | a :: b :: c :: rest =>
    let n := a.toNat * 65536 + b.toNat * 256 + c.toNat
    base64Digit (n / 262144) :: base64Digit (n / 4096 % 64) :: base64Digit (n / 64 % 64)
      :: base64Digit (n % 64) :: base64 rest

end Text

end Scriptlet
