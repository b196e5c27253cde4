import Scriptlet.Text.Basic

/-!
# Variables in settings

A dollar sign followed by a name stands for the value of that variable. The name is a run of ASCII
letters, digits and underscores, or anything between braces, or a single special character, digits
among them. Two malformed references vanish: an empty pair of braces, and an opening brace that is
never closed. A dollar sign followed by anything else stays.
-/

namespace Scriptlet

namespace Expansion

/-- A part of a text with references. -/
inductive Segment where
  /-- A byte that stands for itself. -/
  | byte (b : UInt8)
  /-- A reference to a variable. -/
  | variable (name : Text)
  deriving DecidableEq, Repr

/-- The byte is one of the characters. -/
def isOneOf (chars : List Char) (b : UInt8) : Bool := chars.any fun c => c.toNat == b.toNat

/-- A character that is a name by itself. -/
def isSpecial (b : UInt8) : Bool :=
  isOneOf ['*', '#', '$', '@', '!', '?', '-'] b || (48 ≤ b && b ≤ 57)

/-- A character of a longer name. -/
def isWordByte (b : UInt8) : Bool :=
  b == 95 || (48 ≤ b && b ≤ 57) || (65 ≤ b && b ≤ 90) || (97 ≤ b && b ≤ 122)

/-- The name between braces, and the number of bytes up to the closing one; `rest` follows the
opening brace. -/
def braced (rest : Text) : Text × Nat :=
  let name := rest.takeWhile (· != 125)
  if name.length = rest.length then ([], 1) else (name, name.length + 2)

/-- What stands behind a dollar sign: a name, empty if there is none, and the number of bytes that
belong to the reference. -/
def reference : Text → Text × Nat
  | [] => ([], 0)
  | b :: rest =>
    if b == 123 then braced rest
    else if isSpecial b then ([b], 1)
    else
      let name := (b :: rest).takeWhile isWordByte
      (name, name.length)

/-- The segments of a text of which the first `passed` bytes belong to a reference already read. -/
def segmentsFrom : Nat → Text → List Segment
  | _, [] => []
  | passed + 1, _ :: rest => segmentsFrom passed rest
  | 0, b :: rest =>
    if b == 36 then
      match reference rest with
      | ([], 0) => .byte b :: segmentsFrom 0 rest
      | ([], width) => segmentsFrom width rest
      | (name, width) => .variable name :: segmentsFrom width rest
    else .byte b :: segmentsFrom 0 rest

/-- The segments of a text. -/
def segments (t : Text) : List Segment := segmentsFrom 0 t

/-- The text with every reference replaced by what `lookUp` says of its name. -/
def expand {m : Type → Type} [Monad m] (lookUp : Text → m Text) (t : Text) : m Text := do
  let parts ← (segments t).mapM fun
    | .byte b => pure [b]
    | .variable name => lookUp name
  return parts.flatten

end Expansion

end Scriptlet
