import Scriptlet.Text.Basic

/-!
# Glyphs: the units a text is read in

Reading a text as UTF-8 yields a character wherever a well-formed encoding starts and a single
stray byte everywhere else. The list of these units, the *glyphs*, is what columns count, what the
scanners walk over and what the length of a string value is measured in. Writing the glyphs out
again gives back the bytes.
-/

namespace Scriptlet

/-- One unit of a text read as UTF-8. -/
inductive Glyph where
  /-- A well-formed encoding of a character. -/
  | char (c : Char)
  /-- A byte that starts no well-formed encoding. -/
  | stray (b : UInt8)
  deriving DecidableEq, Repr

namespace Glyph

/-- The bytes of the unit. -/
def bytes : Glyph → Text
  | .char c => Text.ofChar c
  | .stray b => [b]

/-- The number of bytes of the unit. -/
def size (g : Glyph) : Nat := g.bytes.length

/-- The unit is the character `c`. -/
def is (g : Glyph) (c : Char) : Bool := g == .char c

/-- The character of the unit, a stray byte counting as U+FFFD. -/
def shown : Glyph → Char
  | .char c => c
  | .stray _ => '\uFFFD'

/-- The bytes of a sequence of units. -/
def text (gs : List Glyph) : Text := gs.flatMap bytes

end Glyph

namespace Text

/-! ## §1 Decoding -/

/-- A byte that continues a multi-byte encoding. -/
def isTail (b : UInt8) : Bool := 0x80 ≤ b && b ≤ 0xBF

/-- The six low bits that a continuation byte carries. -/
def tailBits (b : UInt8) : Nat := b.toNat % 64

/-- The second byte `b` is in range after the leading byte `a` of a three-byte encoding: neither
overlong nor a surrogate. -/
def fitsThree (a b : UInt8) : Bool :=
  isTail b && (a != 0xE0 || 0xA0 ≤ b) && (a != 0xED || b ≤ 0x9F)

/-- The second byte `b` is in range after the leading byte `a` of a four-byte encoding: neither
overlong nor beyond U+10FFFF. -/
def fitsFour (a b : UInt8) : Bool :=
  isTail b && (a != 0xF0 || 0x90 ≤ b) && (a != 0xF4 || b ≤ 0x8F)

/-- The character encoded at the start of the text, with its number of bytes. -/
def scalar? : Text → Option (Char × Nat)
  | [] => none
  | a :: rest =>
    if a < 0x80 then some (Char.ofNat a.toNat, 1)
    else if 0xC2 ≤ a && a ≤ 0xDF then
      match rest with
      | b :: _ =>
        if isTail b then some (Char.ofNat (a.toNat % 32 * 64 + tailBits b), 2) else none
      | _ => none
    else if 0xE0 ≤ a && a ≤ 0xEF then
      match rest with
      | b :: c :: _ =>
        if fitsThree a b && isTail c then
          some (Char.ofNat (a.toNat % 16 * 4096 + tailBits b * 64 + tailBits c), 3)
        else none
      | _ => none
    else if 0xF0 ≤ a && a ≤ 0xF4 then
      match rest with
      | b :: c :: d :: _ =>
        if fitsFour a b && isTail c && isTail d then
          some (Char.ofNat
            (a.toNat % 8 * 262144 + tailBits b * 4096 + tailBits c * 64 + tailBits d), 4)
        else none
      | _ => none
    else none

/-- The glyphs of a text of which the first `passed` bytes belong to a character already read. -/
def glyphsFrom : Nat → Text → List Glyph
  | _, [] => []
  | passed + 1, _ :: rest => glyphsFrom passed rest
  | 0, b :: rest =>
    match scalar? (b :: rest) with
    | some (c, n) => .char c :: glyphsFrom (n - 1) rest
    | none => .stray b :: glyphsFrom 0 rest

/-- The text read as UTF-8. -/
def glyphs (t : Text) : List Glyph := glyphsFrom 0 t

/-! ## §2 Measures and repair -/

/-- The number of glyphs: characters, each stray byte counting as one. -/
def count (t : Text) : Nat := t.glyphs.length

/-- Every byte belongs to a well-formed encoding. -/
def isUtf8 (t : Text) : Bool :=
  t.glyphs.all fun
    | .char _ => true
    | .stray _ => false

/-- The characters of the text, U+FFFD standing for each stray byte. -/
def chars (t : Text) : List Char := t.glyphs.map Glyph.shown

/-- The text with each stray byte written as U+FFFD. -/
def repaired (t : Text) : Text := ofChars t.chars

end Text

end Scriptlet
