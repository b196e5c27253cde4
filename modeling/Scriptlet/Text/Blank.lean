import Scriptlet.Text.Glyph

/-!
# White space and letter case

Names of settings and commands of the shell are compared after white space around them is removed
and, where case does not matter, after letters are lowered. White space is the Unicode property;
U+200B is not part of it, and a stray byte never is.
-/

namespace Scriptlet

namespace Text

/-! ## §1 White space -/

/-- The character is Unicode white space. -/
def isBlankChar (c : Char) : Bool :=
  let n := c.toNat
  (9 ≤ n && n ≤ 13) || n == 0x20 || n == 0x85 || n == 0xA0 || n == 0x1680
    || (0x2000 ≤ n && n ≤ 0x200A) || n == 0x2028 || n == 0x2029 || n == 0x202F
    || n == 0x205F || n == 0x3000

/-- The glyph is white space. -/
def isBlankGlyph : Glyph → Bool
  | .char c => isBlankChar c
  | .stray _ => false

/-- The text without the white space at its two ends. -/
def trim (t : Text) : Text :=
  let kept := t.glyphs.dropWhile isBlankGlyph
  Glyph.text ((kept.reverse.dropWhile isBlankGlyph).reverse)

/-- The text is empty or holds white space only. -/
def isBlank (t : Text) : Bool := t.trim.isEmpty

/-! ## §2 Letter case

Settings are compared with words of ASCII letters, so only characters whose lower-case form is an
ASCII letter matter: the ASCII capitals, the capital I with a dot and the Kelvin sign. All others
keep a form that no such word has. -/

/-- The lower-case form of a character where that form is ASCII; the character itself otherwise. -/
def lowerChar (c : Char) : Char :=
  if c.toNat == 0x130 then 'i'
  else if c.toNat == 0x212A then 'k'
  else c.toLower

/-- The text with its letters lowered. -/
def lower (t : Text) : Text := ofChars (t.chars.map lowerChar)

/-- The representative of a character among those that differ from it in case only, for characters
that have an ASCII letter among them: the long s goes with s, the Kelvin sign with k. The capital
I with a dot goes with no other letter. -/
def foldChar (c : Char) : Char :=
  if c.toNat == 0x17F then 's'
  else if c.toNat == 0x212A then 'k'
  else c.toLower

/-- The texts differ at most in the case of their letters. -/
def sameFolded (a b : Text) : Bool :=
  a.chars.map foldChar == b.chars.map foldChar

end Text

end Scriptlet
