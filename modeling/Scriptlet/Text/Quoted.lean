import Scriptlet.Text.Glyph
import Scriptlet.Text.Printable

/-!
# Quoted texts

Messages and dumps show a text between quotes on one line. The quote and the backslash get a
backslash, printable characters stand for themselves, the seven controls with a letter of their own
use it, and everything else is written by number: `\xNN` for other ASCII controls and stray bytes,
`\uNNNN` and `\UNNNNNNNN` for characters, always in lower-case hexadecimal.
-/

namespace Scriptlet

namespace Text

/-- The letter that names a control after a backslash. -/
def controlLetter (c : Char) : Option Char :=
  match c.toNat with
  | 7 => some 'a'
  | 8 => some 'b'
  | 9 => some 't'
  | 10 => some 'n'
  | 11 => some 'v'
  | 12 => some 'f'
  | 13 => some 'r'
  | _ => none

/-- A character by number. -/
def numbered (c : Char) : List Char :=
  let n := c.toNat
  if n < 0x20 || n == 0x7F then ['\\', 'x'] ++ hex 2 n
  else if n < 0x10000 then ['\\', 'u'] ++ hex 4 n
  else ['\\', 'U'] ++ hex 8 n

/-- A character as it stands between two `quote`s. -/
def quotedChar (quote c : Char) : List Char :=
  if c = quote ∨ c = '\\' then ['\\', c]
  else if isPrintable c then [c]
  else
    match controlLetter c with
    | some letter => ['\\', letter]
    | none => numbered c

/-- A glyph as it stands between two `quote`s. -/
def quotedGlyph (quote : Char) : Glyph → List Char
  | .char c => quotedChar quote c
  | .stray b => ['\\', 'x'] ++ hex 2 b.toNat

/-- The text between double quotes. -/
def quoted (t : Text) : Text :=
  ofChars (['"'] ++ t.glyphs.flatMap (quotedGlyph '"') ++ ['"'])

/-- One character between single quotes. -/
def quotedAlone (c : Char) : Text :=
  ofChars (['\''] ++ quotedChar '\'' c ++ ['\''])

end Text

end Scriptlet
