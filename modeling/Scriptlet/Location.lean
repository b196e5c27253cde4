import Scriptlet.Text.Glyph

/-!
# Places in a source text

A location counts bytes from zero and lines and columns from one; columns count glyphs, so a
character takes one column whatever its number of bytes, and so does a stray byte.
-/

namespace Scriptlet

/-- A place in a source text. -/
structure Location where
  /-- Bytes before the place. -/
  offset : Nat
  /-- Line number, from one. -/
  line : Nat
  /-- Column number in glyphs, from one. -/
  column : Nat
  deriving DecidableEq, Repr, Inhabited

namespace Location

/-- The first place of a text. -/
def start : Location := ⟨0, 1, 1⟩

/-- The location of things that stand in no source text. -/
def nowhere : Location := ⟨0, 0, 0⟩

/-- The place behind a glyph. -/
def after (l : Location) (g : Glyph) : Location :=
  if g.is '\n' then ⟨l.offset + g.size, l.line + 1, 1⟩
  else ⟨l.offset + g.size, l.line, l.column + 1⟩

/-- Line and column as messages show them. -/
def shown (l : Location) : Text := Text.ofNat l.line ++ ":" ++ Text.ofNat l.column

/-- A message that names its place first. -/
def tagged (l : Location) (message : Text) : Text := l.shown ++ ": " ++ message

end Location

end Scriptlet
