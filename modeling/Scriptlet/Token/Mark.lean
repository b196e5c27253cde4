import Scriptlet.Token.Lexeme

/-!
# Marks: characters after escapes are paired

Before anything else a source is read into *marks*. A backslash and the character behind it are one
escaped mark; every other character is a plain one. Then comments are removed: a comment starts with
two slashes or a slash and a star outside a string literal, and only plain marks can start or end
anything.

Comment removal is a walk with a mode, one mark at a time, so that what is kept of a text depends
only on the mode reached before it.
-/

namespace Scriptlet

/-! ## §1 Errors of reading tokens -/

/-- Why a source has no tokens. -/
inductive LexFault where
  /-- A byte that is not UTF-8, at an offset. -/
  | badEncoding (offset : Nat)
  /-- The source ends with a backslash. -/
  | openEscape
  /-- The source ends inside a block comment. -/
  | openComment
  /-- The source ends inside a string literal. -/
  | openString
  /-- An escaped character outside a string literal. -/
  | strayEscape (c : Char)
  /-- A character that belongs to no token. -/
  | strayCharacter (c : Char)
  /-- Operator characters that start with no operator. -/
  | unknownOperator (rest : Text)
  deriving DecidableEq, Repr

/-- A fault at its place. -/
structure LexError where
  fault : LexFault
  loc : Location
  deriving DecidableEq, Repr

namespace LexFault

/-- The wording of a fault. -/
def message : LexFault → Text
  | .badEncoding offset => "invalid UTF-8 encoding at byte " ++ Text.ofNat offset
  | .openEscape => "unterminated escape sequence"
  | .openComment => "unterminated block comment"
  | .openString => "unterminated string literal"
  | .strayEscape c => "unexpected escape sequence \\" ++ Text.ofChar c ++ " outside string literal"
  | .strayCharacter c => "unexpected character " ++ Text.quotedAlone c
  | .unknownOperator rest => "unknown operator " ++ rest.quoted

/-- More input could complete the source. -/
def isIncomplete : LexFault → Bool
  | .openEscape | .openComment | .openString => true
  | _ => false

end LexFault

/-! ## §2 Pairing escapes -/

/-- One source character. An escaped mark holds the character behind the backslash and stands at the
backslash. -/
structure Mark where
  char : Char
  escaped : Bool
  loc : Location
  deriving DecidableEq, Repr

namespace Mark

/-- The mark is `c`, not escaped. -/
def isPlain (m : Mark) (c : Char) : Bool := !m.escaped && m.char == c

/-- The character opens and closes string literals. -/
def isQuoteChar (c : Char) : Bool := c == '\'' || c == '"' || c == '\x60'

/-- The mark is a quote, not escaped. -/
def isQuote (m : Mark) : Bool := !m.escaped && isQuoteChar m.char

/-- The character a mark stands for inside a string literal. -/
def decoded (m : Mark) : Char :=
  if m.escaped then
    match m.char with
    | 'n' => '\n'
    | 't' => '\t'
    | 'r' => '\r'
    | '0' => '\x00'
    | c => c
  else m.char

/-- Reads the glyphs from a place on, pairing backslashes with what follows. -/
def ofGlyphs (loc : Location) : List Glyph → Except LexError (List Mark)
  | [] => .ok []
  | .stray _ :: _ => .error ⟨.badEncoding loc.offset, loc⟩
  | .char '\\' :: rest =>
    let next := loc.after (.char '\\')
    match rest with
    | [] => .error ⟨.openEscape, loc⟩
    | .stray _ :: _ => .error ⟨.badEncoding next.offset, next⟩
    | .char c :: rest' => do
      let more ← ofGlyphs (next.after (.char c)) rest'
      return ⟨c, true, loc⟩ :: more
  | .char c :: rest => do
    let more ← ofGlyphs (loc.after (.char c)) rest
    return ⟨c, false, loc⟩ :: more

/-- The marks of a source. -/
def ofText (t : Text) : Except LexError (List Mark) := ofGlyphs .start t.glyphs

end Mark

/-! ## §3 Removing comments -/

/-- Where the removal of comments stands between two marks. -/
inductive CommentMode where
  /-- Outside strings and comments. -/
  | code
  /-- Outside, right behind a slash that may open a comment. -/
  | slash (mark : Mark)
  /-- Inside a string literal opened by the quote. -/
  | quoted (quote : Char)
  /-- Inside a comment that runs to the end of its line. -/
  | line
  /-- Inside a block comment opened at the place. -/
  | block (opened : Location)
  /-- Inside a block comment, right behind a star. -/
  | blockStar (opened : Location)
  deriving DecidableEq, Repr

namespace CommentMode

/-- The mode behind a mark that follows code, and the marks known to stay. -/
def stepCode (m : Mark) : CommentMode × List Mark :=
  if m.isQuote then (.quoted m.char, [m])
  else if m.isPlain '/' then (.slash m, [])
  else (.code, [m])

/-- The mode behind a mark, and the marks known to stay. -/
def step : CommentMode → Mark → CommentMode × List Mark
  | .code, m => stepCode m
  | .slash s, m =>
    if m.isPlain '/' then (.line, [])
    else if m.isPlain '*' then (.block s.loc, [])
    else
      let (mode, kept) := stepCode m
      (mode, s :: kept)
  | .quoted q, m => (if m.isPlain q then .code else .quoted q, [m])
  | .line, m => if m.isPlain '\n' then (.code, [m]) else (.line, [])
  | .block opened, m => (if m.isPlain '*' then .blockStar opened else .block opened, [])
  | .blockStar opened, m =>
    if m.isPlain '/' then (.code, [])
    else (if m.isPlain '*' then .blockStar opened else .block opened, [])

/-- The marks that stay at the end of the source; a block comment must have been closed. -/
def finish : CommentMode → Except LexError (List Mark)
  | .slash s => .ok [s]
  | .block opened | .blockStar opened => .error ⟨.openComment, opened⟩
  | .code | .quoted _ | .line => .ok []

end CommentMode

/-- The marks without those of comments, from a mode on. The line end behind a line
comment stays. -/
def stripComments (mode : CommentMode) : List Mark → Except LexError (List Mark)
  | [] => mode.finish
  | m :: rest => do
    let (mode', kept) := mode.step m
    let more ← stripComments mode' rest
    return kept ++ more

end Scriptlet
