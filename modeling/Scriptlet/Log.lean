import Scriptlet.Frontend

/-!
# Log records

A record has a level, a message and named values. A logger writes records from a level on, one line
each, either as text, where what could be misread is quoted, or as an object. A strategy is written
by name in text and by number in an object.

## Contents

- §1 levels and records
- §2 lines of text
- §3 lines of objects
- §4 loggers
-/

namespace Scriptlet

namespace Log

/-! ## §1 Levels and records -/

/-- How important a record is. -/
inductive Level where
  | debug
  | info
  | warn
  | error
  deriving DecidableEq, Repr

namespace Level

/-- The number of a level; higher ones are more important. -/
def number : Level → Int
  | .debug => -4
  | .info => 0
  | .warn => 4
  | .error => 8

/-- The name of a level in records. -/
def name : Level → Text
  | .debug => "DEBUG"
  | .info => "INFO"
  | .warn => "WARN"
  | .error => "ERROR"

/-- The level that a setting names, whatever its case; an unknown name means `info`. -/
def ofName (t : Text) : Level :=
  let key := t.lower
  if key = "debug" then .debug
  else if key = "warn" ∨ key = "warning" then .warn
  else if key = "error" then .error
  else .info

end Level

/-- A named value of a record. -/
inductive Attr where
  | text (t : Text)
  | count (n : Nat)
  | strategy (s : Strategy)
  deriving DecidableEq, Repr

/-- A record. -/
structure Record where
  level : Level
  message : Text
  attrs : List (Text × Attr)
  deriving DecidableEq, Repr

/-- Texts in pairs of name and value; a name without a value becomes the value of a name that says
so. -/
def pairs : List Text → List (Text × Attr)
  | [] => []
  | [lone] => [("!BADKEY", .text lone)]
  | key :: value :: rest => (key, .text value) :: pairs rest

/-! ## §2 Lines of text -/

/-- The glyph could be misread in a line of text. -/
def needsQuoting : Glyph → Bool
  | .stray _ => true
  | .char c =>
    if c.toNat < 0x80 then c.toNat < 0x20 || c == ' ' || c == '=' || c == '"'
    else c == '\uFFFD' || !Text.isPrintable c

/-- A name or value in a line of text. -/
def plainOrQuoted (t : Text) : Text :=
  if t.isEmpty || t.glyphs.any needsQuoting then t.quoted else t

/-- The text of a value. -/
def Attr.shown : Attr → Text
  | .text t => t
  | .count n => Text.ofNat n
  | .strategy s => s.name

/-- A name and a value in a line of text. -/
def textField (key value : Text) : Text := plainOrQuoted key ++ "=" ++ plainOrQuoted value

/-- A record as a line of text. -/
def Record.textLine (r : Record) : Text :=
  Text.line (Text.words
    ([textField "level" r.level.name, textField "msg" r.message]
      ++ r.attrs.map fun (key, value) => textField key value.shown))

/-! ## §3 Lines of objects -/

/-- A glyph between quotes in an object. -/
def objectGlyph : Glyph → List Char
  | .stray _ => "\\ufffd".toList
  | .char c =>
    let n := c.toNat
    if c == '"' || c == '\\' then ['\\', c]
    else if c == '\n' then ['\\', 'n']
    else if c == '\r' then ['\\', 'r']
    else if c == '\t' then ['\\', 't']
    else if n < 0x20 || n == 0x2028 || n == 0x2029 then ['\\', 'u'] ++ Text.hex 4 n
    else [c]

/-- A text in an object. -/
def objectText (t : Text) : Text :=
  Text.ofChars (['"'] ++ t.glyphs.flatMap objectGlyph ++ ['"'])

/-- A value in an object. -/
def Attr.object : Attr → Text
  | .text t => objectText t
  | .count n => Text.ofNat n
  | .strategy s => Text.ofInt s.number

/-- A name and a value in an object. -/
def objectField (key value : Text) : Text := objectText key ++ ":" ++ value

/-- A record as an object on a line. -/
def Record.objectLine (r : Record) : Text :=
  Text.line ("\x7b" ++ Text.join ","
    ([objectField "level" (objectText r.level.name), objectField "msg" (objectText r.message)]
      ++ r.attrs.map fun (key, value) => objectField key value.object) ++ "\x7d")

/-! ## §4 Loggers -/

/-- How records are written. -/
inductive Format where
  | text
  | object
  deriving DecidableEq, Repr

/-- The format that a setting names, whatever its case; an unknown name means text. -/
def Format.ofName (t : Text) : Format := if t.lower = "json" then .object else .text

/-- What writes records. -/
structure Logger where
  /-- The number of the least important level that is written. -/
  threshold : Int
  format : Format
  deriving DecidableEq, Repr

namespace Logger

/-- A logger by the names in settings. -/
def ofNames (level format : Text) : Logger := ⟨(Level.ofName level).number, Format.ofName format⟩

/-- A logger that writes nothing. -/
def silent : Logger := ⟨Level.error.number + 1, .text⟩

/-- Records of the level are written. -/
def enables (l : Logger) (level : Level) : Bool := l.threshold ≤ level.number

/-- The line of a record; empty if it is not written. -/
def line (l : Logger) (r : Record) : Text :=
  if l.enables r.level then
    match l.format with
    | .text => r.textLine
    | .object => r.objectLine
  else []

end Logger

end Log

end Scriptlet
