import Scriptlet.Decimal.Written
import Scriptlet.Text.Base64
import Scriptlet.Text.Glyph

/-!
# Scalars of YAML documents

A scalar is *plain* where that cannot be misread, else in single quotes, and in double quotes with
escapes where single quotes cannot hold it. One with line ends is a *literal*: a header, and its
lines on lines of their own. In flow collections, between brackets, fewer scalars are plain and none
is a literal. Bytes that are no UTF-8 are written in base 64 with a tag that says so.

## Contents

- §1 double quotes
- §2 what a style can hold
- §3 literals
- §4 names
- §5 numbers
-/

namespace Scriptlet

namespace Yaml

/-! ## §1 Double quotes -/

/-- Upper-case hexadecimal digits of `n`, at least `width` of them. -/
def upperHex (width n : Nat) : List Char := (Text.hex width n).map Char.toUpper

/-- Characters that documents can show, line ends apart. -/
def isShowable (c : Char) : Bool :=
  let n := c.toNat
  (0x20 ≤ n && n ≤ 0x7E) || (0xA0 ≤ n && n ≤ 0xD7FF) || (0xE000 ≤ n && n ≤ 0xFFFD && n != 0xFEFF)

/-- Characters that end a line. -/
def isBreak (c : Char) : Bool :=
  c == '\n' || c == '\r' || c == '\u0085' || c == '\u2028' || c == '\u2029'

/-- The letter that names a character after a backslash. -/
def escapeLetter (c : Char) : Option Char :=
  match c.toNat with
  | 0x00 => some '0'
  | 0x07 => some 'a'
  | 0x08 => some 'b'
  | 0x09 => some 't'
  | 0x0A => some 'n'
  | 0x0B => some 'v'
  | 0x0C => some 'f'
  | 0x0D => some 'r'
  | 0x1B => some 'e'
  | 0x22 => some '"'
  | 0x5C => some '\\'
  | 0x85 => some 'N'
  | 0xA0 => some '_'
  | 0x2028 => some 'L'
  | 0x2029 => some 'P'
  | _ => none

/-- A character behind a backslash, by letter or by number. -/
def escaped (c : Char) : List Char :=
  match escapeLetter c with
  | some letter => ['\\', letter]
  | none =>
    let n := c.toNat
    if n ≤ 0xFF then ['\\', 'x'] ++ upperHex 2 n
    else if n ≤ 0xFFFF then ['\\', 'u'] ++ upperHex 4 n
    else ['\\', 'U'] ++ upperHex 8 n

/-- The character cannot stand for itself in double quotes. -/
def needsEscape (c : Char) : Bool := !isShowable c || isBreak c || c == '"' || c == '\\'

/-- Characters in double quotes. Behind a byte order mark nothing stands for itself. -/
def doubleQuoted (cs : List Char) : List Char :=
  let marked := cs.head? == some '\uFEFF'
  ['"'] ++ (cs.flatMap fun c => if marked || needsEscape c then escaped c else [c]) ++ ['"']

/-- A string in double quotes. -/
def quoted (t : Text) : Text := Text.ofChars (doubleQuoted t.chars)

/-! ## §2 What a style can hold -/

/-- Some two neighbours are so related. -/
def adjacent (related : Char → Char → Bool) : List Char → Bool
  | a :: b :: rest => related a b || adjacent related (b :: rest)
  | _ => false

/-- A space or a tab. -/
def isBlank (c : Char) : Bool := c == ' ' || c == '\t'

/-- The characters start with a blank or are none. -/
def startsBlank (cs : List Char) : Bool :=
  match cs with
  | [] => true
  | c :: _ => isBlank c

/-- A character that only double quotes can hold. -/
def isSpecial (c : Char) : Bool := !isShowable c && c != '\t' && c != '\n'

/-- Characters that a plain scalar cannot start with. -/
def indicators : List Char :=
  ['#', ',', '[', ']', '\x7b', '\x7d', '&', '*', '!', '|', '>', '\'', '"', '%', '@', '\x60']

/-- Characters that a plain scalar in a flow collection cannot hold. -/
def flowIndicators : List Char := [',', '?', ':', '[', ']', '\x7b', '\x7d']

/-- The first characters would be read as something else: a document marker, an indicator, or the
mark of an item or key. -/
def startIndicates (cs : List Char) : Bool :=
  cs.take 3 == ['-', '-', '-'] || cs.take 3 == ['.', '.', '.']
    || match cs with
      | c :: rest => indicators.contains c || ((c == '-' || c == '?') && startsBlank rest)
      | [] => false

/-- The characters would be read as something else than a plain scalar: because of their start, as a
key or as a comment. -/
def isIndicated (cs : List Char) : Bool :=
  startIndicates cs
    || adjacent (fun a b => a == ':' && isBlank b) cs || cs.getLast? == some ':'
    || adjacent (fun a b => isBlank a && b == '#') cs

/-- Single quotes can hold the characters. -/
def fitsSingle (cs : List Char) : Bool :=
  !adjacent (fun a b => (a == ' ' && isBreak b) || (isBreak a && b == ' ')) cs
    && cs.all fun c => c != '\t' && !isSpecial c

/-- The characters can be plain; `flow` says that they stand in a flow collection. -/
def fitsPlain (flow : Bool) (cs : List Char) : Bool :=
  fitsSingle cs && !cs.any isBreak && cs.head? != some ' ' && cs.getLast? != some ' '
    && !isIndicated cs && !(flow && cs.any flowIndicators.contains)

/-- A literal can hold the characters. -/
def fitsLiteral (cs : List Char) : Bool :=
  !adjacent (fun a b => a == ' ' && isBreak b) cs && cs.getLast? != some ' '
    && !cs.any isSpecial

/-- Characters in single quotes, quotes among them doubled. -/
def singleQuoted (cs : List Char) : List Char :=
  ['\''] ++ (cs.flatMap fun c => if c == '\'' then ['\'', '\''] else [c]) ++ ['\'']

/-! ## §3 Literals -/

/-- A scalar as it is written. -/
inductive Scalar where
  /-- On the line of its key. -/
  | inline (t : Text)
  /-- A header on the line of its key, and lines below. -/
  | literal (header : Text) (lines : List Text)
  deriving DecidableEq, Repr

/-- The header of a literal: its indentation where its start does not show that, and what becomes of
the line ends behind its last line. -/
def literalHeader (cs : List Char) : Text :=
  let hint : Text := if cs.head? == some ' ' || cs.head? == some '\n' then "4" else []
  let chomp : Text :=
    match cs.reverse with
    | '\n' :: c :: _ => if isBreak c then "+" else []
    | ['\n'] => "+"
    | _ => "-"
  "|" ++ hint ++ chomp

/-- The lines of a literal. A line end at the start ends the line of the header, and one at the end
opens no line. -/
def literalLines (cs : List Char) : List Text :=
  let body := if cs.head? == some '\n' then cs.drop 1 else cs
  let pieces := (Text.ofChars body).split Text.newline
  if body.isEmpty || body.getLast? == some '\n' then pieces.dropLast else pieces

/-! ## §4 Names -/

/-- Characters on one line, in the simplest style that can hold them. What has line ends is in
double quotes. -/
def onOneLine (flow : Bool) (cs : List Char) : Text :=
  if cs.isEmpty then if flow then "''" else []
  else if fitsPlain flow cs then Text.ofChars cs
  else if fitsSingle cs && !cs.contains '\n' then Text.ofChars (singleQuoted cs)
  else Text.ofChars (doubleQuoted cs)

/-- The characters with a line end behind every `width` of them, of which `room` still fit into the
current line, and behind the last. -/
def brokenFrom (width room : Nat) : List Char → List Char
  | [] => ['\n']
  | c :: rest =>
    match room with
    | 0 => '\n' :: c :: brokenFrom width (width - 1) rest
    | room + 1 => c :: brokenFrom width room rest

/-- Characters broken into lines of seventy if they do not fit into one. -/
def broken (cs : List Char) : List Char := if cs.length < 70 then cs else brokenFrom 70 70 cs

/-- The tag and the characters that stand for a text. -/
def spelling (t : Text) : Text × List Char :=
  if t.isUtf8 then ([], t.chars) else ("!!binary ", broken t.base64)

/-- A name or operator. -/
def name (t : Text) : Scalar :=
  let (tag, cs) := spelling t
  if cs.contains '\n' && fitsLiteral cs then .literal (tag ++ literalHeader cs) (literalLines cs)
  else .inline (tag ++ onOneLine false cs)

/-- A name in a flow collection. -/
def flowName (t : Text) : Text :=
  let (tag, cs) := spelling t
  tag ++ onOneLine true cs

/-! ## §5 Numbers -/

/-- A number: its text, with a tag where the text alone would not be read as a floating-point number
with a point or an exponent. -/
def number (x : Float) : Text :=
  let text := Decimal.written x
  match Decimal.classify x with
  | .finite _ _ => if text.any (fun b => b == 46 || b == 101) then text else "!!float " ++ text
  | _ => "!!float " ++ text

end Yaml

end Scriptlet
