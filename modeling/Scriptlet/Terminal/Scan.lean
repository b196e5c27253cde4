import Scriptlet.Token.Scan

/-!
# Terminals

The grammar reads *terminals*. They are found by rules tried in a fixed order at each place of the
source: the first that matches wins, and what it matches is as long as the rule allows. White space
and comments are dropped. A comment or string literal that is never closed is found by a rule of its
own behind the one for closed ones and spoils the source, as does a place where no rule matches.

Rules look at glyphs, so bytes that encode no character can stand in comments and strings.
-/

namespace Scriptlet

/-! ## §1 Terminals -/

/-- The kinds of terminals. -/
inductive TerminalKind where
  | number
  | string
  | ident
  | operator
  | punct
  /-- The end of the source. -/
  | ending
  deriving DecidableEq, Repr

namespace TerminalKind

/-- The kinds in order. -/
def all : List TerminalKind := [.number, .string, .ident, .operator, .punct, .ending]

/-- The name of a kind. -/
def label : TerminalKind → Text
  | .number => "Number"
  | .string => "String"
  | .ident => "Ident"
  | .operator => "Operator"
  | .punct => "Punct"
  | .ending => "EOF"

/-- The kind with a name. -/
def ofLabel? (t : Text) : Option TerminalKind := all.find? fun k => k.label == t

end TerminalKind

/-- A terminal: its kind, its text as written and its place. -/
structure Terminal where
  kind : TerminalKind
  text : Text
  loc : Location
  deriving DecidableEq, Repr

/-- The terminals of a source, with the place where it ends. -/
structure Stream where
  items : Array Terminal
  ending : Location
  deriving DecidableEq, Repr

/-! ## §2 Rules

Each rule says how many glyphs it matches at the head of a list. -/

/-- The number of glyphs up to and with the first star and slash. -/
def blockEnd? : List Glyph → Option Nat
  | [] => none
  | [_] => none
  | a :: b :: rest =>
    if a.is '*' && b.is '/' then some 2 else (blockEnd? (b :: rest)).map (· + 1)

/-- The number of glyphs up to and with the quote; a backslash shields the glyph behind it. -/
def quoteEnd? (quote : Char) : List Glyph → Option Nat
  | [] => none
  | g :: rest =>
    if g.is quote then some 1
    else if g.is '\\' then
      match rest with
      | [] => none
      | _ :: rest' => (quoteEnd? quote rest').map (· + 2)
    else (quoteEnd? quote rest).map (· + 1)

/-- The length of the longest start whose glyphs are all characters of the class. -/
def runLength (p : Char → Bool) (gs : List Glyph) : Nat :=
  (gs.takeWhile fun | .char c => p c | .stray _ => false).length

/-- The glyphs start with the characters. -/
def startsWithChars (cs : List Char) (gs : List Glyph) : Bool := (cs.map Glyph.char).isPrefixOf gs

/-- What a rule matches. -/
inductive ScanRule where
  | space
  | comment
  | openComment
  | terminal (kind : TerminalKind)
  | openString
  deriving DecidableEq, Repr

/-- The operators of the grammar, longer ones first. -/
def terminalOperators : List (List Char) :=
  [['*', '*'], ['+', '+'], ['-', '-'], ['=', '='], ['!', '='], ['<', '='], ['>', '='], ['&', '&'],
    ['|', '|'], ['-', '='], ['+', '='], ['*', '='], ['/', '='], ['%', '='], ['-'], ['+'], ['*'],
    ['/'], ['%'], ['='], ['<'], ['>'], ['!']]

/-- The punctuation of the grammar. -/
def punctuation : List Char :=
  ['(', ')', '\x7b', '\x7d', '[', ']', ',', ';', '.']

/-- A comment: two slashes up to the end of the line, or a slash and a star up to a star and a
slash. -/
def commentLength? (gs : List Glyph) : Option Nat :=
  if startsWithChars ['/', '/'] gs then some (gs.takeWhile fun g => !g.is '\n').length
  else if startsWithChars ['/', '*'] gs then (blockEnd? (gs.drop 2)).map (· + 2)
  else none

/-- A number: digits, then perhaps a point and more digits. -/
def numberLength? (gs : List Glyph) : Option Nat :=
  let whole := runLength isDecimalDigit gs
  if whole == 0 then none
  else
    match gs.drop whole with
    | .char '.' :: rest => some (whole + 1 + runLength isDecimalDigit rest)
    | _ => some whole

/-- The quote that the glyphs start with. -/
def openingQuote? : List Glyph → Option Char
  | .char c :: _ => if Mark.isQuoteChar c then some c else none
  | _ => none

/-- A name: a letter or underscore, then letters, digits and underscores. -/
def identLength? (gs : List Glyph) : Option Nat :=
  match gs with
  | .char c :: rest =>
    if isWordStart c then some (1 + runLength (fun d => isWordStart d || isDecimalDigit d) rest)
    else none
  | _ => none

/-- The number of glyphs that a rule matches at the head of a list. -/
def ScanRule.length? (rule : ScanRule) (gs : List Glyph) : Option Nat :=
  match rule with
  | .space =>
    let n := runLength isSpaceChar gs
    if n == 0 then none else some n
  | .comment => commentLength? gs
  | .openComment => if startsWithChars ['/', '*'] gs then some gs.length else none
  | .terminal .number => numberLength? gs
  | .terminal .string =>
    (openingQuote? gs).bind fun q => (quoteEnd? q (gs.drop 1)).map (· + 1)
  | .openString => (openingQuote? gs).map fun _ => gs.length
  | .terminal .ident => identLength? gs
  | .terminal .operator =>
    (terminalOperators.find? fun cs => startsWithChars cs gs).map List.length
  | .terminal .punct =>
    match gs with
    | .char c :: _ => if punctuation.contains c then some 1 else none
    | _ => none
  | .terminal .ending => none

/-- The rules in the order in which they are tried. -/
def scanRules : List ScanRule :=
  [.space, .comment, .openComment, .terminal .number, .terminal .string, .openString,
    .terminal .ident, .terminal .operator, .terminal .punct]

/-- The first rule that matches at the head of a list, and the number of glyphs it matches. -/
def firstRule? (gs : List Glyph) : Option (ScanRule × Nat) :=
  scanRules.findSome? fun rule => (rule.length? gs).map fun n => (rule, n)

/-! ## §3 The scanner -/

/-- Why a source has no terminals. -/
inductive ScanFault where
  /-- No rule matches; the sample shows what stands there. -/
  | invalidInput (sample : Text)
  | openComment
  | openString
  deriving DecidableEq, Repr

/-- A fault at its place. -/
structure ScanError where
  fault : ScanFault
  loc : Location
  deriving DecidableEq, Repr

/-- The wording of a fault. -/
def ScanFault.message : ScanFault → Text
  | .invalidInput sample => "invalid input text " ++ sample.quoted
  | .openComment => "unterminated block comment"
  | .openString => "unterminated string literal"

/-- The first sixteen glyphs, and three dots if there are more. -/
def sampleOf (gs : List Glyph) : Text :=
  let shown := Text.ofChars ((gs.take 16).map Glyph.shown)
  if gs.length > 16 then shown ++ "..." else shown

/-- The terminals of glyphs of which the first `passed` belong to a match already made, and the
place behind the last glyph. -/
def scanFrom (loc : Location) : Nat → List Glyph → Except ScanError (List Terminal × Location)
  | _, [] => .ok ([], loc)
  | passed + 1, g :: rest => scanFrom (loc.after g) passed rest
  | 0, g :: rest =>
    match firstRule? (g :: rest) with
    | none => .error ⟨.invalidInput (sampleOf (g :: rest)), loc⟩
    | some (.openComment, _) => .error ⟨.openComment, loc⟩
    | some (.openString, _) => .error ⟨.openString, loc⟩
    | some (.terminal kind, n) => do
      let (more, ending) ← scanFrom (loc.after g) (n - 1) rest
      return (⟨kind, Glyph.text ((g :: rest).take n), loc⟩ :: more, ending)
    | some (.space, n) | some (.comment, n) => scanFrom (loc.after g) (n - 1) rest

/-- The terminals of a source. -/
def scanTerminals (source : Text) : Except ScanError Stream := do
  let (items, ending) ← scanFrom .start 0 source.glyphs
  return ⟨items.toArray, ending⟩

/-! ## §4 String literals -/

/-- The character that a backslash and `c` stand for. -/
def escapedChar : Char → Char
  | 'n' => '\n'
  | 't' => '\t'
  | 'r' => '\r'
  | '0' => '\x00'
  | c => c

/-- Decodes escapes; a backslash at the very end stands for nothing. -/
def decodeEscapes : List Char → List Char
  | [] => []
  | '\\' :: rest =>
    match rest with
    | [] => []
    | c :: rest' => escapedChar c :: decodeEscapes rest'
  | c :: rest => c :: decodeEscapes rest

/-- The contents of a string literal. Without a backslash they are the bytes between the quotes;
with one the text is decoded character by character, stray bytes becoming U+FFFD. -/
def unquote (literal : Text) : Text :=
  let body : Text := (literal.drop 1).dropLast
  if body.contains 92 then Text.ofChars (decodeEscapes body.chars) else body

end Scriptlet
