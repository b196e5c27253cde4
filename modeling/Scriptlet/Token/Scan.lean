import Scriptlet.Token.Mark

/-!
# From marks to tokens

With comments gone, the marks are read one at a time. What has been read but not yet made a token is
*pending*: a word, a number, a run of operator characters or a string literal. A mark either extends
what is pending or completes it. Since comments leave no trace, the parts of a word on the two sides
of one are joined.

Runs of operator characters are split from the left, always taking the longest operator. At the end
signs and steps that follow no operand are marked as standing before one, and tokens are numbered.
-/

namespace Scriptlet

/-! ## §1 Classes of marks -/

/-- What a mark can be outside a string literal. -/
inductive MarkClass where
  | letter
  | digit
  | operator
  | delimiter (family : Family) (side : Side)
  | quote
  | blank
  | other
  deriving DecidableEq, Repr

/-- ASCII letters and the underscore. -/
def isWordStart (c : Char) : Bool :=
  ('a' ≤ c && c ≤ 'z') || ('A' ≤ c && c ≤ 'Z') || c == '_'

/-- ASCII digits. -/
def isDecimalDigit (c : Char) : Bool := '0' ≤ c && c ≤ '9'

/-- The characters that operators are made of. -/
def operatorChars : List Char :=
  ['+', '-', '*', '/', '%', '=', '<', '>', '!', '&', '|', '^', '.', ',', ';', '?', ':']

/-- The six ASCII characters that separate tokens. -/
def isSpaceChar (c : Char) : Bool :=
  c == ' ' || c == '\t' || c == '\n' || c == '\r' || c == '\x0c' || c == '\x0b'

/-- The class of a mark; an escaped one has no place outside a string literal. -/
def Mark.markClass (m : Mark) : MarkClass :=
  if m.escaped then .other
  else if isWordStart m.char then .letter
  else if isDecimalDigit m.char then .digit
  else if operatorChars.contains m.char then .operator
  else
    match Family.ofChar? m.char with
    | some (f, s) => .delimiter f s
    | none =>
      if Mark.isQuoteChar m.char then .quote
      else if isSpaceChar m.char then .blank
      else .other

/-! ## §2 Splitting operator runs -/

/-- A lexeme at its place, before it is numbered. -/
abbrev Placed := Lexeme × Location

/-- The operators of a run of which the first `passed` marks belong to one already taken. -/
def splitOperators : Nat → List Mark → Except LexError (List Placed)
  | _, [] => .ok []
  | passed + 1, _ :: rest => splitOperators passed rest
  | 0, m :: rest =>
    let cs := (m :: rest).map Mark.char
    match Operator.leading? cs with
    | none => .error ⟨.unknownOperator (Text.ofChars cs), m.loc⟩
    | some op => do
      let more ← splitOperators (op.chars.length - 1) rest
      return (.operator op op.fixity, m.loc) :: more

/-! ## §3 The scanner -/

/-- What has been read of a token that is not complete. Characters are kept newest first. -/
inductive Pending where
  /-- Nothing. -/
  | nothing
  /-- A name or reserved word. -/
  | word (chars : List Char) (loc : Location)
  /-- A number; `pointed` if it has its point already. -/
  | number (chars : List Char) (pointed : Bool) (loc : Location)
  /-- A run of operator characters. -/
  | operators (marks : List Mark)
  /-- A string literal opened by the quote. -/
  | string (quote : Char) (chars : List Char) (loc : Location)
  deriving DecidableEq, Repr

/-- The scanner between two marks. -/
structure Scan where
  /-- Complete lexemes, newest first. -/
  done : List Placed
  pending : Pending
  deriving DecidableEq, Repr

namespace Scan

/-- The scanner before the first mark. -/
def start : Scan := ⟨[], .nothing⟩

/-- Completes what is pending. A string literal is left alone: only its quote completes it. -/
def flush (s : Scan) : Except LexError Scan :=
  match s.pending with
  | .nothing | .string _ _ _ => .ok s
  | .word cs loc => .ok ⟨(.ofWord (Text.ofChars cs.reverse), loc) :: s.done, .nothing⟩
  | .number cs _ loc => .ok ⟨(.number (Text.ofChars cs.reverse), loc) :: s.done, .nothing⟩
  | .operators marks => do
    let ops ← splitOperators 0 marks.reverse
    return ⟨ops.reverse ++ s.done, .nothing⟩

/-- Completes what is pending and makes `p` pending instead. -/
def flushTo (s : Scan) (p : Pending) : Except LexError Scan := do
  let s' ← s.flush
  return { s' with pending := p }

/-- Reads a mark outside string literals. -/
def stepCode (s : Scan) (m : Mark) : Except LexError Scan :=
  match m.markClass, s.pending with
  | .letter, .word cs loc => .ok { s with pending := .word (m.char :: cs) loc }
  | .letter, _ => s.flushTo (.word [m.char] m.loc)
  | .digit, .word cs loc => .ok { s with pending := .word (m.char :: cs) loc }
  | .digit, .number cs pointed loc => .ok { s with pending := .number (m.char :: cs) pointed loc }
  | .digit, _ => s.flushTo (.number [m.char] false m.loc)
  | .operator, .operators marks => .ok { s with pending := .operators (m :: marks) }
  | .operator, .number cs pointed loc =>
    if m.char == '.' && !pointed then .ok { s with pending := .number ('.' :: cs) true loc }
    else s.flushTo (.operators [m])
  | .operator, _ => s.flushTo (.operators [m])
  | .delimiter f side, _ => do
    let s' ← s.flush
    return { s' with done := (.delimiter f side, m.loc) :: s'.done }
  | .quote, _ => s.flushTo (.string m.char [] m.loc)
  | .blank, _ => s.flush
  | .other, _ =>
    .error ⟨if m.escaped then .strayEscape m.char else .strayCharacter m.char, m.loc⟩

/-- Reads a mark. -/
def step (s : Scan) (m : Mark) : Except LexError Scan :=
  match s.pending with
  | .string q cs loc =>
    if m.isPlain q then
      .ok ⟨(.string (Text.ofChars cs.reverse) cs.isEmpty, loc) :: s.done, .nothing⟩
    else .ok { s with pending := .string q (m.decoded :: cs) loc }
  | _ => s.stepCode m

/-- The lexemes at the end of the source. -/
def finish (s : Scan) : Except LexError (List Placed) :=
  match s.pending with
  | .string _ _ loc => .error ⟨.openString, loc⟩
  | _ => do
    let s' ← s.flush
    return s'.done.reverse

end Scan

/-- The lexemes of marks without comments. -/
def scanMarks (marks : List Mark) : Except LexError (List Placed) := do
  let s ← marks.foldlM Scan.step .start
  s.finish

/-! ## §4 Tokens -/

/-- Marks each sign or step that follows no operand as standing before one; `afterOperand` says
whether an operand stands right before. -/
def markLeading (afterOperand : Bool) : List Placed → List Placed
  | [] => []
  | (.operator op fixity, loc) :: rest =>
    let fixity' := if op.isSignOrStep && !afterOperand then .leading else fixity
    let x := Lexeme.operator op fixity'
    (x, loc) :: markLeading x.isOperand rest
  | (x, loc) :: rest => (x, loc) :: markLeading x.isOperand rest

/-- Numbers lexemes from `i` on; no nesting level is known yet. -/
def numberFrom (i : Nat) : List Placed → List Token
  | [] => []
  | (x, loc) :: rest => ⟨x, i, 0, loc⟩ :: numberFrom (i + 1) rest

/-- The tokens of a source. -/
def tokenize (source : Text) : Except LexError (List Token) := do
  let marks ← Mark.ofText source
  let kept ← stripComments .code marks
  let placed ← scanMarks kept
  return numberFrom 0 (markLeading false placed)

end Scriptlet
