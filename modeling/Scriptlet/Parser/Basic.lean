import Scriptlet.Terminal.Scan

/-!
# Parsers with a memory of how far they got

A parser reads terminals from a position and either yields a value and the position behind what it
read, or fails. Alternatives are tried in order and the first that succeeds is taken. Beside that
every run keeps a *trace*: the furthest position at which a terminal was refused and, without
repetition and in order, what had been expected there. When a source does not parse, the trace is
what the error reports.

Recursive rules are parsers that take one more unfolding; a run that has used up its unfoldings is
`unfinished`, which is neither success nor failure.

## Contents

- §1 streams and traces
- §2 parsers and their sequencing
- §3 terminals
- §4 choice and repetition
- §5 running a parser
-/

namespace Scriptlet

/-! ## §1 Streams and traces -/

namespace Stream

/-- The terminal at a position; behind the last one the source ends. -/
def peek (s : Stream) (pos : Nat) : Terminal := s.items[pos]?.getD ⟨.ending, [], s.ending⟩

/-- The position behind a position; the end is never passed. -/
def next (s : Stream) (pos : Nat) : Nat := if pos < s.items.size then pos + 1 else pos

end Stream

/-- The furthest refusal of a run. -/
structure Trace where
  /-- The furthest position at which a terminal was refused; zero if none was. -/
  furthest : Nat
  /-- What was expected there, in order of first refusal. -/
  expected : List Text
  deriving DecidableEq, Repr

namespace Trace

/-- Nothing refused. -/
def empty : Trace := ⟨0, []⟩

/-- Notes that `what` was expected at a position. -/
def note (t : Trace) (pos : Nat) (what : Text) : Trace :=
  if t.furthest < pos then ⟨pos, [what]⟩
  else if pos == t.furthest && !t.expected.contains what then ⟨t.furthest, t.expected ++ [what]⟩
  else t

end Trace

/-! ## §2 Parsers -/

/-- What became of a parse. -/
inductive Reply (α : Type) where
  /-- A value, and the position behind what was read. -/
  | done (value : α) (pos : Nat)
  /-- The input is not of the form. -/
  | failed
  /-- The unfoldings of recursive rules are used up. -/
  | unfinished

/-- A parser: from a position of a stream and the trace so far to a reply and the trace after it. -/
def Parser (α : Type) : Type := Stream → Nat → Trace → Reply α × Trace

namespace Parser

variable {α β : Type}

/-- Yields a value and reads nothing. -/
def constant (a : α) : Parser α := fun _ pos t => (.done a pos, t)

/-- Runs `p`, then the parser that its value determines. -/
def bind (p : Parser α) (f : α → Parser β) : Parser β := fun s pos t =>
  match p s pos t with
  | (.done a pos', t') => f a s pos' t'
  | (.failed, t') => (.failed, t')
  | (.unfinished, t') => (.unfinished, t')

instance : Monad Parser where
  pure := constant
  bind := bind

/-- Fails, having expected `what`. -/
def refuse (what : Text) : Parser α := fun _ pos t => (.failed, t.note pos what)

/-- A recursive rule without unfoldings left. -/
def unfinished : Parser α := fun _ _ t => (.unfinished, t)

/-! ## §3 Terminals -/

/-- Reads a terminal that satisfies `p`, described as `what`. -/
def satisfy (p : Terminal → Bool) (what : Text) : Parser Terminal := fun s pos t =>
  let x := s.peek pos
  if p x then (.done x (s.next pos), t) else (.failed, t.note pos what)

/-- Reads a terminal of a kind; `none` is the kind of no terminal. -/
def token (kind : Option TerminalKind) (what : Text) : Parser Terminal :=
  satisfy (fun x => some x.kind == kind) what

/-- Reads an operator or punctuation with the text. -/
def punct (text : Text) : Parser Terminal :=
  satisfy (fun x => (x.kind == .operator || x.kind == .punct) && x.text == text)
    ("'" ++ text ++ "'")

/-- Reads the word. -/
def keyword (word : Text) : Parser Terminal :=
  satisfy (fun x => x.kind == .ident && x.text == word) word

/-- Reads a name that is not reserved. -/
def ident : Parser Terminal :=
  satisfy (fun x => x.kind == .ident && !isReserved x.text) "identifier"

/-- Succeeds at the end of the source. -/
def ending : Parser Terminal := satisfy (fun x => x.kind == .ending) "end of input"

/-! ## §4 Choice and repetition -/

/-- The first of the parsers that succeeds. -/
def firstOf : List (Parser α) → Parser α
  | [] => fun _ _ t => (.failed, t)
  | p :: ps => fun s pos t =>
    match p s pos t with
    | (.failed, t') => firstOf ps s pos t'
    | outcome => outcome

/-- `p`, or a value without reading anything if `p` fails. -/
def withDefault (p : Parser α) (a : α) : Parser α := firstOf [p, constant a]

/-- Applies `p` at most `count` times. -/
def manyUpTo (p : Parser α) : Nat → Parser (List α)
  | 0 => constant []
  | count + 1 => fun s pos t =>
    match p s pos t with
    | (.done a pos', t') =>
      -- a round that read nothing would repeat for ever; its value is dropped
      if pos' = pos then (.done [] pos, t')
      else
        match manyUpTo p count s pos' t' with
        | (.done as pos'', t'') => (.done (a :: as) pos'', t'')
        | outcome => outcome
    | (.failed, t') => (.done [] pos, t')
    | (.unfinished, t') => (.unfinished, t')

/-- Applies `p` until it fails or reads nothing. Each round but the last reads a terminal, so there
are no more rounds than terminals, and one more for the last. -/
def many (p : Parser α) : Parser (List α) := fun s => manyUpTo p (s.items.size + 1) s

/-- Items with a comma between neighbours, or none at all. -/
def commaList (item : Parser α) : Parser (List α) :=
  withDefault
    (do
      let first ← item
      let rest ← many (do let _ ← punct ","; item)
      return first :: rest)
    []

/-- `p` between two punctuation marks. -/
def between (opening : Text) (p : Parser α) (closing : Text) : Parser α := do
  let _ ← punct opening
  let a ← p
  let _ ← punct closing
  return a

end Parser

/-! ## §5 Running a parser -/

/-- Why a source does not parse. -/
inductive ParseFault where
  /-- The source has no terminals. -/
  | scan (fault : ScanFault)
  /-- One of some forms was expected; `found` is the text there, or nothing at the end. -/
  | expected (what : List Text) (found : Option Text)
  /-- The unfoldings of recursive rules are used up. -/
  | unfinished
  deriving DecidableEq, Repr

/-- A fault at its place. -/
structure ParseError where
  fault : ParseFault
  loc : Location
  deriving DecidableEq, Repr

namespace ParseFault

/-- The wording of a fault. -/
def message : ParseFault → Text
  | .scan fault => fault.message
  | .expected what found =>
    "expected " ++ Text.join ", " what ++ ", found "
      ++ (match found with
        | some text => text.quoted
        | none => "end of input")
  | .unfinished => "rule unfoldings exhausted"

/-- More input could complete the source. -/
def isIncomplete : ParseFault → Bool
  | .scan .openComment | .scan .openString => true
  | .expected _ none => true
  | _ => false

end ParseFault

/-- The error that a trace reports. -/
def Trace.error (t : Trace) (s : Stream) : ParseError :=
  let x := s.peek t.furthest
  let found := if x.kind == .ending then none else some x.text
  ⟨.expected t.expected found, x.loc⟩

/-- Runs a parser, which must read the whole stream. -/
def Parser.run {α : Type} (p : Parser α) (s : Stream) : Except ParseError α :=
  let whole : Parser α := do
    let a ← p
    let _ ← Parser.ending
    return a
  match whole s 0 .empty with
  | (.done a _, _) => .ok a
  | (.failed, t) => .error (t.error s)
  | (.unfinished, _) => .error ⟨.unfinished, s.ending⟩

end Scriptlet
