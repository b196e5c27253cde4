import Scriptlet.Parser.Basic

/-!
# Parsers as data

A *form* describes a parser: terminals, sequences, choices, repetition and references to named
rules. Rules are defined at most once; one that is used without a definition refuses every input.
-/

namespace Scriptlet

/-- The description of a parser. -/
inductive Form where
  | ending
  | ident
  | punct (text : Text)
  | keyword (word : Text)
  /-- A terminal of a kind; `none` is the kind of no terminal. -/
  | token (kind : Option TerminalKind) (what : Text)
  | constant (value : Text)
  | refuse (what : Text)
  /-- Both, with the value of the second. -/
  | both (first second : Form)
  /-- Both, with the pair of their values. -/
  | pair (first second : Form)
  /-- The form, and then punctuation with the text it yielded. -/
  | twice (form : Form)
  | firstOf (forms : List Form)
  /-- The form, with its value under a tag. -/
  | tagged (tag : Text) (form : Form)
  | many (form : Form)
  /-- The form or nothing. -/
  | optional (form : Form)
  /-- A named rule. -/
  | rule (name : Text)

/-- What a form yields. -/
inductive Yield where
  | text (value : Text)
  | list (items : List Yield)
  | nothing

namespace Yield

/-- The text of a yield, empty if it is none. -/
def textOf : Yield → Text
  | .text t => t
  | _ => []

end Yield

namespace Form

open Scriptlet.Parser

/-- The text of a terminal as a yield. -/
def textOfTerminal (t : Terminal) : Yield := .text t.text

mutual

/-- The parser of a form, given those of named rules. -/
def parser (rules : Text → Parser Yield) : Form → Parser Yield
  | .ending => textOfTerminal <$> Parser.ending
  | .ident => textOfTerminal <$> Parser.ident
  | .punct text => textOfTerminal <$> Parser.punct text
  | .keyword word => textOfTerminal <$> Parser.keyword word
  | .token kind what => textOfTerminal <$> Parser.token kind what
  | .constant value => Parser.constant (.text value)
  | .refuse what => Parser.refuse what
  | .both p q => do
    let _ ← parser rules p
    parser rules q
  | .pair p q => do
    let a ← parser rules p
    let b ← parser rules q
    return .list [a, b]
  | .twice p => do
    let a ← parser rules p
    let _ ← Parser.punct a.textOf
    return a
  | .firstOf ps => Parser.firstOf (parsers rules ps)
  | .tagged tag p => do
    let a ← parser rules p
    return .list [.text tag, a]
  | .many p => do
    let items ← Parser.many (parser rules p)
    return .list items
  | .optional p => Parser.withDefault (parser rules p) .nothing
  | .rule name => rules name

/-- The parsers of some forms. -/
def parsers (rules : Text → Parser Yield) : List Form → List (Parser Yield)
  | [] => []
  | p :: ps => parser rules p :: parsers rules ps

end

/-- Definitions of rules, in order. -/
abbrev Definitions := List (Text × Form)

/-- The first rule that is defined twice. -/
def definedTwice? : Definitions → List Text → Option Text
  | [], _ => none
  | (name, _) :: rest, seen =>
    if seen.contains name then some name else definedTwice? rest (name :: seen)

/-- The named rules, unfolded a number of times. -/
def unfold (defs : Definitions) : Nat → Text → Parser Yield
  | 0, _ => unfinished
  | n + 1, name =>
    match defs.lookup name with
    | some p => p.parser (unfold defs n)
    | none => Parser.refuse (name ++ " (undefined rule)")

/-- Runs a form over a stream. Rules that read something before they come back to themselves are
unfolded at most once per rule and position. -/
def run (defs : Definitions) (p : Form) (s : Stream) : Except ParseError Yield :=
  (p.parser (unfold defs ((defs.length + 2) * (s.items.size + 2)))).run s

end Form

/-- The wording of a rule being defined twice. -/
def definedTwiceMessage (name : Text) : Text := "parser: rule " ++ name ++ " defined twice"

end Scriptlet
