import Scriptlet.Decimal.Reading

/-!
# Quoted strings of settings documents

Strings stand in double quotes with escapes or in single quotes without, on one line or, between
three quotes, on several. A string on several lines may contain runs of its quote: one that is
shorter than three belongs to the string, and of a longer one the last three close it.

Every reader takes the characters behind the opening quotes and gives the contents and what follows
the closing quotes, or nothing if the string is malformed or never closed.

## Contents

- §1 escapes
- §2 strings on one line
- §3 strings on several lines
-/

namespace Scriptlet

namespace Document

/-! ## §1 Escapes -/

/-- A character that ends a line. -/
def isLineEnd (c : Char) : Bool := c == '\n' || c == '\r'

/-- A character that separates the parts of a line. -/
def isBlank (c : Char) : Bool := c == ' ' || c == '\t'

/-- The character that a letter stands for behind a backslash. -/
def escapeOf? : Char → Option Char
  | 'b' => some '\x08'
  | 't' => some '\t'
  | 'n' => some '\n'
  | 'f' => some '\x0c'
  | 'r' => some '\r'
  | '"' => some '"'
  | '\\' => some '\\'
  | _ => none

/-- How many digits the number of a character has behind a letter. -/
def codeDigits? : Char → Option Nat
  | 'u' => some 4
  | 'U' => some 8
  | _ => none

/-- The character with a number, if there is one. -/
def charOf? (n : Nat) : Option Char := if n.isValidChar then some (Char.ofNat n) else none

/-- What a reader of strings gives: the contents and the characters behind the string. -/
abbrev StringRead := Option (List Char × List Char)

/-- Contents that start with some characters. -/
def StringRead.after (start : List Char) (r : StringRead) : StringRead :=
  r.map fun (body, rest) => (start ++ body, rest)

/-! ## §2 Strings on one line -/

/-- Where the reader of a string in double quotes stands. -/
inductive QuoteMode where
  | plain
  /-- Behind a backslash. -/
  | escaped
  /-- Inside a character by number, with digits still to come. -/
  | code (digits value : Nat)

/-- A string in double quotes. -/
def basicString : QuoteMode → List Char → StringRead
  | _, [] => none
  | .plain, c :: rest =>
    if c == '"' then some ([], rest)
    else if c == '\\' then basicString .escaped rest
    else if isLineEnd c then none
    else (basicString .plain rest).after [c]
  | .escaped, c :: rest =>
    match codeDigits? c, escapeOf? c with
    | some n, _ => basicString (.code n 0) rest
    | none, some d => (basicString .plain rest).after [d]
    | none, none => none
  | .code digits value, c :: rest =>
    match Decimal.hexValue? c with
    | none => none
    | some d =>
      let value := value * 16 + d
      if digits ≤ 1 then
        match charOf? value with
        | some ch => (basicString .plain rest).after [ch]
        | none => none
      else basicString (.code (digits - 1) value) rest

/-- A string in single quotes. -/
def literalString : List Char → StringRead
  | [] => none
  | c :: rest =>
    if c == '\'' then some ([], rest)
    else if isLineEnd c then none
    else (literalString rest).after [c]

/-! ## §3 Strings on several lines -/

/-- The characters behind a line end that follows the opening quotes. -/
def withoutFirstLineEnd : List Char → List Char
  | '\n' :: rest => rest
  | '\r' :: '\n' :: rest => rest
  | cs => cs

/-- The end of a string at a run of `n` quotes, of which the last three close it. Up to `most` of
them may stand there. -/
def closedBy (quote : Char) (most n : Nat) (rest : List Char) : StringRead :=
  if n ≤ most then some (List.replicate (n - 3) quote, rest) else none

/-- Where the reader of a string between three double quotes stands. -/
inductive BlockMode where
  /-- `doubled` says whether an escaped backslash stands right before. -/
  | plain (doubled : Bool)
  /-- Behind a run of `n` quotes. -/
  | quotes (n : Nat) (doubled : Bool)
  /-- Behind a backslash. -/
  | escaped
  /-- Inside a character by number, with digits still to come. -/
  | code (digits value : Nat)
  /-- In the gap behind a backslash, with a line end in it or not. -/
  | gap (lineEnd : Bool)

/-- How many quotes a run may have: five, and one more behind an escaped backslash. -/
def mostQuotes (doubled : Bool) : Nat := if doubled then 6 else 5

/-- A string between three double quotes. A gap behind a backslash must contain a line end, and
all of it is left out. -/
def basicBlock : BlockMode → List Char → StringRead
  | .quotes n doubled, [] => if n < 3 then none else closedBy '"' (mostQuotes doubled) n []
  | _, [] => none
  | .plain doubled, c :: rest =>
    if c == '"' then basicBlock (.quotes 1 doubled) rest
    else if c == '\\' then basicBlock .escaped rest
    else (basicBlock (.plain false) rest).after [c]
  | .quotes n doubled, c :: rest =>
    if c == '"' then basicBlock (.quotes (n + 1) doubled) rest
    else if 3 ≤ n then closedBy '"' (mostQuotes doubled) n (c :: rest)
    else if c == '\\' then (basicBlock .escaped rest).after (List.replicate n '"')
    else (basicBlock (.plain false) rest).after (List.replicate n '"' ++ [c])
  | .escaped, c :: rest =>
    if isBlank c || isLineEnd c then basicBlock (.gap (c == '\n')) rest
    else
      match codeDigits? c, escapeOf? c with
      | some n, _ => basicBlock (.code n 0) rest
      | none, some d => (basicBlock (.plain (c == '\\')) rest).after [d]
      | none, none => none
  | .code digits value, c :: rest =>
    match Decimal.hexValue? c with
    | none => none
    | some d =>
      let value := value * 16 + d
      if digits ≤ 1 then
        match charOf? value with
        | some ch => (basicBlock (.plain false) rest).after [ch]
        | none => none
      else basicBlock (.code (digits - 1) value) rest
  | .gap lineEnd, c :: rest =>
    if isBlank c || isLineEnd c then basicBlock (.gap (lineEnd || c == '\n')) rest
    else if !lineEnd then none
    else if c == '"' then basicBlock (.quotes 1 false) rest
    else if c == '\\' then basicBlock .escaped rest
    else (basicBlock (.plain false) rest).after [c]

/-- A string between three single quotes, behind a run of `n` quotes. -/
def literalBlock : Nat → List Char → StringRead
  | n, [] => if n < 3 then none else closedBy '\'' 5 n []
  | n, c :: rest =>
    if c == '\'' then literalBlock (n + 1) rest
    else if 3 ≤ n then closedBy '\'' 5 n (c :: rest)
    else (literalBlock 0 rest).after (List.replicate n '\'' ++ [c])

/-- A string that may stand as a key: on one line. Nothing is read where no quote stands. -/
def keyString : List Char → StringRead
  | '"' :: rest => basicString .plain rest
  | '\'' :: rest => literalString rest
  | _ => none

/-- A string that may stand as a value: on one line or on several. -/
def valueString : List Char → StringRead
  | '"' :: '"' :: '"' :: rest => basicBlock (.plain false) (withoutFirstLineEnd rest)
  | '\'' :: '\'' :: '\'' :: rest => literalBlock 0 (withoutFirstLineEnd rest)
  | cs => keyString cs

end Document

end Scriptlet
