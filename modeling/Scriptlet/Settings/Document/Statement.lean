import Scriptlet.Settings.Document.Number
import Scriptlet.Settings.Document.Quoted

/-!
# Statements of settings documents

A document is a sequence of statements. One opens a table, one adds an element to an array of
tables, and one gives a key a value in the table that was opened last. A statement ends with its
line; a number sign starts a comment. Keys are bare or quoted words joined by dots. Arrays may go
over several lines, and tables that are written in braces stand on one.

## Contents

- §1 statements
- §2 layout
- §3 keys
- §4 values
- §5 documents
-/

namespace Scriptlet

namespace Document

/-! ## §1 Statements -/

/-- A key: its parts, the last behind those of the tables it is in. -/
abbrev Key := List Text

/-- A value as it is written. -/
inductive Literal where
  | string (value : Text)
  /-- A value that is neither a string nor made of others. -/
  | other
  | array (items : List Literal)
  /-- A table in braces. -/
  | braces (fields : List (Key × Literal))

/-- A statement. -/
inductive Statement where
  | table (key : Key)
  /-- One more element of an array of tables. -/
  | element (key : Key)
  | assignment (key : Key) (value : Literal)

/-! ## §2 Layout -/

/-- The characters behind blanks. -/
def skipBlanks (cs : List Char) : List Char := cs.dropWhile isBlank

/-- The characters behind a comment, if one starts here. -/
def skipComment (cs : List Char) : List Char :=
  if cs.head? == some '#' then cs.dropWhile (!isLineEnd ·) else cs

/-- The characters behind blanks, line ends and comments; `inComment` says whether a comment goes
on. -/
def skipLayout (inComment : Bool) : List Char → List Char
  | [] => []
  | c :: rest =>
    if isLineEnd c then skipLayout false rest
    else if inComment || c == '#' then skipLayout true rest
    else if isBlank c then skipLayout false rest
    else c :: rest

/-- The characters from the line end that ends a statement, with blanks and a comment in front of
it. -/
def behindStatement? (cs : List Char) : Option (List Char) :=
  match skipComment (skipBlanks cs) with
  | [] => some []
  | c :: rest => if isLineEnd c then some rest else none

/-! ## §3 Keys -/

/-- A character of a bare key. -/
def isBareChar (c : Char) : Bool := c.isAlphanum || c == '_' || c == '-'

/-- One part of a key, and what follows. -/
def keyPart? (cs : List Char) : Option (Text × List Char) :=
  match keyString cs with
  | some (body, rest) => some (Text.ofChars body, rest)
  | none =>
    match cs.span isBareChar with
    | ([], _) => none
    | (word, rest) => some (Text.ofChars word, rest)

/-- A key of at most `fuel` parts with dots between them, and what follows it and its blanks. -/
def key? : Nat → List Char → Option (Key × List Char)
  | 0, _ => none
  | fuel + 1, cs => do
    let (part, rest) ← keyPart? (skipBlanks cs)
    match skipBlanks rest with
    | '.' :: rest =>
      let (parts, rest) ← key? fuel rest
      return (part :: parts, rest)
    | rest => return ([part], rest)

/-- A key and what follows it; it has fewer parts than there are characters. -/
def readKey? (cs : List Char) : Option (Key × List Char) := key? (cs.length + 1) cs

/-! ## §4 Values -/

mutual

/-- A value and what follows it; `fuel` bounds the nesting and the number of parts. -/
def value? : Nat → List Char → Option (Literal × List Char)
  | 0, _ => none
  | fuel + 1, cs =>
    match skipBlanks cs with
    | '[' :: rest => (items? fuel rest).map fun (items, rest) => (.array items, rest)
    | '\x7b' :: rest => (fields? fuel true rest).map fun (fields, rest) => (.braces fields, rest)
    | c :: rest =>
      if c == '"' || c == '\'' then
        (valueString (c :: rest)).map fun (body, rest) => (.string (Text.ofChars body), rest)
      else (behindWord? (c :: rest)).map fun rest => (.other, rest)
    | [] => none

/-- The items of an array behind its bracket or a comma. -/
def items? : Nat → List Char → Option (List Literal × List Char)
  | 0, _ => none
  | fuel + 1, cs =>
    match skipLayout false cs with
    | ']' :: rest => some ([], rest)
    | cs => do
      let (item, rest) ← value? fuel cs
      match skipLayout false rest with
      | ',' :: rest =>
        let (items, rest) ← items? fuel rest
        return (item :: items, rest)
      | ']' :: rest => return ([item], rest)
      | _ => none

/-- The fields of a table in braces behind the first brace, or behind a comma; none may be missing
behind a comma. -/
def fields? : Nat → Bool → List Char → Option (List (Key × Literal) × List Char)
  | 0, _, _ => none
  | fuel + 1, first, cs =>
    match first, skipBlanks cs with
    | true, '\x7d' :: rest => some ([], rest)
    | _, cs => do
      let (key, rest) ← readKey? cs
      let (value, rest) ← value? fuel (← behind? '=' rest)
      match skipBlanks rest with
      | ',' :: rest =>
        let (fields, rest) ← fields? fuel false rest
        return ((key, value) :: fields, rest)
      | '\x7d' :: rest => return ([(key, value)], rest)
      | _ => none

end

/-- A value and what follows it. Every character starts at most one value and ends at most one. -/
def readValue? (cs : List Char) : Option (Literal × List Char) := value? (2 * cs.length + 2) cs

/-! ## §5 Documents -/

/-- A statement and what follows it. -/
def statement? (cs : List Char) : Option (Statement × List Char) :=
  match cs with
  | '[' :: '[' :: rest => do
    let (key, rest) ← readKey? rest
    let rest ← behindStatement? (← behind? ']' (← behind? ']' rest))
    return (.element key, rest)
  | '[' :: rest => do
    let (key, rest) ← readKey? rest
    let rest ← behindStatement? (← behind? ']' rest)
    return (.table key, rest)
  | cs => do
    let (key, rest) ← readKey? cs
    let (value, rest) ← readValue? (← behind? '=' rest)
    let rest ← behindStatement? rest
    return (.assignment key value, rest)

/-- At most `fuel` statements, up to the end. -/
def statementsFrom? : Nat → List Char → Option (List Statement)
  | 0, _ => none
  | fuel + 1, cs =>
    match skipLayout false cs with
    | [] => some []
    | cs => do
      let (s, rest) ← statement? cs
      return s :: (← statementsFrom? fuel rest)

/-- A control that no document may contain. -/
def isForbidden (c : Char) : Bool :=
  (c.toNat < 0x20 && c != '\t' && !isLineEnd c) || c.toNat == 0x7F

/-- Every carriage return belongs to a line end. -/
def returnsEndLines : List Char → Bool
  | [] => true
  | c :: rest => (c != '\r' || rest.head? == some '\n') && returnsEndLines rest

/-- The text behind a mark that says how it is encoded. -/
def withoutOrderMark : Text → Text
  | 0xFF :: 0xFE :: rest | 0xFE :: 0xFF :: rest => rest
  | 0xEF :: 0xBB :: 0xBF :: rest => rest
  | t => t

/-- The statements of a document. -/
def statements? (t : Text) : Option (List Statement) :=
  let t := withoutOrderMark t
  let cs := t.chars
  if t.isUtf8 && !cs.any isForbidden && returnsEndLines cs then statementsFrom? (cs.length + 1) cs
  else none

end Document

end Scriptlet
