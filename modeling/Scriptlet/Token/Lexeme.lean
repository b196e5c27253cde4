import Scriptlet.Location
import Scriptlet.Text.Quoted

/-!
# Lexemes and tokens

A token is a lexeme at a place of the source. Lexemes are reserved words, names, numbers, strings,
operators and delimiters. An operator carries its *fixity*: whether it stands before its operand,
behind it, between two, or merely separates.

## Contents

- §1 delimiter families and sides
- §2 reserved words
- §3 operators and their fixity
- §4 lexemes, tokens and how they are shown
-/

namespace Scriptlet

/-! ## §1 Delimiters -/

/-- The pairs of delimiters. -/
inductive Family where
  | parenthesis
  | bracket
  | brace
  deriving DecidableEq, Repr

/-- The two sides of a pair. -/
inductive Side where
  | left
  | right
  deriving DecidableEq, Repr

namespace Family

/-- The families in order. -/
def all : List Family := [.parenthesis, .bracket, .brace]

/-- The character on a side of the family. -/
def char : Family → Side → Char
  | .parenthesis, .left => '('
  | .parenthesis, .right => ')'
  | .bracket, .left => '['
  | .bracket, .right => ']'
  | .brace, .left => '\x7b'
  | .brace, .right => '\x7d'

/-- The opening delimiter. -/
def opening (f : Family) : Text := Text.ofChar (f.char .left)

/-- The closing delimiter. -/
def closing (f : Family) : Text := Text.ofChar (f.char .right)

/-- The name of the family. -/
def name : Family → Text
  | .parenthesis => "parenthesis"
  | .bracket => "bracket"
  | .brace => "brace"

/-- The family and side that a character is a delimiter of. -/
def ofChar? (c : Char) : Option (Family × Side) :=
  (all.flatMap fun f => [(f, Side.left), (f, Side.right)]).find? fun (f, s) => f.char s == c

end Family

/-! ## §2 Reserved words -/

/-- The reserved words. -/
inductive Keyword where
  | letWord
  | varWord
  | returnWord
  | ifWord
  | elseWord
  | whileWord
  | functionWord
  deriving DecidableEq, Repr

namespace Keyword

/-- The reserved words in order. -/
def all : List Keyword :=
  [.letWord, .varWord, .returnWord, .ifWord, .elseWord, .whileWord, .functionWord]

/-- The word itself. -/
def spelling : Keyword → Text
  | .letWord => "let"
  | .varWord => "var"
  | .returnWord => "return"
  | .ifWord => "if"
  | .elseWord => "else"
  | .whileWord => "while"
  | .functionWord => "function"

/-- The reserved word that a text spells. -/
def ofText? (t : Text) : Option Keyword := all.find? fun k => k.spelling == t

end Keyword

/-- The text is a reserved word. -/
def isReserved (t : Text) : Bool := (Keyword.ofText? t).isSome

/-! ## §3 Operators -/

/-- Where an operator stands with respect to its operands. -/
inductive Fixity where
  /-- Before its operand. -/
  | leading
  /-- Behind its operand. -/
  | trailing
  /-- Between two operands. -/
  | dual
  /-- It separates and has no operands. -/
  | separator
  deriving DecidableEq, Repr

/-- The operators. -/
inductive Operator where
  | power
  | increment
  | decrement
  | equal
  | notEqual
  | lessEqual
  | greaterEqual
  | logicalAnd
  | logicalOr
  | addAssign
  | subtractAssign
  | multiplyAssign
  | divideAssign
  | moduloAssign
  | plus
  | minus
  | times
  | divide
  | modulo
  | assign
  | less
  | greater
  | bang
  | ampersand
  | bar
  | caret
  | dot
  | comma
  | semicolon
  | question
  | colon
  deriving DecidableEq, Repr

namespace Operator

/-- The operators, longer spellings first, so that the first that fits is the longest. -/
def table : List Operator :=
  [.power, .increment, .decrement, .equal, .notEqual, .lessEqual, .greaterEqual, .logicalAnd,
    .logicalOr, .addAssign, .subtractAssign, .multiplyAssign, .divideAssign, .moduloAssign,
    .plus, .minus, .times, .divide, .modulo, .assign, .less, .greater, .bang, .ampersand, .bar,
    .caret, .dot, .comma, .semicolon, .question, .colon]

/-- The characters of an operator. -/
def chars : Operator → List Char
  | .power => ['*', '*']
  | .increment => ['+', '+']
  | .decrement => ['-', '-']
  | .equal => ['=', '=']
  | .notEqual => ['!', '=']
  | .lessEqual => ['<', '=']
  | .greaterEqual => ['>', '=']
  | .logicalAnd => ['&', '&']
  | .logicalOr => ['|', '|']
  | .addAssign => ['+', '=']
  | .subtractAssign => ['-', '=']
  | .multiplyAssign => ['*', '=']
  | .divideAssign => ['/', '=']
  | .moduloAssign => ['%', '=']
  | .plus => ['+']
  | .minus => ['-']
  | .times => ['*']
  | .divide => ['/']
  | .modulo => ['%']
  | .assign => ['=']
  | .less => ['<']
  | .greater => ['>']
  | .bang => ['!']
  | .ampersand => ['&']
  | .bar => ['|']
  | .caret => ['^']
  | .dot => ['.']
  | .comma => [',']
  | .semicolon => [';']
  | .question => ['?']
  | .colon => [':']

/-- The text of an operator. -/
def spelling (op : Operator) : Text := Text.ofChars op.chars

/-- The longest operator that the characters start with. -/
def leading? (cs : List Char) : Option Operator :=
  table.find? fun op => op.chars.isPrefixOf cs

/-- The operator that a text spells. -/
def ofText? (t : Text) : Option Operator := table.find? fun op => op.spelling == t

/-- The fixity of an operator before its neighbours are looked at. -/
def fixity : Operator → Fixity
  | .increment | .decrement => .trailing
  | .semicolon | .comma => .separator
  | .bang => .leading
  | _ => .dual

/-- Signs and steps: operators that stand before an operand when none precedes them. -/
def isSignOrStep : Operator → Bool
  | .plus | .minus | .increment | .decrement => true
  | _ => false

end Operator

/-! ## §4 Lexemes and tokens -/

/-- What a token says, apart from where it stands. -/
inductive Lexeme where
  /-- A name that is not reserved. -/
  | name (text : Text)
  /-- A reserved word. -/
  | keyword (word : Keyword)
  /-- A number as written. -/
  | number (text : Text)
  /-- A string with its escapes decoded, and whether nothing stood between its quotes. -/
  | string (value : Text) (null : Bool := value.isEmpty)
  /-- An operator. -/
  | operator (op : Operator) (fixity : Fixity)
  /-- A delimiter. -/
  | delimiter (family : Family) (side : Side)
  deriving DecidableEq, Repr

/-- The kinds of lexemes; names and reserved words are of one kind. -/
inductive Kind where
  | name
  | number
  | string
  | operator
  | delimiter
  deriving DecidableEq, Repr

namespace Kind

/-- The kinds in order. -/
def all : List Kind := [.name, .number, .string, .operator, .delimiter]

/-- The name of a kind. -/
def label : Kind → Text
  | .name => "name"
  | .number => "number"
  | .string => "string"
  | .operator => "operator"
  | .delimiter => "delimiter"

end Kind

/-- The finer division of kinds. -/
inductive Subkind where
  /-- The kind is not divided. -/
  | undivided
  | variable
  | keyword
  | leading
  | trailing
  | dual
  | separator
  | left
  | right
  deriving DecidableEq, Repr

namespace Subkind

/-- The subkinds in order. -/
def all : List Subkind :=
  [.undivided, .variable, .keyword, .leading, .trailing, .dual, .separator, .left, .right]

/-- The name of a subkind. -/
def label : Subkind → Text
  | .undivided => "n/a"
  | .variable => "variable"
  | .keyword => "keyword"
  | .leading => "prefix"
  | .trailing => "postfix"
  | .dual => "dual"
  | .separator => "none"
  | .left => "left"
  | .right => "right"

end Subkind

namespace Lexeme

/-- The lexeme of a word: reserved, or a name. -/
def ofWord (t : Text) : Lexeme :=
  match Keyword.ofText? t with
  | some k => .keyword k
  | none => .name t

/-- The kind of a lexeme. -/
def kind : Lexeme → Kind
  | .name _ | .keyword _ => .name
  | .number _ => .number
  | .string _ _ => .string
  | .operator _ _ => .operator
  | .delimiter _ _ => .delimiter

/-- The subkind of a lexeme. -/
def subkind : Lexeme → Subkind
  | .name _ => .variable
  | .keyword _ => .keyword
  | .number _ | .string _ _ => .undivided
  | .operator _ .leading => .leading
  | .operator _ .trailing => .trailing
  | .operator _ .dual => .dual
  | .operator _ .separator => .separator
  | .delimiter _ .left => .left
  | .delimiter _ .right => .right

/-- The family of a delimiter. -/
def family? : Lexeme → Option Family
  | .delimiter f _ => some f
  | _ => none

/-- The name of the family, for any lexeme. -/
def familyLabel (x : Lexeme) : Text :=
  match x.family? with
  | some f => f.name
  | none => "n/a"

/-- The text a lexeme stands for: what was written, or the contents of a string. -/
def value : Lexeme → Text
  | .name t | .number t | .string t _ => t
  | .keyword k => k.spelling
  | .operator op _ => op.spelling
  | .delimiter f s => Text.ofChar (f.char s)

/-- The lexeme is a string that was read as an empty one. -/
def isNull : Lexeme → Bool
  | .string _ null => null
  | _ => false

/-- The lexeme completes an operand, so that an operator behind it is applied to it. -/
def isOperand : Lexeme → Bool
  | .name _ | .number _ | .string _ _ => true
  | .keyword _ => false
  | .operator _ f => f == .trailing
  | .delimiter _ s => s == .right

/-- A description of the lexeme on one line. -/
def shown (x : Lexeme) : Text :=
  match x with
  | .string _ true => "string(null)"
  | .string t false => "string " ++ t.quoted
  | .delimiter f s => Text.ofChar (f.char s)
  | _ => x.kind.label ++ "/" ++ x.subkind.label ++ " " ++ x.value

end Lexeme

/-- A lexeme at its place. -/
structure Token where
  lexeme : Lexeme
  /-- Index in the token sequence. -/
  index : Nat
  /-- Nesting depth, zero until levels are assigned. -/
  level : Nat
  loc : Location
  deriving DecidableEq, Repr

end Scriptlet
