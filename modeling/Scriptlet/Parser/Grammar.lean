import Scriptlet.Parser.Basic
import Scriptlet.Program.Node
import Scriptlet.Decimal.Reading

/-!
# The grammar of programs

Expressions bind, from tight to loose: calls and atoms, operators before operands, `**` to the
right, `* / %`, `+ -`, comparisons, `&&`, `||`, the last five to the left. Statements end with a
semicolon, which may be left out at the end of the source.

Four rules are recursive. The grammar is written over whatever parsers stand for them, and `unfold`
puts the grammar itself in their place as often as needed: between two nested uses of one rule at
least one terminal is read, so four times the number of terminals, and a little more, is enough.
-/

namespace Scriptlet

namespace Grammar

open Scriptlet.Parser

/-- The recursive rules. -/
inductive Rule where
  | expression
  | statement
  | unary
  | power
  deriving DecidableEq, Repr

/-- Parsers for the recursive rules. -/
abbrev Rules := Rule → Parser Node

/-! ## §1 Expressions -/

/-- The operation that a terminal stands for. -/
def operationOf (t : Terminal) : BinaryOp := (BinaryOp.ofSymbol? t.text).getD .add

/-- An operand, then operators of the list each with an operand, grouped to the left. -/
def leftChain (operand : Parser Node) (ops : List Text) : Parser Node := do
  let first ← operand
  let rest ← many (do
    let op ← firstOf (ops.map punct)
    let right ← operand
    return (op, right))
  return rest.foldl (fun left (op, right) => .binary (operationOf op) left right op.loc) first

/-- A number. -/
def number : Parser Node := do
  let t ← token (some .number) "number"
  return .number ((Decimal.readNearest? t.text).getD 0) t.loc

/-- A string. -/
def string : Parser Node := do
  let t ← token (some .string) "string"
  return .string (unquote t.text) t.loc

/-- A name. -/
def identifier : Parser Node := do
  let t ← ident
  return .ident t.text t.loc

/-- A name and arguments. -/
def call (rules : Rules) : Parser Node := do
  let callee ← ident
  let args ← between "(" (commaList (rules .expression)) ")"
  return Node.ofCall callee.text args callee.loc

/-- The tightest expressions. -/
def atom (rules : Rules) : Parser Node :=
  firstOf [call rules, identifier, number, string, between "(" (rules .expression) ")"]

/-- An operator before an operand. -/
def leadingOp (rules : Rules) (symbol : Text) (op : UnaryOp) : Parser Node := do
  let t ← punct symbol
  let operand ← rules .unary
  return .unary op operand t.loc

/-- Operators before operands; a plus sign leaves no trace. -/
def unary (rules : Rules) : Parser Node :=
  firstOf
    [ leadingOp rules "!" .not,
      leadingOp rules "-" .negate,
      (do let _ ← punct "+"; rules .unary),
      atom rules ]

/-- Powers, grouped to the right. -/
def power (rules : Rules) : Parser Node := do
  let base ← rules .unary
  withDefault
    (do
      let t ← punct "**"
      let exponent ← rules .power
      return .binary .power base exponent t.loc)
    base

/-- Expressions, the loosest form. -/
def expression (rules : Rules) : Parser Node :=
  let product := leftChain (rules .power) ["*", "/", "%"]
  let sum := leftChain product ["+", "-"]
  let comparison := leftChain sum ["==", "!=", "<=", ">=", "<", ">"]
  let conjunction := leftChain comparison ["&&"]
  leftChain conjunction ["||"]

/-! ## §2 Statements -/

/-- What ends a statement. -/
def terminator : Parser Terminal := firstOf [punct ";", ending]

/-- `p` and the end of the statement. -/
def terminated (p : Parser Node) : Parser Node := do
  let x ← p
  let _ ← terminator
  return x

/-- `return` with or without a value. -/
def returnStmt (rules : Rules) : Parser Node := do
  let t ← keyword "return"
  terminated do
    let result ← withDefault (rules .expression) .missing
    return .giveBack result t.loc

/-- Statements in braces, with the place of the opening one. -/
def braces (rules : Rules) : Parser (List Node × Location) := do
  let t ← punct "\x7b"
  let stmts ← many (rules .statement)
  let _ ← punct "\x7d"
  return (stmts, t.loc)

/-- A function; the one named `main` is the entry point, whatever its parameters. -/
def functionStmt (rules : Rules) : Parser Node := do
  let t ← keyword "function"
  let name ← ident
  let params ← between "(" (commaList ident) ")"
  let (body, bodyLoc) ← braces rules
  if name.text = "main" then return .main body t.loc
  else return .function name.text (params.map Terminal.text) body bodyLoc t.loc

/-- A condition in parentheses. -/
def condition (rules : Rules) : Parser Node := between "(" (rules .expression) ")"

/-- A choice; `else` belongs to the nearest `if`. -/
def ifStmt (rules : Rules) : Parser Node := do
  let t ← keyword "if"
  let cond ← condition rules
  let yes ← rules .statement
  let no ← withDefault (do let _ ← keyword "else"; rules .statement) .missing
  return .choice cond yes no t.loc

/-- A loop. -/
def whileStmt (rules : Rules) : Parser Node := do
  let t ← keyword "while"
  let cond ← condition rules
  let body ← rules .statement
  return .loop cond body t.loc

/-- A name, a sign of assignment and a value, up to the end of the statement. -/
def binding (rules : Rules) (sign : Parser Terminal)
    (build : Terminal → Terminal → Node → Node) : Parser Node := do
  let name ← ident
  let op ← sign
  terminated do
    let value ← rules .expression
    return build name op value

/-- A declaration. -/
def varStmt (rules : Rules) : Parser Node := do
  let t ← firstOf [keyword "var", keyword "let"]
  binding rules (punct "=") fun name _ value => .declare name.text value t.loc

/-- The signs of assignment. -/
def assignSign : Parser Terminal :=
  firstOf (["=", "+=", "-=", "*=", "/=", "%="].map fun s => punct (Text.ofString s))

/-- The operation of a compound sign of assignment. -/
def compoundOf? (sign : Text) : Option BinaryOp :=
  if sign = "=" then none else BinaryOp.ofSymbol? sign.dropLast

/-- An assignment; a compound one stores the result of the operation. -/
def assignStmt (rules : Rules) : Parser Node :=
  binding rules assignSign fun name op value =>
    match compoundOf? op.text with
    | some bin =>
      .assign name.text (.binary bin (.ident name.text name.loc) value op.loc) name.loc
    | none => .assign name.text value name.loc

/-- Statements. -/
def statement (rules : Rules) : Parser Node :=
  firstOf
    [ returnStmt rules,
      functionStmt rules,
      ifStmt rules,
      whileStmt rules,
      varStmt rules,
      assignStmt rules,
      (do let (stmts, loc) ← braces rules; return .block stmts loc),
      terminated (rules .expression) ]

/-! ## §3 Programs -/

/-- The right-hand sides of the recursive rules. -/
def define (rules : Rules) : Rules
  | .expression => expression rules
  | .statement => statement rules
  | .unary => unary rules
  | .power => power rules

/-- The rules unfolded a number of times. -/
def unfold : Nat → Rules
  | 0 => fun _ => unfinished
  | n + 1 => fun r => define (unfold n) r

/-- Unfoldings enough for a stream: four rules at each of its positions. -/
def unfoldings (s : Stream) : Nat := 4 * (s.items.size + 2)

/-- The statements of a program. -/
def program (n : Nat) : Parser (List Node) := many (unfold n .statement)

/-- The program of a stream. -/
def parseStream (s : Stream) : Except ParseError Program := do
  let stmts ← (program (unfoldings s)).run s
  return ⟨stmts, .nowhere⟩

/-- The program of a source. -/
def parse (source : Text) : Except ParseError Program := do
  let s ← (scanTerminals source).mapError fun e => ⟨.scan e.fault, e.loc⟩
  parseStream s

end Grammar

end Scriptlet
