import Scriptlet.Proofs.Combinators

/-!
# The rules of the grammar as combinators

Every rule of the grammar is a combinator, in which the recursive rules are named and not parsed:
`Grammar.production` writes them down, part by part as the parsers are. The parsers of the
productions are those of the grammar, so what is said of runs of combinators is said of the grammar.

## Contents

- §1 combinators for lists, brackets and marks
- §2 expressions
- §3 statements
- §4 the table of rules
-/

namespace Scriptlet

/-! ## §1 Combinators for lists, brackets and marks -/

namespace Combinator

variable {ι : Type} {τ : ι → Type} {α : Type}

instance : Monad (Combinator ι τ) where
  pure := constant
  bind := bind

/-- Operator or punctuation with the text. -/
def punct (text : Text) : Combinator ι τ Terminal := terminal (.punct text)

/-- The word. -/
def keyword (word : Text) : Combinator ι τ Terminal := terminal (.keyword word)

/-- A name that is not reserved. -/
def ident : Combinator ι τ Terminal := terminal .ident

/-- One of some punctuation marks. -/
def anyOf (texts : List Text) : Combinator ι τ Terminal := firstOf (texts.map punct)

/-- Items with a comma between neighbours, or none at all. -/
def commaList (item : Combinator ι τ α) : Combinator ι τ (List α) :=
  optional
    (do
      let first ← item
      let rest ← many (do let _ ← punct ","; item)
      return first :: rest)
    []

/-- The combinator between two punctuation marks. -/
def between (opening : Text) (c : Combinator ι τ α) (closing : Text) : Combinator ι τ α := do
  let _ ← punct opening
  let a ← c
  let _ ← punct closing
  return a

section

variable {β : Type} (rules : (i : ι) → Parser (τ i))

/-- One after the other as combinators is one after the other as parsers. -/
theorem parser_bind (c : Combinator ι τ α) (f : α → Combinator ι τ β) :
    (c >>= f).parser rules = c.parser rules >>= fun a => (f a).parser rules := rfl

/-- Each combinator is read by the parser of its name, so that grammars and parsers have one form.
-/
theorem parser_many (c : Combinator ι τ α) :
    (many c).parser rules = Parser.many (c.parser rules) := rfl

theorem parser_anyOf (texts : List Text) :
    (anyOf texts : Combinator ι τ Terminal).parser rules
      = Parser.firstOf (texts.map Parser.punct) := by
  rw [anyOf, parser_firstOf, List.map_map]
  rfl

theorem parser_commaList (item : Combinator ι τ α) :
    (commaList item).parser rules = Parser.commaList (item.parser rules) :=
  parser_optional rules _ []

theorem parser_between (opening closing : Text) (c : Combinator ι τ α) :
    (between opening c closing).parser rules
      = Parser.between opening (c.parser rules) closing := rfl

end

end Combinator

namespace Grammar

open Combinator

/-- Parts of productions. -/
abbrev Part : Type → Type 1 := Combinator Rule fun _ => Node

/-! ## §2 Expressions -/

namespace Part

/-- An operand, then operators of the list each with an operand, grouped to the left. -/
def leftChain (operand : Part Node) (ops : List Text) : Part Node := do
  let first ← operand
  let rest ← many (do
    let op ← anyOf ops
    let right ← operand
    return (op, right))
  return rest.foldl (fun left (op, right) => .binary (operationOf op) left right op.loc) first

/-- A number. -/
def number : Part Node := do
  let t ← terminal (.token (some .number) "number")
  return .number ((Decimal.readNearest? t.text).getD 0) t.loc

/-- A string. -/
def string : Part Node := do
  let t ← terminal (.token (some .string) "string")
  return .string (unquote t.text) t.loc

/-- A name. -/
def identifier : Part Node := do
  let t ← ident
  return .ident t.text t.loc

/-- A name and arguments. -/
def call : Part Node := do
  let callee ← ident
  let args ← between "(" (commaList (rule .expression)) ")"
  return Node.ofCall callee.text args callee.loc

/-- An expression in parentheses. -/
def group : Part Node := between "(" (rule .expression) ")"

/-- The tightest expressions. -/
def atom : Part Node := firstOf [call, identifier, number, string, group]

/-- An operator before an operand. -/
def leadingOp (symbol : Text) (op : UnaryOp) : Part Node := do
  let t ← punct symbol
  let operand ← rule .unary
  return .unary op operand t.loc

/-- Operators before operands. -/
def unary : Part Node :=
  firstOf
    [ leadingOp "!" .not,
      leadingOp "-" .negate,
      (do let _ ← punct "+"; rule .unary),
      atom ]

/-- Powers. -/
def power : Part Node := do
  let base ← rule .unary
  optional
    (do
      let t ← punct "**"
      let exponent ← rule .power
      return .binary .power base exponent t.loc)
    base

/-- Expressions. -/
def expression : Part Node :=
  let product := leftChain (rule .power) ["*", "/", "%"]
  let sum := leftChain product ["+", "-"]
  let comparison := leftChain sum ["==", "!=", "<=", ">=", "<", ">"]
  let conjunction := leftChain comparison ["&&"]
  leftChain conjunction ["||"]

/-! ## §3 Statements -/

/-- What ends a statement. -/
def terminator : Part Terminal := firstOf [punct ";", terminal .ending]

/-- The part and the end of the statement. -/
def terminated (c : Part Node) : Part Node := do
  let x ← c
  let _ ← terminator
  return x

/-- `return` with or without a value. -/
def returnStmt : Part Node := do
  let t ← keyword "return"
  terminated do
    let result ← optional (rule .expression) .missing
    return .giveBack result t.loc

/-- Statements in braces, with the place of the opening one. -/
def braces : Part (List Node × Location) := do
  let t ← punct "\x7b"
  let stmts ← many (rule .statement)
  let _ ← punct "\x7d"
  return (stmts, t.loc)

/-- A function, or the entry point. -/
def functionStmt : Part Node := do
  let t ← keyword "function"
  let name ← ident
  let params ← between "(" (commaList ident) ")"
  let (body, bodyLoc) ← braces
  if name.text = "main" then return .main body t.loc
  else return .function name.text (params.map Terminal.text) body bodyLoc t.loc

/-- A choice. -/
def ifStmt : Part Node := do
  let t ← keyword "if"
  let cond ← group
  let yes ← rule .statement
  let no ← optional (do let _ ← keyword "else"; rule .statement) .missing
  return .choice cond yes no t.loc

/-- A loop. -/
def whileStmt : Part Node := do
  let t ← keyword "while"
  let cond ← group
  let body ← rule .statement
  return .loop cond body t.loc

/-- A name, a sign of assignment and a value, up to the end of the statement. -/
def binding (sign : Part Terminal) (build : Terminal → Terminal → Node → Node) : Part Node := do
  let name ← ident
  let op ← sign
  terminated do
    let value ← rule .expression
    return build name op value

/-- A declaration. -/
def varStmt : Part Node := do
  let t ← firstOf [keyword "var", keyword "let"]
  binding (punct "=") fun name _ value => .declare name.text value t.loc

/-- An assignment. -/
def assignStmt : Part Node :=
  binding (anyOf (["=", "+=", "-=", "*=", "/=", "%="].map Text.ofString)) fun name op value =>
    match compoundOf? op.text with
    | some bin =>
      .assign name.text (.binary bin (.ident name.text name.loc) value op.loc) name.loc
    | none => .assign name.text value name.loc

/-- A block. -/
def blockStmt : Part Node := do
  let (stmts, loc) ← braces
  return .block stmts loc

/-- Statements. -/
def statement : Part Node :=
  firstOf
    [ returnStmt, functionStmt, ifStmt, whileStmt, varStmt, assignStmt, blockStmt,
      terminated (rule .expression) ]

/-- The statements of a program. -/
def program : Part (List Node) := many (rule .statement)

end Part

/-! ## §4 The table of rules -/

/-- The name of a rule. -/
def Rule.name : Rule → Text
  | .expression => "expression"
  | .statement => "statement"
  | .unary => "unary"
  | .power => "power"

/-- The right-hand side of a rule. -/
def production : Rule → Part Node
  | .expression => Part.expression
  | .statement => Part.statement
  | .unary => Part.unary
  | .power => Part.power

/-- The rules of the grammar. -/
def table : RuleTable Rule fun _ => Node := ⟨Rule.name, fun r => some (production r)⟩

section

variable (rules : Rules)

/-- A chain of operators is the parser's chain over the operand's parser. -/
theorem parser_leftChain (operand : Part Node) (ops : List Text) :
    (Part.leftChain operand ops).parser rules = leftChain (operand.parser rules) ops := by
  simp only [Part.leftChain, parser_bind, parser_many, parser_anyOf]
  rfl

/-- The productions are, one by one, the rules of the parser: here calls. -/
theorem parser_call : Part.call.parser rules = call rules := by
  simp only [Part.call, parser_bind, parser_between, parser_commaList]
  rfl

theorem parser_atom : Part.atom.parser rules = atom rules := by
  rw [Part.atom, parser_firstOf]
  simp only [List.map_cons, parser_call]
  rfl

theorem parser_unary : Part.unary.parser rules = unary rules := by
  rw [Part.unary, parser_firstOf]
  simp only [List.map_cons, parser_atom]
  rfl

theorem parser_power : Part.power.parser rules = power rules := by
  simp only [Part.power, parser_bind, parser_optional]
  rfl

/-- Expressions are the loosest of the chains, as in the parser. -/
theorem parser_expression : Part.expression.parser rules = expression rules := by
  simp only [Part.expression, parser_leftChain]
  rfl

/-- A statement is terminated as in the parser. -/
theorem parser_terminated (c : Part Node) :
    (Part.terminated c).parser rules = terminated (c.parser rules) := by
  simp only [Part.terminated, Part.terminator, parser_bind, parser_firstOf]
  rfl

theorem parser_returnStmt : Part.returnStmt.parser rules = returnStmt rules := by
  simp only [Part.returnStmt, parser_bind, parser_terminated, parser_optional]
  rfl

theorem parser_functionStmt : Part.functionStmt.parser rules = functionStmt rules := by
  simp only [Part.functionStmt, parser_bind, parser_between, parser_commaList]
  refine congrArg (_ >>= ·) (funext fun t => congrArg (_ >>= ·) (funext fun name => ?_))
  refine congrArg (_ >>= ·) (funext fun params => congrArg (_ >>= ·) (funext fun body => ?_))
  -- the name decides which node it is
  dsimp only
  split <;> rfl

theorem parser_ifStmt : Part.ifStmt.parser rules = ifStmt rules := by
  simp only [Part.ifStmt, parser_bind, parser_optional]
  rfl

/-- Declarations and assignments share one production, with their sign and what they build. -/
theorem parser_binding (sign : Part Terminal) (build : Terminal → Terminal → Node → Node) :
    (Part.binding sign build).parser rules = binding rules (sign.parser rules) build := by
  simp only [Part.binding, parser_bind, parser_terminated]
  rfl

theorem parser_varStmt : Part.varStmt.parser rules = varStmt rules := by
  simp only [Part.varStmt, parser_bind, parser_firstOf, parser_binding]
  rfl

theorem parser_assignStmt : Part.assignStmt.parser rules = assignStmt rules := by
  rw [Part.assignStmt, parser_binding, parser_anyOf]
  rfl

/-- The statements are tried in the parser's order. -/
theorem parser_statement : Part.statement.parser rules = statement rules := by
  rw [Part.statement, parser_firstOf]
  simp only [List.map_cons, parser_returnStmt, parser_functionStmt, parser_ifStmt, parser_varStmt,
    parser_assignStmt, parser_terminated]
  rfl

/-- A production means the right-hand side of its rule. -/
theorem parser_production (r : Rule) : (production r).parser rules = define rules r := by
  cases r with
  | expression => exact parser_expression rules
  | statement => exact parser_statement rules
  | unary => exact parser_unary rules
  | power => exact parser_power rules

end

/-- The rules of the table are those of the grammar, however often they are unfolded. -/
theorem unfold_table (n : Nat) : table.unfold n = unfold n := by
  induction n with
  | zero => rfl
  | succ n ih =>
    funext r
    show (production r).parser (table.unfold n) = define (unfold n) r
    rw [ih, parser_production]

/-- The program's production, with its rules unfolded to a height, is the parser at that height.
-/
theorem parser_program (n : Nat) : Part.program.parser (table.unfold n) = program n := by
  rw [unfold_table]
  rfl

end Grammar

end Scriptlet
