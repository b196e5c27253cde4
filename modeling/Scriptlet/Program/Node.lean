import Scriptlet.Location

/-!
# Programs as trees

Both readers produce the same trees and both back ends consume them. A node carries the place it was
read from; two programs are the *same* if they differ in places only.

A part that a statement may lack (the value of a return, the branch behind `else`) is the node
`missing`.

## Contents

- §1 operators of expressions
- §2 nodes
- §3 places of nodes
- §4 sameness
-/

namespace Scriptlet

/-! ## §1 Operators of expressions -/

/-- Operators with one operand. -/
inductive UnaryOp where
  | not
  | negate
  /-- A number that names no operator. -/
  | unknown (code : Int)
  deriving DecidableEq, Repr

namespace UnaryOp

/-- The operator with a number. -/
def ofCode : Int → UnaryOp
  | 0 => .not
  | 1 => .negate
  | n => .unknown n

/-- The sign of an operator. -/
def symbol : UnaryOp → Text
  | .not => "!"
  | .negate => "-"
  | .unknown _ => "?"

/-- The operator that a sign stands for. -/
def ofSymbol? (t : Text) : Option UnaryOp := [UnaryOp.not, .negate].find? fun op => op.symbol == t

end UnaryOp

/-- Operators with two operands. -/
inductive BinaryOp where
  | add
  | subtract
  | multiply
  | divide
  | modulo
  | power
  | equal
  | notEqual
  | less
  | lessEqual
  | greater
  | greaterEqual
  | and
  | or
  /-- A number that names no operator. -/
  | unknown (code : Int)
  deriving DecidableEq, Repr

namespace BinaryOp

/-- The operators in order. -/
def all : List BinaryOp :=
  [.add, .subtract, .multiply, .divide, .modulo, .power, .equal, .notEqual, .less, .lessEqual,
    .greater, .greaterEqual, .and, .or]

/-- The operator with a number. -/
def ofCode : Int → BinaryOp
  | .ofNat n => all.getD n (.unknown n)
  | .negSucc n => .unknown (.negSucc n)

/-- The sign of an operator. -/
def symbol : BinaryOp → Text
  | .add => "+"
  | .subtract => "-"
  | .multiply => "*"
  | .divide => "/"
  | .modulo => "%"
  | .power => "**"
  | .equal => "=="
  | .notEqual => "!="
  | .less => "<"
  | .lessEqual => "<="
  | .greater => ">"
  | .greaterEqual => ">="
  | .and => "&&"
  | .or => "||"
  | .unknown _ => "?"

/-- The operator that a sign stands for. -/
def ofSymbol? (t : Text) : Option BinaryOp := all.find? fun op => op.symbol == t

/-- The number of the operator that a sign stands for. -/
def codeOfSymbol? (t : Text) : Option Nat := all.findIdx? fun op => op.symbol == t

end BinaryOp

/-! ## §2 Nodes -/

/-- A node of a program. -/
inductive Node where
  /-- A part that is not there. -/
  | missing
  /-- A number. -/
  | number (value : Float) (loc : Location)
  /-- A string. -/
  | string (value : Text) (loc : Location)
  /-- The value of a variable or function. -/
  | ident (name : Text) (loc : Location)
  | unary (op : UnaryOp) (operand : Node) (loc : Location)
  | binary (op : BinaryOp) (left right : Node) (loc : Location)
  /-- A call of a named function. -/
  | call (callee : Text) (args : List Node) (loc : Location)
  /-- Leaves the function with a result, which may be missing. -/
  | giveBack (result : Node) (loc : Location)
  /-- Statements in a scope of their own. -/
  | block (stmts : List Node) (loc : Location)
  /-- A choice; the second branch may be missing. -/
  | choice (cond yes no : Node) (loc : Location)
  /-- Repeats the body as long as the condition holds. -/
  | loop (cond body : Node) (loc : Location)
  /-- Introduces a variable in the current scope. -/
  | declare (name : Text) (value : Node) (loc : Location)
  /-- Changes a variable. -/
  | assign (name : Text) (value : Node) (loc : Location)
  /-- A function, its body a block at a place of its own. -/
  | function (name : Text) (params : List Text) (body : List Node) (bodyLoc loc : Location)
  /-- The head of a function that has no body. -/
  | prototype (name : Text) (params : List Text) (loc : Location)
  /-- The entry point of the program. -/
  | main (stmts : List Node) (loc : Location)
  /-- Checks a condition and leaves a mark. -/
  | assert (cond : Node) (loc : Location)

/-- A program: its statements, and the place it starts at. -/
structure Program where
  stmts : List Node
  loc : Location

/-- A program as one block. -/
def Program.toNode (p : Program) : Node := .block p.stmts p.loc

namespace Node

/-- The node is not there. -/
def isMissing : Node → Bool
  | .missing => true
  | _ => false

/-- A call; one of the checking function with a single argument is a check. -/
def ofCall (callee : Text) (args : List Node) (loc : Location) : Node :=
  match args with
  | [cond] => if callee = "assert" then .assert cond loc else .call callee args loc
  | _ => .call callee args loc

/-! ## §3 Places of nodes -/

/-- The place of a node. -/
def loc : Node → Location
  | .missing => .nowhere
  | .number _ l | .string _ l | .ident _ l | .unary _ _ l | .binary _ _ _ l | .call _ _ l
  | .giveBack _ l | .block _ l | .choice _ _ _ l | .loop _ _ l | .declare _ _ l
  | .assign _ _ l | .function _ _ _ _ l | .prototype _ _ l | .main _ l | .assert _ l => l

mutual

/-- The node with all places removed. -/
def cleared : Node → Node
  | .missing => .missing
  | .number v _ => .number v .nowhere
  | .string v _ => .string v .nowhere
  | .ident n _ => .ident n .nowhere
  | .unary op x _ => .unary op x.cleared .nowhere
  | .binary op x y _ => .binary op x.cleared y.cleared .nowhere
  | .call f args _ => .call f (clearedAll args) .nowhere
  | .giveBack x _ => .giveBack x.cleared .nowhere
  | .block ss _ => .block (clearedAll ss) .nowhere
  | .choice c x y _ => .choice c.cleared x.cleared y.cleared .nowhere
  | .loop c x _ => .loop c.cleared x.cleared .nowhere
  | .declare n x _ => .declare n x.cleared .nowhere
  | .assign n x _ => .assign n x.cleared .nowhere
  | .function n ps ss _ _ => .function n ps (clearedAll ss) .nowhere .nowhere
  | .prototype n ps _ => .prototype n ps .nowhere
  | .main ss _ => .main (clearedAll ss) .nowhere
  | .assert c _ => .assert c.cleared .nowhere

/-- The nodes with all places removed. -/
def clearedAll : List Node → List Node
  | [] => []
  | x :: xs => x.cleared :: clearedAll xs

end

/-! ## §4 Sameness -/

mutual

/-- The nodes differ in places only. Numbers are compared as numbers: the two zeros are the same,
and not-a-number is not the same as itself. -/
def same : Node → Node → Bool
  | .missing, .missing => true
  | .number v _, .number w _ => v == w
  | .string v _, .string w _ => v == w
  | .ident n _, .ident m _ => n == m
  | .unary op x _, .unary op' x' _ => op == op' && x.same x'
  | .binary op x y _, .binary op' x' y' _ => op == op' && x.same x' && y.same y'
  | .call f xs _, .call g ys _ => f == g && sameAll xs ys
  | .giveBack x _, .giveBack y _ => x.same y
  | .block xs _, .block ys _ => sameAll xs ys
  | .choice c x y _, .choice c' x' y' _ => c.same c' && x.same x' && y.same y'
  | .loop c x _, .loop c' x' _ => c.same c' && x.same x'
  | .declare n x _, .declare m y _ => n == m && x.same y
  | .assign n x _, .assign m y _ => n == m && x.same y
  | .function n ps xs _ _, .function m qs ys _ _ => n == m && ps == qs && sameAll xs ys
  | .prototype n ps _, .prototype m qs _ => n == m && ps == qs
  | .main xs _, .main ys _ => sameAll xs ys
  | .assert c _, .assert d _ => c.same d
  | _, _ => false

/-- The lists are equally long and their nodes pairwise the same. -/
def sameAll : List Node → List Node → Bool
  | [], [] => true
  | x :: xs, y :: ys => x.same y && sameAll xs ys
  | _, _ => false

end

end Node

end Scriptlet
