import Scriptlet.Eval.Power
import Scriptlet.Eval.Scope
import Scriptlet.Decimal.Reading
import Scriptlet.Text.Blank

/-!
# Operations on values

What the operators and primitives of the language do, apart from evaluating operands, writing output
and calling functions. Each either gives a value or says what is wrong with its operands.

## Contents

- §1 faults
- §2 remainders and order of numbers
- §3 operators
- §4 primitives
-/

namespace Scriptlet

/-! ## §1 Faults -/

/-- What can go wrong while a program runs. -/
inductive Fault where
  | naming (fault : NameFault)
  | cannotNegate (type : ValueType)
  | unknownUnary (op : UnaryOp)
  | expectsNumbers (op : BinaryOp) (left right : ValueType)
  | divisionByZero
  | unknownBinary (op : BinaryOp)
  | notCallable (name : Text)
  | argumentCount (name : Text) (expected got : Nat)
  | depthExceeded (name : Text)
  /-- A primitive called by the name failed with the message. -/
  | primitive (name message : Text)
  /-- A fault with a message of its own. -/
  | custom (message : Text)
  deriving DecidableEq, Repr

/-- The wording of a fault. -/
def Fault.message : Fault → Text
  | .naming fault => fault.message
  | .cannotNegate type => "cannot negate " ++ type.name
  | .unknownUnary op => "unknown unary operator " ++ op.symbol
  | .expectsNumbers op left right =>
    "operator " ++ op.symbol ++ " expects numbers, got " ++ left.name ++ " and " ++ right.name
  | .divisionByZero => "division by zero"
  | .unknownBinary op => "unknown binary operator " ++ op.symbol
  | .notCallable name => name ++ " is not callable"
  | .argumentCount name expected got =>
    name ++ " expects " ++ Text.ofNat expected ++ " arguments, got " ++ Text.ofNat got
  | .depthExceeded name => "call depth exceeded in " ++ name
  | .primitive name message => name ++ ": " ++ message
  | .custom message => message

/-! ## §2 Numbers -/

/-- The remainder of a division that rounds towards zero, with the sign of the dividend. It is
exact: both operands are integers times a common power of two. -/
def remainder (x y : Float) : Float :=
  match Decimal.classify x, Decimal.classify y with
  | .nan, _ | _, .nan | .infinite _, _ | _, .zero _ => Decimal.notANumber
  | .zero _, _ | _, .infinite _ => x
  | .finite negative a, .finite _ b =>
    let e := min a.exponent b.exponent
    let shift (n : Decimal.Binary) : Nat := n.mantissa * Nat.pow 2 (n.exponent - e).toNat
    let r := Decimal.ofBinary (shift a % shift b) e
    if negative then -r else r

/-- The order of two numbers; those that cannot be compared count as equal. -/
def numberOrder (x y : Float) : Ordering :=
  if x < y then .lt else if y < x then .gt else .eq

/-- Whether an operator of comparison accepts an order. -/
def BinaryOp.accepts : BinaryOp → Ordering → Bool
  | .less, o => o == .lt
  | .lessEqual, o => o != .gt
  | .greater, o => o == .gt
  | _, o => o != .lt

/-! ## §3 Operators -/

/-- Applies an operator to its operand. -/
def UnaryOp.apply (op : UnaryOp) (v : Value) : Except Fault Value :=
  match op, v with
  | .not, v => .ok (.bool !v.isTruthy)
  | .negate, .number x => .ok (.number (-x))
  | .negate, v => .error (.cannotNegate v.type)
  | .unknown code, _ => .error (.unknownUnary (.unknown code))

/-- Applies an operator to two numbers. -/
def BinaryOp.applyNumbers (op : BinaryOp) (x y : Float) : Except Fault Value :=
  match op with
  | .add => .ok (.number (x + y))
  | .subtract => .ok (.number (x - y))
  | .multiply => .ok (.number (x * y))
  | .divide => if y == 0 then .error .divisionByZero else .ok (.number (x / y))
  | .modulo => if y == 0 then .error .divisionByZero else .ok (.number (remainder x y))
  | .power => .ok (.number (Power.pow x y))
  | .less | .lessEqual | .greater | .greaterEqual => .ok (.bool (op.accepts (numberOrder x y)))
  | _ => .error (.unknownBinary op)

/-- Applies an operator that evaluates both operands. Equality takes any values, addition
joins texts if one side is a string, and strings can be compared with each other; all else
wants numbers. -/
def BinaryOp.apply (op : BinaryOp) (v w : Value) : Except Fault Value :=
  match op, v, w with
  | .equal, v, w => .ok (.bool (v.equal w))
  | .notEqual, v, w => .ok (.bool !(v.equal w))
  | .add, .string s, w => .ok (.string (s ++ w.display))
  | .add, v, .string t => .ok (.string (v.display ++ t))
  | .less, .string s, .string t | .lessEqual, .string s, .string t
  | .greater, .string s, .string t | .greaterEqual, .string s, .string t =>
    .ok (.bool (op.accepts (s.order t)))
  | op, .number x, .number y => op.applyNumbers x y
  | op, v, w => .error (.expectsNumbers op v.type w.type)

/-! ## §4 Primitives -/

/-- The only argument of a primitive. -/
def soleArgument : List Value → Except Text Value
  | [v] => .ok v
  | args => .error ("expects 1 argument, got " ++ Text.ofNat args.length)

/-- The number of glyphs of a string. -/
def lengthOf : Value → Except Text Value
  | .string t => .ok (.number (Float.ofNat t.count))
  | v => .error ("expects a string, got " ++ v.type.name)

/-- The number that a value stands for. -/
def numberFrom? : Value → Except Text Value
  | .number x => .ok (.number x)
  | .bool b => .ok (.number (if b then 1 else 0))
  | .string t =>
    match Decimal.read t.trim with
    | .ok x => .ok (.number x)
    | .error _ => .error ("invalid number " ++ t.quoted)
  | v => .error ("cannot convert " ++ v.type.name ++ " to number")

/-- The line that printing some values writes. -/
def printedLine (args : List Value) : Text := Text.line (Text.words (args.map Value.display))

end Scriptlet
