import Scriptlet.Program.Node
import Scriptlet.Decimal.Written
import Scriptlet.Text.Quoted

/-!
# Values

A value is nil, a truth value, a number, a string, a primitive or a function. Functions are compared
by identity: each evaluation of a definition makes a new one. Values that a host hands in may also
be primitives or functions without anything behind them, or of a type that the language does not
know.
-/

namespace Scriptlet

/-! ## §1 Values -/

/-- Functions built into the language, and those a host adds. -/
inductive Primitive where
  /-- Writes its arguments on one line. -/
  | print
  /-- The number of glyphs of a string. -/
  | len
  /-- The text of a value. -/
  | str
  /-- The number that a value stands for. -/
  | num
  /-- Always fails with the message. -/
  | failing (message : Text)
  /-- Always fails with an error of its own that has no place. -/
  | faulting (message : Text)
  deriving DecidableEq, Repr

/-- A function with the scope it was defined in, if any. -/
structure Closure where
  /-- Tells functions apart. -/
  id : Nat
  name : Text
  params : List Text
  body : List Node
  /-- The scope of the definition; a function from a host has none. -/
  scope : Option Nat

/-- A value. -/
inductive Value where
  | nil
  | bool (b : Bool)
  | number (x : Float)
  | string (t : Text)
  | primitive (p : Option Primitive)
  | function (f : Option Closure)
  /-- A value of a type with a number that the language does not know. -/
  | unknown (code : Int)

/-- The types of values. -/
inductive ValueType where
  | nil
  | bool
  | number
  | string
  | primitive
  | function
  | unknown
  deriving DecidableEq, Repr

namespace ValueType

/-- The known types in order. -/
def all : List ValueType := [.nil, .bool, .number, .string, .primitive, .function]

/-- The name of a type. -/
def name : ValueType → Text
  | .nil => "nil"
  | .bool => "bool"
  | .number => "number"
  | .string => "string"
  | .primitive => "primitive"
  | .function => "function"
  | .unknown => "unknown"

end ValueType

namespace Value

/-- The type of a value. -/
def type : Value → ValueType
  | .nil => .nil
  | .bool _ => .bool
  | .number _ => .number
  | .string _ => .string
  | .primitive _ => .primitive
  | .function _ => .function
  | .unknown _ => .unknown

/-- The value of the type with a number that has nothing behind it. -/
def bare : Int → Value
  | 0 => .nil
  | 1 => .bool false
  | 2 => .number 0
  | 3 => .string []
  | 4 => .primitive none
  | 5 => .function none
  | n => .unknown n

/-! ## §2 Views -/

/-- The truth value; false for values of other types. -/
def boolOf : Value → Bool
  | .bool b => b
  | _ => false

/-- The number; zero for values of other types. -/
def numberOf : Value → Float
  | .number x => x
  | _ => 0

/-- The string; empty for values of other types. -/
def stringOf : Value → Text
  | .string t => t
  | _ => []

/-- There is a primitive behind the value. -/
def hasPrimitive : Value → Bool
  | .primitive p => p.isSome
  | _ => false

/-- There is a function behind the value. -/
def hasFunction : Value → Bool
  | .function f => f.isSome
  | _ => false

/-! ## §3 Texts -/

/-- The value as output shows it. -/
def display : Value → Text
  | .nil => "nil"
  | .bool true => "true"
  | .bool false => "false"
  | .number x => Decimal.written x
  | .string t => t
  | .primitive _ => "<primitive>"
  | .function (some f) => "<function " ++ f.name ++ ">"
  | .function none => "<function>"
  | .unknown _ => "<unknown>"

/-- The value as results show it: strings are quoted. -/
def shown : Value → Text
  | .string t => t.quoted
  | v => v.display

/-! ## §4 Truth and equality -/

/-- The value counts as true in a condition. -/
def isTruthy : Value → Bool
  | .nil => false
  | .bool b => b
  | .number x => x != 0
  | .string t => !t.isEmpty
  | _ => true

/-- The values are equal. Numbers compare as numbers, functions by identity, primitives never. -/
def equal : Value → Value → Bool
  | .nil, .nil => true
  | .bool a, .bool b => a == b
  | .number x, .number y => x == y
  | .string s, .string t => s == t
  | .function (some f), .function (some g) => f.id == g.id
  | .function none, .function none => true
  | _, _ => false

end Value

end Scriptlet
