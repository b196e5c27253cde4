import Scriptlet.Assembly.Emit
import Scriptlet.Proofs.Processor

/-!
# The meaning of programs over words

A program over words has one slot for each variable name. Sums, differences, products and negation
wrap, quotients and remainders are those of unsigned words, comparisons are those of signed words,
and conditions are true when they are not zero. A check leaves a mark. Only expressions of numbers,
variables and operators have values.

Loops make the meaning partial: it is computed with a bound on the number of rounds of each loop,
and a program ends if it ends within some bound.

## Contents

- §1 values
- §2 statements
- §3 programs without calls
- §4 words pushed
-/

namespace Scriptlet

open Assembly (Word truth)

/-! ## §1 Values -/

/-- The slots of variables. -/
abbrev Slots := Text → Word

def UnaryOp.onWord? : UnaryOp → Word → Option Word
  | .not, a => some (truth (a == 0))
  | .negate, a => some (-a)
  | .unknown _, _ => none

/-- The value of an operator that looks at both operands. -/
def BinaryOp.onWords? (a b : Word) : BinaryOp → Option Word
  | .add => some (a + b)
  | .subtract => some (a - b)
  | .multiply => some (a * b)
  | .divide => some (a / b)
  | .modulo => some (a % b)
  | .equal => some (truth (a == b))
  | .notEqual => some (truth (a != b))
  | .less => some (truth (a.slt b))
  | .lessEqual => some (truth (a.sle b))
  | .greater => some (truth (b.slt a))
  | .greaterEqual => some (truth (b.sle a))
  | .power | .and | .or | .unknown _ => none

/-- The value of an expression. -/
def Node.word? (s : Slots) : Node → Option Word
  | .number x _ => (Assembly.Emit.integer? x).map (BitVec.ofInt 32)
  | .ident name _ => some (s name)
  | .unary op x _ => (x.word? s).bind op.onWord?
  | .binary .and x y _ =>
    (x.word? s).bind fun a =>
      if a = 0 then some 0 else (y.word? s).map fun b => truth (b != 0)
  | .binary .or x y _ =>
    (x.word? s).bind fun a =>
      if a = 0 then (y.word? s).map fun b => truth (b != 0) else some 1
  | .binary op x y _ =>
    (x.word? s).bind fun a => (y.word? s).bind fun b => op.onWords? a b
  | _ => none

/-! ## §2 Statements -/

/-- How far a program has got: the slots, the marks left, and the result if it was given back. -/
structure Progress where
  slots : Slots
  marks : Text
  result : Option Word

namespace Progress

/-- Nothing but the slots. -/
def still (s : Slots) : Progress := ⟨s, [], none⟩

/-- The mark of a check: a dot if the value is one. -/
def mark (s : Slots) (w : Word) : Progress := ⟨s, if w = 1 then "." else "F", none⟩

/-- Goes on, unless a result was given back. -/
def andThen (p : Progress) (f : Slots → Option Progress) : Option Progress :=
  match p.result with
  | some _ => some p
  | none => (f p.slots).map fun q => { q with marks := p.marks ++ q.marks }

/-- Rounds of a loop, at most as many as the bound. -/
def rounds (cond : Slots → Option Word) (body : Slots → Option Progress) :
    Nat → Slots → Option Progress
  | 0, _ => none
  | bound + 1, s =>
    (cond s).bind fun w =>
      if w = 0 then some (still s) else (body s).bind fun p => p.andThen (rounds cond body bound)

end Progress

mutual

/-- What a statement does, if each of its loops ends within a number of rounds. -/
def Node.perform? (bound : Nat) (s : Slots) : Node → Option Progress
  | .missing => some (.still s)
  | .giveBack x _ =>
    if x.isMissing then some ⟨s, [], some 0⟩ else (x.word? s).map fun w => ⟨s, [], some w⟩
  | .block stmts _ => Node.performAll? bound s stmts
  | .choice cond yes no _ =>
    (cond.word? s).bind fun w => if w = 0 then no.perform? bound s else yes.perform? bound s
  | .loop cond body _ => Progress.rounds cond.word? (body.perform? bound) bound s
  | .declare name x _ | .assign name x _ =>
    (x.word? s).map fun w => .still (Function.update s name w)
  | .assert cond _ => (cond.word? s).map fun w => .mark s w
  | x => (x.word? s).map fun _ => .still s

/-- What statements do one after the other. -/
def Node.performAll? (bound : Nat) (s : Slots) : List Node → Option Progress
  | [] => some (.still s)
  | x :: xs => (x.perform? bound s).bind fun p => p.andThen (Node.performAll? bound · xs)

end

/-! ## §3 Programs without calls -/

mutual

/-- There are no calls or functions in a node; there are declarations, assignments and checks only
among its statements, and none if it does not stand where a statement stands. -/
def Node.isPlain (statement : Bool) : Node → Bool
  | .missing | .number _ _ | .string _ _ | .ident _ _ => true
  | .unary _ x _ | .giveBack x _ => x.isPlain false
  | .binary _ x y _ => x.isPlain false && y.isPlain false
  | .block stmts _ => Node.allPlain statement stmts
  | .choice cond yes no _ => cond.isPlain false && yes.isPlain statement && no.isPlain statement
  | .loop cond body _ => cond.isPlain false && body.isPlain statement
  | .declare _ x _ | .assign _ x _ | .assert x _ => statement && x.isPlain false
  | .call _ _ _ | .function _ _ _ _ _ | .prototype _ _ _ | .main _ _ => false

def Node.allPlain (statement : Bool) : List Node → Bool
  | [] => true
  | x :: xs => x.isPlain statement && Node.allPlain statement xs

end

/-! ## §4 Words pushed -/

mutual

/-- The number of times that the code of a node has pushed two words and not yet popped them, at
most. -/
def Node.depth : Node → Nat
  | .unary _ x _ | .giveBack x _ | .declare _ x _ | .assign _ x _ | .assert x _ => x.depth
  | .binary .and x y _ | .binary .or x y _ => max x.depth y.depth
  | .binary _ x y _ => max x.depth (y.depth + 1)
  | .block stmts _ => Node.depthAll stmts
  | .choice cond yes no _ => max cond.depth (max yes.depth no.depth)
  | .loop cond body _ => max cond.depth body.depth
  | _ => 0

def Node.depthAll : List Node → Nat
  | [] => 0
  | x :: xs => max x.depth (Node.depthAll xs)

end

end Scriptlet
