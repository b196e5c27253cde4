import Scriptlet.Assembly.Instr
import Scriptlet.Assembly.Layout
import Scriptlet.Decimal.Written
import Scriptlet.Text.Quoted

/-!
# Code for programs

The code of an expression leaves its value in the first register and the stack as it was. Operands
wait on the stack, two words at a time so that it stays aligned; arguments are collected in four
words that become the argument registers. Conditions are true when they are not zero, a check prints
a mark.

Code is produced in a *context*: the number of labels used so far and the layout of the function
around, if any. What was produced before an error is kept beside it.

## Contents

- §1 errors
- §2 emission
- §3 operators
- §4 nodes
-/

namespace Scriptlet

namespace Assembly

/-! ## §1 Errors -/

/-- Why a node has no code. -/
inductive EmitFault where
  | notAnInteger (x : Float)
  | stringLiteral (t : Text)
  | outsideFunction (name : Text)
  | undefinedVariable (name : Text)
  | unknownUnary (op : UnaryOp)
  | unknownBinary (op : BinaryOp)
  | power
  | tooManyArguments (callee : Text)
  | returnOutside
  | declarationOutside (name : Text)
  | nestedFunction (name : Text)
  | tooManyParameters (name : Text)
  | nestedMain

/-- A fault at its place. -/
structure EmitError where
  fault : EmitFault
  loc : Location

/-- The number of arguments that fit into registers. -/
def maxArgs : Nat := 4

/-- The wording of a fault. -/
def EmitFault.message : EmitFault → Text
  | .notAnInteger x => "cannot emit non-integer number " ++ Decimal.written x
  | .stringLiteral t => "cannot emit string literal " ++ t.quoted
  | .outsideFunction name => "variable " ++ name ++ " used outside a function"
  | .undefinedVariable name => "undefined variable: " ++ name
  | .unknownUnary op => "unknown unary operator " ++ op.symbol
  | .unknownBinary op => "unknown binary operator " ++ op.symbol
  | .power => "exponentiation is not supported by the code generator"
  | .tooManyArguments callee =>
    "call to " ++ callee ++ ": more than " ++ Text.ofNat maxArgs ++ " arguments"
  | .returnOutside => "return outside a function"
  | .declarationOutside name => "declaration of " ++ name ++ " outside a function"
  | .nestedFunction name => "nested function " ++ name ++ " is not supported"
  | .tooManyParameters name =>
    "function " ++ name ++ ": more than " ++ Text.ofNat maxArgs ++ " parameters"
  | .nestedMain => "main must be defined at top level"

/-- The wording of an error with its place. -/
def EmitError.message (e : EmitError) : Text := e.loc.tagged e.fault.message

/-! ## §2 Emission -/

/-- What the code of a node depends on. -/
structure Context where
  /-- Labels used so far. -/
  labels : Nat
  /-- The layout of the function around, if any. -/
  layout : Option Layout

/-- The context at the top of a program. -/
def Context.top : Context := ⟨0, none⟩

/-- Lines of code, and the context after them or the error that ended them. -/
structure Emission (α : Type) where
  code : List Line
  result : Except EmitError (α × Context)

/-- The production of code in a context. -/
def Emit (α : Type) : Type := Context → Emission α

namespace Emit

variable {α β : Type}

/-- No code. -/
def constant (a : α) : Emit α := fun c => ⟨[], .ok (a, c)⟩

/-- Code and then more code; after an error there is none. -/
def bind (m : Emit α) (f : α → Emit β) : Emit β := fun c =>
  let first := m c
  match first.result with
  | .error e => ⟨first.code, .error e⟩
  | .ok (a, c') =>
    let second := f a c'
    ⟨first.code ++ second.code, second.result⟩

instance : Monad Emit where
  pure := constant
  bind := bind

/-- Ends with a fault. -/
def refuse (fault : EmitFault) (loc : Location) : Emit α := fun _ => ⟨[], .error ⟨fault, loc⟩⟩

/-- Some lines. -/
def lines (ls : List Line) : Emit Unit := fun c => ⟨ls, .ok ((), c)⟩

/-- Some instructions. -/
def instrs (is : List Instr) : Emit Unit := lines (is.map .instr)

/-- A label that no other has. -/
def label (stem : Text) : Emit Label := fun c =>
  ⟨[], .ok (⟨stem, c.labels + 1⟩, { c with labels := c.labels + 1 })⟩

/-- The layout of the function around. -/
def layout : Emit (Option Layout) := fun c => ⟨[], .ok (c.layout, c)⟩

/-- Sets the layout of the function around. -/
def setLayout (l : Option Layout) : Emit Unit := fun c => ⟨[], .ok ((), { c with layout := l })⟩

/-- The offset of a variable. -/
def offsetOf (name : Text) (loc : Location) : Emit Int := do
  match ← layout with
  | none => refuse (.outsideFunction name) loc
  | some l =>
    match l.offset? name with
    | some off => return off
    | none => refuse (.undefinedVariable name) loc

/-! ## §3 Operators -/

/-- The whole number that a number is, if it is one. -/
def integer? (x : Float) : Option Int :=
  match Decimal.classify x with
  | .nan | .infinite _ => none
  | .zero _ => some 0
  | .finite negative b =>
    let scale := Nat.pow 2 (-b.exponent).toNat
    let size := b.mantissa * Nat.pow 2 b.exponent.toNat
    if size % scale = 0 then
      some (if negative then -((size / scale : Nat) : Int) else ((size / scale : Nat) : Int))
    else none

/-- The greatest number that can be loaded, up to its sign. -/
def maxLiteral : Nat := 4294967295

/-- Loads a number. -/
def number (x : Float) (loc : Location) : Emit Unit :=
  match integer? x with
  | some n =>
    if n.natAbs ≤ maxLiteral then instrs [.literal .r0 n] else refuse (.notAnInteger x) loc
  | none => refuse (.notAnInteger x) loc

/-- One or zero, by a condition and its opposite. -/
def truthValue (yes no : Cond) : List Instr :=
  [.move yes .r0 (.imm 1), .move no .r0 (.imm 0)]

/-- Applies an operator to the first register. -/
def unary (op : UnaryOp) (loc : Location) : Emit Unit :=
  match op with
  | .not => instrs (.compare .r0 (.imm 0) :: truthValue .eq .ne)
  | .negate => instrs [.arith .rsb .r0 .r0 (.imm 0)]
  | .unknown code => refuse (.unknownUnary (.unknown code)) loc

/-- Compares and keeps the truth value. -/
def comparison (yes no : Cond) : Emit Unit :=
  instrs (.compare .r1 (.reg .r0) :: truthValue yes no)

/-- Applies an operator to the second and the first register. -/
def binary (op : BinaryOp) (loc : Location) : Emit Unit :=
  match op with
  | .add => instrs [.arith .add .r0 .r1 (.reg .r0)]
  | .subtract => instrs [.arith .sub .r0 .r1 (.reg .r0)]
  | .multiply => instrs [.arith .mul .r0 .r1 (.reg .r0)]
  | .divide => instrs [.arith .udiv .r0 .r1 (.reg .r0)]
  | .modulo => instrs [.arith .udiv .r2 .r1 (.reg .r0), .mls .r0 .r2 .r0 .r1]
  | .equal => comparison .eq .ne
  | .notEqual => comparison .ne .eq
  | .less => comparison .lt .ge
  | .lessEqual => comparison .le .gt
  | .greater => comparison .gt .le
  | .greaterEqual => comparison .ge .lt
  | _ => refuse (.unknownBinary op) loc

/-- Leaves a conjunction or disjunction early: the operand decides it if it meets `cond`. -/
def shortcut (cond : Cond) (target : Label) : Emit Unit :=
  instrs [.compare .r0 (.imm 0), .branch cond target]

/-- Leaves the function. -/
def leave : Emit Unit := instrs [.move .always .sp (.reg .fp), .pop [.fp, .pc]]

/-- Reserves room for locals. -/
def reserveLocals (l : Layout) : Emit Unit :=
  if l.size > 0 then instrs [.arith .sub .sp .sp (.imm l.size)] else constant ()

/-- The lines that open a function. -/
def opening (name : Text) : Emit Unit := do
  lines [.global name, .entry name]
  instrs [.push [.fp, .lr], .move .always .fp (.reg .sp)]

/-- The result zero, and the end of the function. -/
def closing : Emit Unit := do
  instrs [.move .always .r0 (.imm 0)]
  leave

end Emit

/-! ## §4 Nodes -/

open Emit in
mutual

/-- The code of a node. -/
def emit : Node → Emit Unit
  | .missing => constant ()
  | .number x loc => number x loc
  | .string t loc => refuse (.stringLiteral t) loc
  | .ident name loc => do
    let off ← offsetOf name loc
    instrs [.load .r0 .fp off]
  | .unary op x loc => do
    emit x
    unary op loc
  | .binary .and x y _ => do
    let short ← label "short"
    let done ← label "end"
    emit x
    shortcut .eq short
    emit y
    shortcut .eq short
    instrs [.move .always .r0 (.imm 1), .branch .always done]
    lines [.label short, .instr (.move .always .r0 (.imm 0)), .label done]
  | .binary .or x y _ => do
    let short ← label "short"
    let done ← label "end"
    emit x
    shortcut .ne short
    emit y
    shortcut .ne short
    instrs [.move .always .r0 (.imm 0), .branch .always done]
    lines [.label short, .instr (.move .always .r0 (.imm 1)), .label done]
  | .binary .power _ _ loc => refuse .power loc
  | .binary op x y loc => do
    emit x
    instrs [.push [.r0, .ip]]
    emit y
    instrs [.pop [.r1, .ip]]
    binary op loc
  | .call callee args loc =>
    if args.length > maxArgs then refuse (.tooManyArguments callee) loc
    else
      match args with
      | [] => instrs [.call callee]
      | x :: xs => do
        instrs [.arith .sub .sp .sp (.imm 16)]
        emitArgs 0 (x :: xs)
        instrs [.pop [.r0, .r1, .r2, .r3], .call callee]
  | .giveBack x loc => do
    match ← layout with
    | none => refuse .returnOutside loc
    | some _ =>
      if x.isMissing then instrs [.move .always .r0 (.imm 0)] else emit x
      leave
  | .block stmts _ => emitAll stmts
  | .choice cond yes no _ => do
    let otherwise ← label "else"
    let done ← label "endif"
    emit cond
    shortcut .eq otherwise
    emit yes
    instrs [.branch .always done]
    lines [.label otherwise]
    emit no
    lines [.label done]
  | .loop cond body _ => do
    let again ← label "loop"
    let done ← label "endloop"
    lines [.label again]
    emit cond
    shortcut .eq done
    emit body
    instrs [.branch .always again]
    lines [.label done]
  | .declare name x loc => do
    match ← layout with
    | none => refuse (.declarationOutside name) loc
    | some _ =>
      emit x
      -- the value may itself have declared names, so the layout is looked at again
      match ← layout with
      | some l =>
        let (off, l') := l.declare name
        setLayout (some l')
        instrs [.store .r0 .fp off]
      | none => refuse (.declarationOutside name) loc
  | .assign name x loc => do
    let off ← offsetOf name loc
    emit x
    instrs [.store .r0 .fp off]
  | .function name params body _ loc => do
    match ← layout with
    | some _ => refuse (.nestedFunction name) loc
    | none =>
      if params.length > maxArgs then refuse (.tooManyParameters name) loc
      else
        let l := (Layout.ofParams params).reserveAll body
        opening name
        instrs [.push [.r0, .r1, .r2, .r3]]
        reserveLocals l
        setLayout (some l)
        emitAll body
        closing
        setLayout none
  | .prototype name params loc => do
    match ← layout with
    | some _ => refuse (.nestedFunction name) loc
    | none =>
      if params.length > maxArgs then refuse (.tooManyParameters name) loc
      else
        opening name
        instrs [.push [.r0, .r1, .r2, .r3]]
        closing
  | .main stmts loc => do
    match ← layout with
    | some _ => refuse .nestedMain loc
    | none =>
      let l := Layout.ofMain.reserveAll stmts
      opening "main"
      reserveLocals l
      setLayout (some l)
      emitAll stmts
      closing
      setLayout none
  | .assert cond _ => do
    emit cond
    instrs
      [ .compare .r0 (.imm 1),
        .move .eq .r0 (.char '.'),
        .move .ne .r0 (.char 'F'),
        .call "putchar" ]

/-- The code of statements, one after the other. -/
def emitAll : List Node → Emit Unit
  | [] => constant ()
  | x :: xs => do
    emit x
    emitAll xs

/-- The code of arguments, each stored behind the one before. -/
def emitArgs (i : Nat) : List Node → Emit Unit
  | [] => constant ()
  | x :: xs => do
    emit x
    instrs [.store .r0 .sp (4 * i)]
    emitArgs (i + 1) xs

end

/-- A block has no code of its own. -/
theorem emit_block (stmts : List Node) (loc : Location) :
    emit (.block stmts loc) = emitAll stmts := by
  rw [emit]

/-- The code of a node at the top. -/
def emitTop (x : Node) : Emission Unit := emit x .top

/-- Labels with the stems, from the first number on. -/
def freshLabels (n : Nat) : List Text → List Label
  | [] => []
  | stem :: stems => ⟨stem, n + 1⟩ :: freshLabels (n + 1) stems

end Assembly

end Scriptlet
