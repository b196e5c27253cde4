import Scriptlet.Text.Basic

/-!
# Instructions and listings

The target is a small part of a 32-bit register machine: loads and stores relative to a base
register, pushes and pops of register lists, conditional moves and branches, arithmetic on
registers, and calls. A listing is a list of lines, each an instruction, a local label, or the entry
of a function.
-/

namespace Scriptlet

namespace Assembly

/-! ## §1 Instructions -/

/-- The registers in use. -/
inductive Reg where
  | r0
  | r1
  | r2
  | r3
  | ip
  | fp
  | sp
  | lr
  | pc
  deriving DecidableEq, Repr

/-- Conditions on the flags that a comparison sets. -/
inductive Cond where
  | always
  | eq
  | ne
  | lt
  | ge
  | le
  | gt
  deriving DecidableEq, Repr

/-- The second source of an instruction. -/
inductive Operand where
  | reg (r : Reg)
  | imm (n : Int)
  /-- A character code, written as the character. -/
  | char (c : Char)
  deriving DecidableEq, Repr

/-- Arithmetic. -/
inductive Arith where
  | add
  | sub
  | mul
  /-- Unsigned division. -/
  | udiv
  /-- Subtraction with exchanged sources. -/
  | rsb
  deriving DecidableEq, Repr

/-- A local label: a stem that says what it is for and a number that no other label has. -/
structure Label where
  stem : Text
  number : Nat
  deriving DecidableEq, Repr

/-- An instruction. -/
inductive Instr where
  /-- Load a number. -/
  | literal (dst : Reg) (n : Int)
  /-- Load the word at `base + offset`. -/
  | load (dst base : Reg) (offset : Int)
  /-- Store to the word at `base + offset`. -/
  | store (src base : Reg) (offset : Int)
  | push (rs : List Reg)
  | pop (rs : List Reg)
  | move (cond : Cond) (dst : Reg) (src : Operand)
  | compare (a : Reg) (b : Operand)
  | arith (op : Arith) (dst a : Reg) (b : Operand)
  /-- `dst := c - a * b`. -/
  | mls (dst a b c : Reg)
  | branch (cond : Cond) (target : Label)
  /-- Call a function. -/
  | call (name : Text)
  deriving DecidableEq, Repr

/-- A line of a listing. -/
inductive Line where
  | instr (i : Instr)
  | label (l : Label)
  /-- The name is visible outside. -/
  | global (name : Text)
  /-- The function starts here. -/
  | entry (name : Text)
  deriving DecidableEq, Repr

/-! ## §2 Texts -/

/-- The name of a register. -/
def Reg.name : Reg → Text
  | .r0 => "r0"
  | .r1 => "r1"
  | .r2 => "r2"
  | .r3 => "r3"
  | .ip => "ip"
  | .fp => "fp"
  | .sp => "sp"
  | .lr => "lr"
  | .pc => "pc"

/-- The suffix of a condition. -/
def Cond.suffix : Cond → Text
  | .always => []
  | .eq => "eq"
  | .ne => "ne"
  | .lt => "lt"
  | .ge => "ge"
  | .le => "le"
  | .gt => "gt"

/-- The text of an operand. -/
def Operand.text : Operand → Text
  | .reg r => r.name
  | .imm n => "#" ++ Text.ofInt n
  | .char c => "#'" ++ Text.ofChar c ++ "'"

/-- The mnemonic of an operation. -/
def Arith.name : Arith → Text
  | .add => "add"
  | .sub => "sub"
  | .mul => "mul"
  | .udiv => "udiv"
  | .rsb => "rsb"

/-- The text of a label. -/
def Label.text (l : Label) : Text := ".L" ++ l.stem ++ Text.ofNat l.number

/-- A mnemonic and its operands. -/
def instrText (mnemonic : Text) (operands : List Text) : Text :=
  mnemonic ++ " " ++ Text.join ", " operands

/-- Registers in braces. -/
def regList (rs : List Reg) : Text := "\x7b" ++ Text.join ", " (rs.map Reg.name) ++ "\x7d"

/-- An address relative to a base. -/
def address (base : Reg) (offset : Int) : Text :=
  "[" ++ base.name ++ ", #" ++ Text.ofInt offset ++ "]"

/-- The text of an instruction. -/
def Instr.text : Instr → Text
  | .literal dst n => instrText "ldr" [dst.name, "=" ++ Text.ofInt n]
  | .load dst base offset => instrText "ldr" [dst.name, address base offset]
  | .store src base offset => instrText "str" [src.name, address base offset]
  | .push rs => instrText "push" [regList rs]
  | .pop rs => instrText "pop" [regList rs]
  | .move cond dst src => instrText ("mov" ++ cond.suffix) [dst.name, src.text]
  | .compare a b => instrText "cmp" [a.name, b.text]
  | .arith op dst a b => instrText op.name [dst.name, a.name, b.text]
  | .mls dst a b c => instrText "mls" [dst.name, a.name, b.name, c.name]
  | .branch cond target => instrText ("b" ++ cond.suffix) [target.text]
  | .call name => instrText "bl" [name]

/-- The text of a line, with its end. Instructions are indented. -/
def Line.text : Line → Text
  | .instr i => Text.line ("  " ++ i.text)
  | .label l => Text.line (l.text ++ ":")
  | .global name => Text.line (".global " ++ name)
  | .entry name => Text.line (name ++ ":")

/-- The text of a listing. -/
def listing (code : List Line) : Text := code.flatMap Line.text

end Assembly

end Scriptlet
