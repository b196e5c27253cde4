import Mathlib
import Scriptlet.Assembly.Instr

/-!
# What instructions do

The registers and the memory hold words of 32 bits, and arithmetic wraps. A comparison sets the
flags that conditional moves and branches read. Words lie at addresses that are multiples of four;
an access elsewhere is a fault. Several registers are pushed and popped in the order of their
numbers, the first at the lowest address.

The place of a run is the part of the listing that is still ahead, so a branch looks for the rest of
the listing behind its label. A function returns by popping the program counter: the run is then
with its caller, which is not in the listing. The only function outside is the one that prints a
character. It is free to change every register but the stack and the frame pointer, and the memory
below the stack pointer.

## Contents

- §1 words and flags
- §2 processors
- §3 instructions
- §4 runs
- §5 straight code
- §6 labels
-/

namespace Scriptlet

namespace Assembly

/-! ## §1 Words and flags -/

abbrev Word := BitVec 32

/-- A truth value as a word. -/
def truth (b : Bool) : Word := if b then 1 else 0

/-- What a comparison finds out: the sign of the difference, whether it is zero, and whether it
overflows as a difference of signed numbers. -/
structure Flags where
  negative : Bool
  zero : Bool
  overflow : Bool
  deriving DecidableEq, Repr

/-- The flags that comparing two words sets. -/
def Flags.ofCompare (a b : Word) : Flags := ⟨(a - b).msb, a - b == 0, BitVec.ssubOverflow a b⟩

/-- Whether a condition holds. -/
def Cond.holds (f : Flags) : Cond → Bool
  | .always => true
  | .eq => f.zero
  | .ne => !f.zero
  | .lt => f.negative != f.overflow
  | .ge => f.negative == f.overflow
  | .le => f.zero || f.negative != f.overflow
  | .gt => !f.zero && f.negative == f.overflow

@[simp] theorem holds_always (f : Flags) : Cond.always.holds f = true := rfl

/-- The flags of a comparison hold for equality when the words are equal. -/
@[simp] theorem holds_eq (a b : Word) : Cond.eq.holds (.ofCompare a b) = (a == b) := by
  rw [Bool.eq_iff_iff]
  simp [Cond.holds, Flags.ofCompare, BitVec.sub_eq_iff_eq_add]

@[simp] theorem holds_ne (a b : Word) : Cond.ne.holds (.ofCompare a b) = (a != b) := by
  have h := holds_eq a b
  simp only [Cond.holds] at h ⊢
  rw [h]
  rfl

/-- Sign and overflow together tell which of two signed numbers is less. -/
@[simp] theorem holds_lt (a b : Word) : Cond.lt.holds (.ofCompare a b) = a.slt b := by
  have ha := a.toInt_lt
  have ha' := a.le_toInt
  have hb := b.toInt_lt
  have hb' := b.le_toInt
  simp only [Cond.holds, Flags.ofCompare, BitVec.msb_eq_toInt, BitVec.toInt_sub,
    BitVec.ssubOverflow, BitVec.slt, Int.bmod_def]
  simp only [Nat.reduceSub, Nat.reducePow] at *
  grind

/-- The flags of a comparison, read as an order of signed words. -/
@[simp] theorem holds_ge (a b : Word) : Cond.ge.holds (.ofCompare a b) = !a.slt b := by
  rw [← holds_lt]
  simp only [Cond.holds, bne, Bool.not_not]

@[simp] theorem holds_gt (a b : Word) : Cond.gt.holds (.ofCompare a b) = b.slt a := by
  have hne := holds_ne a b
  have hge := holds_ge a b
  simp only [Cond.holds] at hne hge ⊢
  rw [hne, hge]
  have hinj : a.toInt = b.toInt ↔ a = b := BitVec.toInt_inj
  rw [Bool.eq_iff_iff]
  simp only [Bool.and_eq_true, bne_iff_ne, ne_eq, Bool.not_eq_true', BitVec.slt, decide_eq_true_eq,
    decide_eq_false_iff_not, ← hinj]
  omega

@[simp] theorem holds_le (a b : Word) : Cond.le.holds (.ofCompare a b) = !b.slt a := by
  rw [← holds_gt]
  simp only [Cond.holds, bne, Bool.not_and, Bool.not_not]

/-- The remainder as the difference to a multiple, also for the divisor zero. -/
theorem sub_udiv_mul (a b : Word) : a - a / b * b = a % b := by
  have hle : a.toNat / b.toNat * b.toNat ≤ a.toNat := Nat.div_mul_le_self _ _
  have hlt := a.isLt
  have hmul : (a / b * b).toNat = a.toNat / b.toNat * b.toNat := by
    rw [BitVec.toNat_mul, BitVec.toNat_udiv]
    exact Nat.mod_eq_of_lt (by omega)
  have hdiv := Nat.div_add_mod' a.toNat b.toNat
  apply BitVec.eq_of_toNat_eq
  rw [BitVec.toNat_sub_of_le (by rw [BitVec.le_def, hmul]; exact hle), hmul, BitVec.toNat_umod]
  omega

/-! ## §2 Processors -/

/-- The state of the processor and of what it has printed. -/
structure Processor where
  regs : Reg → Word
  flags : Flags
  memory : Word → Word
  printed : Text

namespace Processor

def set (m : Processor) (r : Reg) (w : Word) : Processor :=
  { m with regs := Function.update m.regs r w }

@[simp] theorem set_regs (m : Processor) (r q : Reg) (w : Word) :
    (m.set r w).regs q = if q = r then w else m.regs q := by
  simp [set, Function.update_apply]

@[simp] theorem set_flags (m : Processor) (r : Reg) (w : Word) : (m.set r w).flags = m.flags := rfl

@[simp] theorem set_memory (m : Processor) (r : Reg) (w : Word) :
    (m.set r w).memory = m.memory := rfl

@[simp] theorem set_printed (m : Processor) (r : Reg) (w : Word) :
    (m.set r w).printed = m.printed := rfl

/-- Setting a register to what it holds changes nothing. -/
theorem set_self {m : Processor} {r : Reg} {w : Word} (h : m.regs r = w) : m.set r w = m := by
  subst h
  simp [set]

/-- Sets a register other than the program counter. -/
def write? (m : Processor) (r : Reg) (w : Word) : Option Processor :=
  if r = .pc then none else some (m.set r w)

/-- The word at an address. -/
def load? (m : Processor) (a : Word) : Option Word :=
  if a.toNat % 4 = 0 then some (m.memory a) else none

/-- Puts a word at an address. -/
def store? (m : Processor) (a w : Word) : Option Processor :=
  if a.toNat % 4 = 0 then some { m with memory := Function.update m.memory a w } else none

/-- An aligned word is loaded from memory. -/
theorem load?_of_aligned {m : Processor} {a : Word} (h : a.toNat % 4 = 0) :
    m.load? a = some (m.memory a) :=
  if_pos h

/-- An aligned word is stored, and no other. -/
theorem store?_of_aligned {m : Processor} {a w : Word} (h : a.toNat % 4 = 0) :
    m.store? a w = some { m with memory := Function.update m.memory a w } :=
  if_pos h

/-- Puts registers at consecutive words. -/
def storeAll? (a : Word) : List Reg → Processor → Option Processor
  | [], m => some m
  | r :: rs, m => (m.store? a (m.regs r)).bind (storeAll? (a + 4) rs)

/-- Sets registers from consecutive words. -/
def loadAll? (a : Word) : List Reg → Processor → Option Processor
  | [], m => some m
  | r :: rs, m => (m.load? a).bind fun w => loadAll? (a + 4) rs (m.set r w)

end Processor

/-- What the function that prints a character does to the processor. -/
structure Library where
  putchar : Processor → Processor
  putchar_sp : ∀ m, (putchar m).regs .sp = m.regs .sp
  putchar_fp : ∀ m, (putchar m).regs .fp = m.regs .fp
  putchar_memory : ∀ m a, m.regs .sp ≤ a → (putchar m).memory a = m.memory a

/-- Prints the character in the first register. -/
def Library.print (lib : Library) (m : Processor) : Processor :=
  { lib.putchar m with printed := m.printed ++ [UInt8.ofBitVec ((m.regs .r0).setWidth 8)] }

/-! ## §3 Instructions -/

/-- The value of an operand. -/
def Operand.value (m : Processor) : Operand → Word
  | .reg r => m.regs r
  | .imm n => BitVec.ofInt 32 n
  | .char c => BitVec.ofNat 32 c.toNat

/-- The result of arithmetic. The quotient by zero is zero. -/
def Arith.apply : Arith → Word → Word → Word
  | .add, a, b => a + b
  | .sub, a, b => a - b
  | .mul, a, b => a * b
  | .udiv, a, b => a / b
  | .rsb, a, b => b - a

/-- What an instruction does to registers, flags and memory. -/
def Instr.effect (lib : Library) (m : Processor) : Instr → Option Processor
  | .literal dst n => m.write? dst (BitVec.ofInt 32 n)
  | .load dst base off => (m.load? (m.regs base + BitVec.ofInt 32 off)).bind (m.write? dst)
  | .store src base off => m.store? (m.regs base + BitVec.ofInt 32 off) (m.regs src)
  | .push rs =>
    let a := m.regs .sp - BitVec.ofNat 32 (4 * rs.length)
    (Processor.storeAll? a rs m).map (·.set .sp a)
  | .pop rs =>
    let a := m.regs .sp
    (Processor.loadAll? a rs m).map (·.set .sp (a + BitVec.ofNat 32 (4 * rs.length)))
  | .move cond dst src => if cond.holds m.flags then m.write? dst (src.value m) else some m
  | .compare a b => some { m with flags := .ofCompare (m.regs a) (b.value m) }
  | .arith op dst a b => m.write? dst (op.apply (m.regs a) (b.value m))
  | .mls dst a b c => m.write? dst (m.regs c - m.regs a * m.regs b)
  | .branch _ _ => some m
  | .call name => if name = "putchar" then some (lib.print m) else none

/-- Where a run is: before the lines that are ahead, or back with the caller, at an address. -/
inductive Position where
  | ahead (code : List Line)
  | caller (address : Word)

/-- The lines behind a label. -/
def linesBehind (l : Label) : List Line → Option (List Line)
  | [] => none
  | line :: code => if line = .label l then some code else linesBehind l code

/-- Where a run goes on after an instruction. -/
def Instr.next (code rest : List Line) (m : Processor) : Instr → Option Position
  | .branch cond l =>
    if cond.holds m.flags then (linesBehind l code).map .ahead else some (.ahead rest)
  | .pop rs => some (if .pc ∈ rs then .caller (m.regs .pc) else .ahead rest)
  | _ => some (.ahead rest)

/-! ## §4 Runs -/

/-- A run at some point. -/
structure Moment where
  position : Position
  state : Processor

/-- One line. Lines that are not instructions do nothing. -/
def step (lib : Library) (code : List Line) : Moment → Option Moment
  | ⟨.ahead (.instr i :: rest), m⟩ => do
    let m' ← i.effect lib m
    let p ← i.next code rest m'
    return ⟨p, m'⟩
  | ⟨.ahead (_ :: rest), m⟩ => some ⟨.ahead rest, m⟩
  | ⟨.ahead [], _⟩ | ⟨.caller _, _⟩ => none

/-- One run comes after another, line by line. -/
def Runs (lib : Library) (code : List Line) : Moment → Moment → Prop :=
  Relation.ReflTransGen fun a b => step lib code a = some b

variable {lib : Library} {code rest : List Line} {m m' : Processor}

theorem Runs.refl (a : Moment) : Runs lib code a a := Relation.ReflTransGen.refl

theorem Runs.trans {a b c : Moment} (hab : Runs lib code a b) (hbc : Runs lib code b c) :
    Runs lib code a c :=
  Relation.ReflTransGen.trans hab hbc

/-- A label is passed. -/
theorem runs_label (l : Label) :
    Runs lib code ⟨.ahead (.label l :: rest), m⟩ ⟨.ahead rest, m⟩ :=
  .single rfl

/-- An instruction has its effect and goes on where it says. -/
theorem runs_instr {i : Instr} {p : Position} (heffect : i.effect lib m = some m')
    (hnext : i.next code rest m' = some p) :
    Runs lib code ⟨.ahead (.instr i :: rest), m⟩ ⟨p, m'⟩ := by
  apply Relation.ReflTransGen.single
  simp [step, heffect, hnext]

/-! ## §5 Straight code -/

/-- The instruction is followed by the next one in any state. -/
def Instr.isStraight : Instr → Bool
  | .branch _ _ => false
  | .pop rs => !rs.contains .pc
  | _ => true

/-- What instructions do one after the other. -/
def effects (lib : Library) : List Instr → Processor → Option Processor
  | [], m => some m
  | i :: is, m => (i.effect lib m).bind (effects lib is)

/-- Straight instructions go on to the line behind them. -/
theorem next_of_isStraight {i : Instr} (h : i.isStraight = true) :
    i.next code rest m = some (.ahead rest) := by
  cases i with
  | branch cond l => cases h
  | pop rs =>
    have hpc : ¬ Reg.pc ∈ rs := by simpa [Instr.isStraight] using h
    simp [Instr.next, hpc]
  | _ => rfl

/-- A straight instruction has its effect and the line behind it comes next. -/
theorem runs_next {i : Instr} (hstraight : i.isStraight = true)
    (heffect : i.effect lib m = some m') :
    Runs lib code ⟨.ahead (.instr i :: rest), m⟩ ⟨.ahead rest, m'⟩ :=
  runs_instr heffect (next_of_isStraight hstraight)

/-- A row of straight instructions has its effects in turn. -/
theorem runs_straight {is : List Instr} (hstraight : is.all Instr.isStraight = true)
    (h : effects lib is m = some m') :
    Runs lib code ⟨.ahead (is.map .instr ++ rest), m⟩ ⟨.ahead rest, m'⟩ := by
  induction is generalizing m with
  | nil =>
    cases h
    exact .refl _
  | cons i is ih =>
    rw [List.all_cons, Bool.and_eq_true] at hstraight
    obtain ⟨m₁, heffect, hrest⟩ := Option.bind_eq_some_iff.mp h
    apply Runs.trans (runs_next hstraight.1 heffect)
    exact ih hstraight.2 hrest

/-! ## §6 Labels -/

/-- The label that a line places, if it places one. -/
def Line.label? : Line → Option Label
  | .label l => some l
  | _ => none

/-- The labels that a listing places. -/
def placed (code : List Line) : List Label := code.filterMap Line.label?

@[simp] theorem placed_append (a b : List Line) : placed (a ++ b) = placed a ++ placed b :=
  List.filterMap_append

@[simp] theorem placed_label (l : Label) (code : List Line) :
    placed (.label l :: code) = l :: placed code := rfl

@[simp] theorem placed_instrs (is : List Instr) : placed (is.map .instr) = [] := by
  induction is with
  | nil => rfl
  | cons i is ih => exact ih

/-- A label that is placed once leads to the lines behind it. -/
theorem linesBehind_append {l : Label} {before : List Line} (h : l ∉ placed before) :
    linesBehind l (before ++ .label l :: rest) = some rest := by
  induction before with
  | nil => simp [linesBehind]
  | cons line before ih =>
    -- the label itself stands nowhere before, so each line before is passed over
    have hne : line ≠ .label l := by
      rintro rfl
      exact h (by simp)
    have htail : l ∉ placed before := by
      intro hmem
      apply h
      cases line with
      | label k => exact List.mem_cons_of_mem _ hmem
      | _ => exact hmem
    simpa [linesBehind, hne] using ih htail

/-- A label that is placed once is found where it is placed. -/
theorem linesBehind_of_suffix {l : Label} (hnodup : (placed code).Nodup)
    (hsuffix : .label l :: rest <:+ code) : linesBehind l code = some rest := by
  obtain ⟨before, rfl⟩ := hsuffix
  apply linesBehind_append
  rw [placed_append, placed_label, List.nodup_append] at hnodup
  intro hmem
  exact hnodup.2.2 l hmem l (List.mem_cons_self) rfl

/-- A branch that is taken goes behind its label. -/
theorem runs_branch {cond : Cond} {l : Label} {target : List Line}
    (hnodup : (placed code).Nodup) (htarget : .label l :: target <:+ code)
    (hcond : cond.holds m.flags = true) :
    Runs lib code ⟨.ahead (.instr (.branch cond l) :: rest), m⟩ ⟨.ahead target, m⟩ := by
  apply runs_instr rfl
  simp [Instr.next, hcond, linesBehind_of_suffix hnodup htarget]

/-- A branch that is not taken. -/
theorem runs_no_branch {cond : Cond} {l : Label} (hcond : cond.holds m.flags = false) :
    Runs lib code ⟨.ahead (.instr (.branch cond l) :: rest), m⟩ ⟨.ahead rest, m⟩ := by
  apply runs_instr rfl
  simp [Instr.next, hcond]

end Assembly

end Scriptlet
