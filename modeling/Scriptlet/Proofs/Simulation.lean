import Mathlib.Data.List.Nodup
import Scriptlet.Proofs.Generated

/-!
# Code computes what expressions mean

The code of an expression leaves its value in the first register. It may push words and pop them
again, so the stack pointer and the memory from there on are as they were before.

## Contents

- §1 frames
- §2 what expressions keep
- §3 pushing and popping
- §4 operators
- §5 expressions
-/

namespace Scriptlet

namespace Assembly

/-! ## §1 Frames -/

/-- The address of a variable. -/
def slotAt (fp : Word) (off : Int) : Word := fp + BitVec.ofInt 32 off

namespace Layout

variable {l : Layout} {name : Text} {off : Int}

/-- An offset that is found is that of a slot. -/
theorem mem_of_offset? (h : l.offset? name = some off) : (name, off) ∈ l.slots := by
  obtain ⟨before, after, heq, -⟩ := List.lookup_eq_some_iff.mp h
  simp [heq]

/-- The offset of a name is that of one of the words in the frame. -/
theorem Packed.offset {words : Nat} (hl : l.Packed words) (h : l.offset? name = some off) :
    ∃ k < words + l.locals, off = -4 * ((k : Int) + 1) :=
  hl.below _ (mem_of_offset? h)

/-- No two variables share a word. -/
theorem Packed.offset_inj {words : Nat} (hl : l.Packed words) {name' : Text}
    (h : l.offset? name = some off) (h' : l.offset? name' = some off) : name = name' := by
  have hinj := List.inj_on_of_nodup_map hl.distinct (mem_of_offset? h) (mem_of_offset? h') rfl
  exact congrArg Prod.fst hinj

theorem Tidy.offset (ht : l.Tidy) (h : l.offset? name = some off) :
    ∃ k < l.locals, off = -4 * ((k : Int) + 1) :=
  ht.below _ (mem_of_offset? h)

/-- Names with one offset are one name. -/
theorem Tidy.offset_inj (ht : l.Tidy) {name' : Text} (h : l.offset? name = some off)
    (h' : l.offset? name' = some off) : name = name' :=
  (tidy_iff_packed.mp ht).offset_inj h h'

end Layout

/-- The variables of a frame have the words below the frame pointer, and the stack pointer is below
them. The two words from the frame pointer on are those that the function saved. -/
structure Framed (l : Layout) (s : Slots) (m : Processor) : Prop where
  sp_aligned : (m.regs .sp).toNat % 4 = 0
  fp_aligned : (m.regs .fp).toNat % 4 = 0
  below : (m.regs .sp).toNat + l.size ≤ (m.regs .fp).toNat
  above : (m.regs .fp).toNat + 8 ≤ 2 ^ 32
  slots : ∀ name off, l.offset? name = some off → m.memory (slotAt (m.regs .fp) off) = s name

/-- The address of a slot, without wrapping around. -/
theorem toNat_slotAt {fp : Word} {k : Nat} (h : 4 * (k + 1) ≤ fp.toNat) :
    (slotAt fp (-4 * ((k : Int) + 1))).toNat = fp.toNat - 4 * (k + 1) := by
  have hneg : BitVec.ofInt 32 (-4 * ((k : Int) + 1)) = -BitVec.ofNat 32 (4 * (k + 1)) := by
    rw [← BitVec.ofInt_natCast, ← BitVec.ofInt_neg]
    congr 1
  have hlt := fp.isLt
  rw [slotAt, hneg, ← BitVec.sub_eq_add_neg]
  bv_omega

section Frame

variable {l : Layout} {s : Slots} {m m' : Processor} {name : Text} {off : Int}

/-- The word of a variable lies between the stack pointer and the frame pointer. -/
theorem Framed.slot (hf : Framed l s m) (ht : l.Tidy) (h : l.offset? name = some off) :
    ∃ k < l.locals, off = -4 * ((k : Int) + 1) ∧
      (slotAt (m.regs .fp) off).toNat = (m.regs .fp).toNat - 4 * (k + 1) ∧
      4 * (k + 1) ≤ l.size ∧ l.size ≤ (m.regs .fp).toNat := by
  obtain ⟨k, hk, rfl⟩ := ht.offset h
  have hbelow := hf.below
  have hsize : 4 * (k + 1) ≤ l.size := by
    unfold Layout.size
    omega
  exact ⟨k, hk, rfl, toNat_slotAt (by omega), hsize, by omega⟩

/-- Slots stand at the stack pointer or above. -/
theorem Framed.sp_le_slot (hf : Framed l s m) (ht : l.Tidy) (h : l.offset? name = some off) :
    m.regs .sp ≤ slotAt (m.regs .fp) off := by
  obtain ⟨k, -, -, hnat, hsize, -⟩ := hf.slot ht h
  have hbelow := hf.below
  rw [BitVec.le_def, hnat]
  omega

/-- Slots are aligned to words. -/
theorem Framed.slot_aligned (hf : Framed l s m) (ht : l.Tidy) (h : l.offset? name = some off) :
    (slotAt (m.regs .fp) off).toNat % 4 = 0 := by
  obtain ⟨k, -, -, hnat, hsize, hle⟩ := hf.slot ht h
  have := hf.fp_aligned
  omega

end Frame

/-! ## §2 What expressions keep -/

/-- The stack pointer, the frame pointer and the memory from the stack pointer on are the same, and
nothing was printed. -/
structure Keeps (m m' : Processor) : Prop where
  sp : m'.regs .sp = m.regs .sp
  fp : m'.regs .fp = m.regs .fp
  printed : m'.printed = m.printed
  memory : ∀ a, m.regs .sp ≤ a → m'.memory a = m.memory a

section Keeping

variable {l : Layout} {s : Slots} {m m' m'' : Processor}

theorem Keeps.refl (m : Processor) : Keeps m m := ⟨rfl, rfl, rfl, fun _ _ => rfl⟩

/-- What is kept at each of two times is kept over both. -/
theorem Keeps.trans (h : Keeps m m') (h' : Keeps m' m'') : Keeps m m'' := by
  constructor
  · rw [h'.sp, h.sp]
  · rw [h'.fp, h.fp]
  · rw [h'.printed, h.printed]
  · intro a ha
    rw [h'.memory a (by rw [h.sp]; exact ha), h.memory a ha]

/-- Registers that point nowhere may be set. -/
theorem Keeps.set (h : Keeps m m') {r : Reg} (hsp : r ≠ .sp) (hfp : r ≠ .fp) (w : Word) :
    Keeps m (m'.set r w) := by
  constructor
  · simpa [hsp.symm] using h.sp
  · simpa [hfp.symm] using h.fp
  · exact h.printed
  · exact h.memory

/-- The flags may change. -/
theorem Keeps.flags (h : Keeps m m') (f : Flags) : Keeps m { m' with flags := f } :=
  ⟨h.sp, h.fp, h.printed, h.memory⟩

/-- The frame stands as long as the stack above its pointer is kept. -/
theorem Framed.keeps (hf : Framed l s m) (ht : l.Tidy) (h : Keeps m m') : Framed l s m' := by
  -- memory above the stack pointer is kept, and all slots are there
  constructor
  · rw [h.sp]
    exact hf.sp_aligned
  · rw [h.fp]
    exact hf.fp_aligned
  · rw [h.sp, h.fp]
    exact hf.below
  · rw [h.fp]
    exact hf.above
  · intro name off hoff
    rw [h.fp, h.memory _ (hf.sp_le_slot ht hoff)]
    exact hf.slots name off hoff

end Keeping

/-! ## §3 Pushing and popping -/

/-- Two registers pushed. -/
def Processor.pushed (m : Processor) (r q : Reg) : Processor :=
  { m with
    regs := Function.update m.regs .sp (m.regs .sp - 8)
    memory := Function.update (Function.update m.memory (m.regs .sp - 8) (m.regs r))
      (m.regs .sp - 4) (m.regs q) }

section Pushing

variable {lib : Library} {l : Layout} {s : Slots} {m m' : Processor} {r q : Reg}

/-- A push of two registers, with the stack pointer aligned. -/
theorem effect_push (hal : (m.regs .sp).toNat % 4 = 0) :
    (Instr.push [r, q]).effect lib m = some (m.pushed r q) := by
  have h8 : (m.regs .sp - 8 : Word).toNat % 4 = 0 := by bv_omega
  have h4 : (m.regs .sp - 4 : Word).toNat % 4 = 0 := by bv_omega
  have hnext : m.regs .sp - 8 + 4 = m.regs .sp - 4 := by bv_omega
  change (Processor.storeAll? (m.regs .sp - 8) [r, q] m).map (·.set .sp (m.regs .sp - 8)) = _
  simp only [Processor.storeAll?, Processor.store?_of_aligned h8, Option.bind_some, hnext,
    Processor.store?_of_aligned h4, Option.map_some]
  rfl

@[simp] theorem pushed_sp : (m.pushed r q).regs .sp = m.regs .sp - 8 := by
  simp [Processor.pushed]

/-- A push changes no register but the stack pointer. -/
theorem pushed_regs {k : Reg} (h : k ≠ .sp) : (m.pushed r q).regs k = m.regs k := by
  simp [Processor.pushed, h]

/-- A push writes below the stack pointer only. -/
theorem pushed_memory (hroom : 8 ≤ (m.regs .sp).toNat) {a : Word} (ha : m.regs .sp ≤ a) :
    (m.pushed r q).memory a = m.memory a := by
  have h8 : a ≠ m.regs .sp - 8 := by bv_omega
  have h4 : a ≠ m.regs .sp - 4 := by bv_omega
  simp only [Processor.pushed, Function.update_of_ne h4, Function.update_of_ne h8]

theorem pushed_first : (m.pushed r q).memory (m.regs .sp - 8) = m.regs r := by
  have hne : m.regs .sp - 8 ≠ m.regs .sp - 4 := by bv_omega
  simp only [Processor.pushed, Function.update_of_ne hne, Function.update_self]

theorem pushed_second : (m.pushed r q).memory (m.regs .sp - 4) = m.regs q := by
  simp [Processor.pushed]

/-- The frame stands over a push. -/
theorem Framed.pushed (hf : Framed l s m) (ht : l.Tidy) (hroom : 8 ≤ (m.regs .sp).toNat) :
    Framed l s (m.pushed r q) := by
  have hsp : (m.regs .sp - 8 : Word).toNat = (m.regs .sp).toNat - 8 := by bv_omega
  have hbelow := hf.below
  have hal := hf.sp_aligned
  -- the words pushed are below the stack pointer, where no slot is
  constructor
  · rw [pushed_sp, hsp]
    omega
  · rw [pushed_regs (by decide)]
    exact hf.fp_aligned
  · rw [pushed_sp, hsp, pushed_regs (by decide)]
    omega
  · rw [pushed_regs (by decide)]
    exact hf.above
  · intro name off hoff
    rw [pushed_regs (by decide), pushed_memory hroom (hf.sp_le_slot ht hoff)]
    exact hf.slots name off hoff

/-- Two registers popped. -/
def Processor.popped (m : Processor) (r q : Reg) : Processor :=
  ((m.set r (m.memory (m.regs .sp))).set q (m.memory (m.regs .sp + 4))).set .sp (m.regs .sp + 8)

/-- A pop of two registers, with the stack pointer aligned. -/
theorem effect_pop (hal : (m.regs .sp).toNat % 4 = 0) :
    (Instr.pop [r, q]).effect lib m = some (m.popped r q) := by
  have h4 : (m.regs .sp + 4 : Word).toNat % 4 = 0 := by bv_omega
  change (Processor.loadAll? (m.regs .sp) [r, q] m).map (·.set .sp (m.regs .sp + 8)) = _
  simp only [Processor.loadAll?, Processor.load?_of_aligned hal, Processor.load?_of_aligned h4,
    Option.bind_some, Option.map_some, Processor.set_memory]
  rfl

/-- What was pushed comes back, whatever was computed in between. -/
theorem popped_first (h : Keeps (m.pushed r q) m') (k : Reg) (hk : k ≠ .sp) (hk' : k ≠ .ip) :
    (m'.popped k .ip).regs k = m.regs r := by
  have hmem : m'.memory (m'.regs .sp) = m.regs r := by
    rw [h.sp, h.memory _ (BitVec.le_refl _), pushed_sp, pushed_first]
  simp [Processor.popped, hk, hk', hmem]

/-- A push and the pop that takes it back keep the stack. -/
theorem keeps_popped (hroom : 8 ≤ (m.regs .sp).toNat) (h : Keeps (m.pushed r q) m') {k : Reg}
    (hk : k ≠ .fp) : Keeps m (m'.popped k .ip) := by
  have hfp : m'.regs .fp = m.regs .fp := by
    rw [h.fp, pushed_regs (by decide)]
  -- the pop takes back what the push reserved
  constructor
  · have hsp : m'.regs .sp + 8 = m.regs .sp := by
      rw [h.sp, pushed_sp]
      bv_omega
    simpa [Processor.popped] using hsp
  · simpa [Processor.popped, hk.symm] using hfp
  · exact h.printed
  · intro a ha
    have hle : (m.pushed r q).regs .sp ≤ a := by
      rw [pushed_sp]
      bv_omega
    change m'.memory a = _
    rw [h.memory a hle, pushed_memory hroom ha]

end Pushing

/-! ## §4 Operators -/

section Operators

variable {lib : Library} {m : Processor} {loc : Location} {is : List Instr} {w : Word}

/-- A row of instructions is known from its emission. -/
theorem instrs_injective {is js : List Instr} (h : Emit.instrs is = Emit.instrs js) : is = js := by
  have hcode : is.map Line.instr = js.map Line.instr :=
    congrArg Emission.code (congrFun h Context.top)
  exact List.map_injective_iff.mpr (fun _ _ heq => by cases heq; rfl) hcode

/-- Straight code that leaves a value in the first register and keeps the rest. -/
def Yields (lib : Library) (is : List Instr) (m : Processor) (w : Word) : Prop :=
  is.all Instr.isStraight = true ∧
    ∃ m', effects lib is m = some m' ∧ m'.regs .r0 = w ∧ Keeps m m'

/-- An instruction that sets the result yields what it sets. -/
theorem yields_of_effect {i : Instr} (hstraight : i.isStraight = true)
    (h : i.effect lib m = some (m.set .r0 w)) : Yields lib [i] m w :=
  ⟨by simp [hstraight], m.set .r0 w, by simp [effects, h], by simp,
    (Keeps.refl m).set (by decide) (by decide) w⟩

/-- A value set by a condition and its opposite. -/
theorem yields_truthValue {yes no : Cond} {b : Bool} (hyes : yes.holds m.flags = b)
    (hno : no.holds m.flags = !b) : Yields lib (Emit.truthValue yes no) m (truth b) := by
  refine ⟨rfl, m.set .r0 (truth b), ?_, by simp, (Keeps.refl m).set (by decide) (by decide) _⟩
  cases b with
  | false | true =>
    simp [Emit.truthValue, effects, Instr.effect, hyes, hno, Processor.write?, Operand.value, truth]

/-- A comparison and the two moves behind it yield its truth. -/
theorem yields_compare {a : Reg} {b : Operand} {yes no : Cond} {v : Bool}
    (hyes : yes.holds (.ofCompare (m.regs a) (b.value m)) = v)
    (hno : no.holds (.ofCompare (m.regs a) (b.value m)) = !v) :
    Yields lib (.compare a b :: Emit.truthValue yes no) m (truth v) := by
  let flagged : Processor := { m with flags := .ofCompare (m.regs a) (b.value m) }
  have hvalue : Yields lib (Emit.truthValue yes no) flagged (truth v) := yields_truthValue hyes hno
  obtain ⟨hstraight, m', heffects, hr0, hkeeps⟩ := hvalue
  exact ⟨hstraight, m', heffects, hr0, ((Keeps.refl m).flags _).trans hkeeps⟩

/-- The code of a unary operator yields what the operator does to words. -/
theorem yields_unary {op : UnaryOp} (hop : Emit.unary op loc = Emit.instrs is)
    (hw : op.onWord? (m.regs .r0) = some w) : Yields lib is m w := by
  -- each operator has its own instructions, and its own arithmetic to do with the word
  cases op with
  | unknown k => cases hw
  | not =>
    cases instrs_injective hop
    cases hw
    apply yields_compare <;> simp [Operand.value, bne]
  | negate =>
    cases instrs_injective hop
    cases hw
    apply yields_of_effect rfl
    simp [Instr.effect, Processor.write?, Arith.apply, Operand.value]

/-- The code of a binary operator yields what the operator does to words. -/
theorem yields_binary {op : BinaryOp} (hop : Emit.binary op loc = Emit.instrs is)
    (hw : op.onWords? (m.regs .r1) (m.regs .r0) = some w) : Yields lib is m w := by
  -- the comparisons share their instructions up to the condition
  cases op with
  | power | and | or | unknown _ => cases hw
  | add | subtract | multiply | divide =>
    cases instrs_injective hop
    cases hw
    exact yields_of_effect rfl rfl
  | modulo =>
    cases instrs_injective hop
    cases hw
    let quotient := m.set .r2 (m.regs .r1 / m.regs .r0)
    have hkeeps : Keeps m quotient := (Keeps.refl m).set (by decide) (by decide) _
    refine ⟨rfl, quotient.set .r0 (m.regs .r1 % m.regs .r0), ?_, by simp,
      hkeeps.set (by decide) (by decide) _⟩
    rw [← sub_udiv_mul]
    rfl
  | equal | notEqual | less | lessEqual | greater | greaterEqual =>
    cases instrs_injective hop
    cases hw
    apply yields_compare <;> simp [Operand.value, BitVec.sle_eq_not_slt, bne]

end Operators

/-! ## §5 Expressions -/

/-- Wherever it stands in the listing, the code leaves a value in the first register and keeps the
rest. -/
def Evaluates (lib : Library) (code part : List Line) (m : Processor) (w : Word) : Prop :=
  ∀ rest, part ++ rest <:+ code →
    ∃ m', Runs lib code ⟨.ahead (part ++ rest), m⟩ ⟨.ahead rest, m'⟩ ∧ m'.regs .r0 = w ∧ Keeps m m'

section Expressions

variable {lib : Library} {code : List Line} {l : Layout} {s : Slots} {m : Processor}

/-- A row of instructions evaluates to the word that it yields. -/
theorem Yields.evaluates {is : List Instr} {w : Word} (h : Yields lib is m w) :
    Evaluates lib code (is.map .instr) m w := by
  intro rest _
  obtain ⟨hstraight, m', heffects, hr0, hkeeps⟩ := h
  exact ⟨m', runs_straight hstraight heffects, hr0, hkeeps⟩

/-- Code that evaluates an operand, and the instructions that work on it. -/
theorem evaluates_append {a : List Line} {is : List Instr} {v w : Word}
    (ha : Evaluates lib code a m v)
    (his : ∀ m', m'.regs .r0 = v → Keeps m m' → Yields lib is m' w) :
    Evaluates lib code (a ++ is.map .instr) m w := by
  intro rest hsuffix
  rw [List.append_assoc] at hsuffix ⊢
  obtain ⟨m₁, hruns, hr0, hkeeps⟩ := ha _ hsuffix
  obtain ⟨hstraight, m₂, heffects, hr0', hkeeps'⟩ := his m₁ hr0 hkeeps
  exact ⟨m₂, hruns.trans (runs_straight hstraight heffects), hr0', hkeeps.trans hkeeps'⟩

/-- Two operands: the first waits on the stack while the second is computed. -/
theorem evaluates_operands {a b : List Line} {is : List Instr} {v w u : Word} (ht : l.Tidy)
    (hf : Framed l s m) (hroom : 8 ≤ (m.regs .sp).toNat) (ha : Evaluates lib code a m v)
    (hb : ∀ m', Framed l s m' → m'.regs .sp = m.regs .sp - 8 → Evaluates lib code b m' w)
    (his : ∀ m', m'.regs .r1 = v → m'.regs .r0 = w → Yields lib is m' u) :
    Evaluates lib code
      (a ++ [Line.instr (.push [.r0, .ip])] ++ b ++ [Line.instr (.pop [.r1, .ip])] ++
        is.map .instr) m u := by
  intro rest hsuffix
  simp only [List.append_assoc, List.cons_append, List.nil_append] at hsuffix ⊢
  -- first operand, push, second operand, pop, operator
  obtain ⟨m₁, hruns₁, hr0₁, hkeeps₁⟩ := ha _ hsuffix
  have hsuffix' := (List.suffix_cons _ _).trans ((List.suffix_append _ _).trans hsuffix)
  have hf₁ := hf.keeps ht hkeeps₁
  have hroom₁ : 8 ≤ (m₁.regs .sp).toNat := by rw [hkeeps₁.sp]; exact hroom
  have hpush := hruns₁.trans (runs_next rfl (effect_push hf₁.sp_aligned))
  have hsp : (m₁.pushed .r0 .ip).regs .sp = m.regs .sp - 8 := by rw [pushed_sp, hkeeps₁.sp]
  obtain ⟨m₂, hruns₂, hr0₂, hkeeps₂⟩ := hb _ (hf₁.pushed ht hroom₁) hsp _ hsuffix'
  have hf₂ := (hf₁.pushed ht hroom₁).keeps ht hkeeps₂
  have hpop := hruns₂.trans (runs_next rfl (effect_pop hf₂.sp_aligned))
  obtain ⟨hstraight, m₃, heffects, hr0₃, hkeeps₃⟩ := his (m₂.popped .r1 .ip)
    ((popped_first hkeeps₂ .r1 (by decide) (by decide)).trans hr0₁)
    (by simpa [Processor.popped] using hr0₂)
  have hkeeps : Keeps m₁ (m₂.popped .r1 .ip) := keeps_popped hroom₁ hkeeps₂ (by decide)
  refine ⟨m₃, ?_, hr0₃, (hkeeps₁.trans hkeeps).trans hkeeps₃⟩
  exact (hpush.trans hpop).trans (runs_straight hstraight heffects)

/-- A test of the value in the first register. -/
theorem runs_test_taken {cond : Cond} {t : Label} {rest target : List Line}
    (hnodup : (placed code).Nodup) (htarget : .label t :: target <:+ code)
    (hcond : cond.holds (.ofCompare (m.regs .r0) 0) = true) :
    ∃ m', Runs lib code ⟨.ahead (test cond t ++ rest), m⟩ ⟨.ahead target, m'⟩ ∧
      m'.regs .r0 = m.regs .r0 ∧ Keeps m m' := by
  let flagged : Processor := { m with flags := .ofCompare (m.regs .r0) 0 }
  refine ⟨flagged, ?_, rfl, (Keeps.refl m).flags _⟩
  have hcompare : Runs lib code ⟨.ahead (test cond t ++ rest), m⟩ ⟨_, flagged⟩ := runs_next rfl rfl
  exact hcompare.trans (runs_branch hnodup htarget hcond)

/-- A test that does not hold goes on behind itself. -/
theorem runs_test_passed {cond : Cond} {t : Label} {rest : List Line}
    (hcond : cond.holds (.ofCompare (m.regs .r0) 0) = false) :
    ∃ m', Runs lib code ⟨.ahead (test cond t ++ rest), m⟩ ⟨.ahead rest, m'⟩ ∧
      m'.regs .r0 = m.regs .r0 ∧ Keeps m m' := by
  let flagged : Processor := { m with flags := .ofCompare (m.regs .r0) 0 }
  refine ⟨flagged, ?_, rfl, (Keeps.refl m).flags _⟩
  have hcompare : Runs lib code ⟨.ahead (test cond t ++ rest), m⟩ ⟨_, flagged⟩ := runs_next rfl rfl
  exact hcompare.trans (runs_no_branch hcond)

/-- The condition of a deciding operator holds when its operand decides. -/
theorem holds_logical {op : BinaryOp} {cond : Cond} {v : Bool} (h : logical? op = some (cond, v))
    (p : Word) : cond.holds (.ofCompare p 0) = ((p != 0) == v) := by
  cases op with
  | and | or =>
    cases h
    simp [bne]
  | _ => cases h

/-- The value once an operand has decided. -/
theorem runs_decided {v : Bool} {done : Label} {rest : List Line} :
    Runs lib code
      ⟨.ahead (.instr (.move .always .r0 (truthImm v)) :: .label done :: rest), m⟩
      ⟨.ahead rest, m.set .r0 (truth v)⟩ := by
  refine Runs.trans (runs_next rfl ?_) (runs_label done)
  cases v <;> rfl

/-- The value if no operand has decided. -/
theorem runs_undecided {v : Bool} {short done : Label} {rest : List Line}
    (hnodup : (placed code).Nodup) (hdone : .label done :: rest <:+ code) :
    Runs lib code ⟨.ahead (settle v short done ++ rest), m⟩ ⟨.ahead rest, m.set .r0 (truth !v)⟩ := by
  refine Runs.trans (runs_next rfl ?_) (runs_branch hnodup hdone rfl)
  cases v <;> rfl

/-- A deciding operator runs its second operand only when the first leaves it open. -/
theorem evaluates_logical {a b : List Line} {op : BinaryOp} {cond : Cond} {v : Bool}
    {short done : Label} {p w : Word} (hnodup : (placed code).Nodup)
    (hop : logical? op = some (cond, v)) (ha : Evaluates lib code a m p)
    (hshort : (p != 0) = v → w = truth v)
    (hb : (p != 0) ≠ v →
      ∃ q, w = truth (q != 0) ∧ ∀ m', Keeps m m' → Evaluates lib code b m' q) :
    Evaluates lib code (a ++ test cond short ++ b ++ test cond short ++ settle v short done) m w := by
  intro rest hsuffix
  simp only [List.append_assoc] at hsuffix ⊢
  have hsuffix_b := (List.suffix_append _ _).trans ((List.suffix_append _ _).trans hsuffix)
  have hsettle := (List.suffix_append _ _).trans ((List.suffix_append _ _).trans hsuffix_b)
  have hlabel := (List.suffix_cons _ _).trans ((List.suffix_cons _ _).trans hsettle)
  have hdone := (List.suffix_cons _ _).trans ((List.suffix_cons _ _).trans hlabel)
  obtain ⟨m₁, hruns₁, hr0₁, hkeeps₁⟩ := ha _ hsuffix
  by_cases hp : (p != 0) = v
  · -- the first operand decides
    have hcond : cond.holds (.ofCompare (m₁.regs .r0) 0) = true := by
      rw [hr0₁, holds_logical hop]
      simpa using hp
    obtain ⟨m₂, hruns₂, -, hkeeps₂⟩ := runs_test_taken hnodup hlabel hcond
    exact ⟨m₂.set .r0 (truth v), (hruns₁.trans hruns₂).trans runs_decided, by simp [hshort hp],
      (hkeeps₁.trans hkeeps₂).set (by decide) (by decide) _⟩
  obtain ⟨q, rfl, hq⟩ := hb hp
  have hcond : cond.holds (.ofCompare (m₁.regs .r0) 0) = false := by
    rw [hr0₁, holds_logical hop]
    simpa using hp
  obtain ⟨m₂, hruns₂, -, hkeeps₂⟩ := runs_test_passed hcond
  obtain ⟨m₃, hruns₃, hr0₃, hkeeps₃⟩ := hq m₂ (hkeeps₁.trans hkeeps₂) _ hsuffix_b
  have hruns := (hruns₁.trans hruns₂).trans hruns₃
  have hkeeps := (hkeeps₁.trans hkeeps₂).trans hkeeps₃
  by_cases hqv : (q != 0) = v
  · -- the second operand decides
    have hcond₃ : cond.holds (.ofCompare (m₃.regs .r0) 0) = true := by
      rw [hr0₃, holds_logical hop]
      simpa using hqv
    obtain ⟨m₄, hruns₄, -, hkeeps₄⟩ := runs_test_taken hnodup hlabel hcond₃
    exact ⟨m₄.set .r0 (truth v), (hruns.trans hruns₄).trans runs_decided, by rw [hqv]; simp,
      (hkeeps.trans hkeeps₄).set (by decide) (by decide) _⟩
  · -- neither decides
    have hcond₃ : cond.holds (.ofCompare (m₃.regs .r0) 0) = false := by
      rw [hr0₃, holds_logical hop]
      simpa using hqv
    obtain ⟨m₄, hruns₄, -, hkeeps₄⟩ := runs_test_passed hcond₃
    exact ⟨m₄.set .r0 (truth !v), (hruns.trans hruns₄).trans (runs_undecided hnodup hdone),
      by rw [Bool.eq_not_of_ne hqv]; simp, (hkeeps.trans hkeeps₄).set (by decide) (by decide) _⟩

/-- The word of a deciding operator, by whether its first operand decides. -/
theorem word?_logical {op : BinaryOp} {cond : Cond} {v : Bool} (h : logical? op = some (cond, v))
    (x y : Node) (loc : Location) :
    (Node.binary op x y loc).word? s =
      (x.word? s).bind fun p =>
        if (p != 0) = v then some (truth v) else (y.word? s).map fun q => truth (q != 0) := by
  cases op with
  | and | or =>
    cases h
    simp [Node.word?, truth]
  | _ => cases h

/-- The word of the other operators, from the words of both operands. -/
theorem word?_operands {op : BinaryOp} (h : logical? op = none) (x y : Node) (loc : Location) :
    (Node.binary op x y loc).word? s =
      (x.word? s).bind fun p => (y.word? s).bind fun q => op.onWords? p q := by
  cases op with
  | and | or => cases h
  | _ => simp [Node.word?]

/-- A deciding operator saves nothing while its operands run. -/
theorem depth_logical {op : BinaryOp} {cond : Cond} {v : Bool} (h : logical? op = some (cond, v))
    (x y : Node) (loc : Location) :
    (Node.binary op x y loc).depth = max x.depth y.depth := by
  cases op with
  | and | or => simp [Node.depth]
  | _ => cases h

/-- The other operators save their first operand while the second runs. -/
theorem depth_operands {op : BinaryOp} (h : logical? op = none) (x y : Node) (loc : Location) :
    (Node.binary op x y loc).depth = max x.depth (y.depth + 1) := by
  cases op with
  | and | or => cases h
  | _ => rfl

/-- An operator with code of its own is not one that decides. -/
theorem logical?_of_binary {op : BinaryOp} {loc : Location} {is : List Instr}
    (h : Emit.binary op loc = Emit.instrs is) : logical? op = none := by
  cases op with
  | and | or => cases congrArg Emission.result (congrFun h Context.top)
  | _ => rfl

/-- The code of an expression computes its value. -/
theorem Compiled.evaluates {n n' : Nat} {x : Node} {part : List Line} (h : Compiled l n x part n')
    (ht : l.Tidy) (hnodup : (placed code).Nodup) :
    ∀ {m : Processor} {w : Word}, x.word? s = some w → Framed l s m →
      8 * x.depth ≤ (m.regs .sp).toNat → Evaluates lib code part m w := by
  -- by the shape of the code: each part is evaluated where the code before it has left the frame
  induction h with
  | number hk =>
    intro m w hw _ _
    simp only [Node.word?, hk, Option.map_some, Option.some.injEq] at hw
    subst hw
    exact Yields.evaluates (yields_of_effect rfl rfl)
  | @ident _ name off _ hoff =>
    intro m w hw hf _
    cases hw
    have hload : Yields lib [.load .r0 .fp off] m (s name) := by
      apply yields_of_effect rfl
      change (m.load? (slotAt (m.regs .fp) off)).bind (m.write? .r0) = _
      rw [Processor.load?_of_aligned (hf.slot_aligned ht hoff), hf.slots _ _ hoff]
      rfl
    exact hload.evaluates
  | unary _ hop ih =>
    intro m w hw hf hroom
    obtain ⟨p, hp, hw⟩ := Option.bind_eq_some_iff.mp hw
    apply evaluates_append (ih hp hf hroom)
    rintro m' rfl -
    exact yields_unary hop hw
  | logical hop _ _ ihx ihy =>
    intro m w hw hf hroom
    rw [depth_logical hop] at hroom
    rw [word?_logical hop] at hw
    obtain ⟨p, hp, hw⟩ := Option.bind_eq_some_iff.mp hw
    apply evaluates_logical hnodup hop (ihx hp hf (by omega))
    · intro hdecides
      rw [if_pos hdecides] at hw
      exact (Option.some.inj hw).symm
    · intro hopen
      rw [if_neg hopen] at hw
      obtain ⟨q, hq, rfl⟩ := Option.map_eq_some_iff.mp hw
      refine ⟨q, rfl, ?_⟩
      intro m' hkeeps
      exact ihy hq (hf.keeps ht hkeeps) (by rw [hkeeps.sp]; omega)
  | binary _ _ hop ihx ihy =>
    intro m w hw hf hroom
    have hnot := logical?_of_binary hop
    rw [depth_operands hnot] at hroom
    rw [word?_operands hnot] at hw
    obtain ⟨p, hp, hw⟩ := Option.bind_eq_some_iff.mp hw
    obtain ⟨q, hq, hw⟩ := Option.bind_eq_some_iff.mp hw
    apply evaluates_operands ht hf (by omega) (ihx hp hf (by omega))
    · intro m' hf' hsp
      apply ihy hq hf'
      rw [hsp]
      bv_omega
    · rintro m' rfl rfl
      exact yields_binary hop hw
  | _ =>
    intro m w hw _ _
    cases hw

end Expressions

end Assembly

end Scriptlet
