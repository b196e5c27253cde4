import Mathlib
import Scriptlet.Proofs.Processor

/-!
# The height of the stack along paths

A control path follows the lines of a function without regard to values: a condition may hold or
not, and what the scratch registers hold after an instruction is left open. What counts is where the
stack pointer stands, measured from where it stood when the function was entered. A path that calls
another function goes on behind the call; the callee is trusted with the stack and the frame pointer
and with the memory from the stack pointer on, as the procedure call standard has it.

`Steady` assigns a height to every line, going through the code from top to bottom. It asks of a
branch that its label has the height of the branch, of a call that the height is a multiple of
eight, and of a store that it stays below the two words saved on entry. A path then cannot do
otherwise than the heights say, however it branches.

## Contents

- §1 paths
- §2 heights
- §3 what heights say about a step
- §4 what heights say about a path
-/

namespace Scriptlet

namespace Assembly

/-! ## §1 Paths -/

/-- What the registers and the memory hold. Addresses are integers: the stack is as deep as it
takes. -/
structure Snapshot where
  regs : Reg → Int
  memory : Int → Int

/-- The register is used for values only. -/
def Reg.isScratch : Reg → Bool
  | .r0 | .r1 | .r2 | .r3 | .ip => true
  | .fp | .sp | .lr | .pc => false

namespace Snapshot

def set (m : Snapshot) (r : Reg) (n : Int) : Snapshot :=
  { m with regs := Function.update m.regs r n }

@[simp] theorem set_regs (m : Snapshot) (r q : Reg) (n : Int) :
    (m.set r n).regs q = if q = r then n else m.regs q := by
  simp [set, Function.update_apply]

@[simp] theorem set_memory (m : Snapshot) (r : Reg) (n : Int) : (m.set r n).memory = m.memory := rfl

/-- Puts a word at an address. -/
def store (m : Snapshot) (a n : Int) : Snapshot :=
  { m with memory := Function.update m.memory a n }

@[simp] theorem store_regs (m : Snapshot) (a n : Int) : (m.store a n).regs = m.regs := rfl

@[simp] theorem store_memory (m : Snapshot) (a b n : Int) :
    (m.store a n).memory b = if b = a then n else m.memory b := by
  simp [store, Function.update_apply]

/-- Puts registers at consecutive words. -/
def storeAll (a : Int) : List Reg → Snapshot → Snapshot
  | [], m => m
  | r :: rs, m => storeAll (a + 4) rs (m.store a (m.regs r))

/-- Sets registers from consecutive words. -/
def loadAll (a : Int) : List Reg → Snapshot → Snapshot
  | [], m => m
  | r :: rs, m => loadAll (a + 4) rs (m.set r (m.memory a))

/-- The same but for what the scratch registers hold. -/
structure Alike (m m' : Snapshot) : Prop where
  memory : m'.memory = m.memory
  regs : ∀ r : Reg, r.isScratch = false → m'.regs r = m.regs r

end Snapshot

/-- The number that an operand stands for. -/
def Operand.number (m : Snapshot) : Operand → Int
  | .reg r => m.regs r
  | .imm n => n
  | .char c => c.toNat

/-- The result of arithmetic on addresses. -/
def Arith.number : Arith → Int → Int → Int
  | .add, a, b => a + b
  | .sub, a, b => a - b
  | .mul, a, b => a * b
  | .udiv, a, b => a / b
  | .rsb, a, b => b - a

/-- What an instruction does to registers and memory. -/
def Instr.onSnapshot (m : Snapshot) : Instr → Snapshot
  | .literal dst n => m.set dst n
  | .load dst base off => m.set dst (m.memory (m.regs base + off))
  | .store src base off => m.store (m.regs base + off) (m.regs src)
  | .push rs =>
    let a := m.regs .sp - 4 * rs.length
    (m.storeAll a rs).set .sp a
  | .pop rs =>
    let a := m.regs .sp
    (m.loadAll a rs).set .sp (a + 4 * rs.length)
  | .move _ dst src => m.set dst (src.number m)
  | .arith op dst a b => m.set dst (op.number (m.regs a) (b.number m))
  | .mls dst a b c => m.set dst (m.regs c - m.regs a * m.regs b)
  | .compare _ _ | .branch _ _ | .call _ => m

/-- What an instruction may do on a path. -/
inductive Acts : Instr → Snapshot → Snapshot → Prop where
  | done {i : Instr} {m m' : Snapshot} (h : (i.onSnapshot m).Alike m') : Acts i m m'
  | skipped {cond : Cond} {dst : Reg} {src : Operand} {m : Snapshot} (h : cond ≠ .always) :
      Acts (.move cond dst src) m m
  | called {name : Text} {m m' : Snapshot} (hsp : m'.regs .sp = m.regs .sp)
      (hfp : m'.regs .fp = m.regs .fp) (h : ∀ a, m.regs .sp ≤ a → m'.memory a = m.memory a) :
      Acts (.call name) m m'

/-- Where a path may go on after an instruction. It has left the function if it goes on nowhere. -/
inductive Turns (code rest : List Line) : Instr → Option (List Line) → Prop where
  | next {i : Instr} (h : i.isStraight = true) : Turns code rest i (some rest)
  | passed {cond : Cond} {l : Label} (h : cond ≠ .always) :
      Turns code rest (.branch cond l) (some rest)
  | taken {cond : Cond} {l : Label} {target : List Line} (h : linesBehind l code = some target) :
      Turns code rest (.branch cond l) (some target)
  | left {rs : List Reg} (h : .pc ∈ rs) : Turns code rest (.pop rs) none

/-- A point of a path: the lines ahead, if the function is not left. -/
structure Point where
  ahead : Option (List Line)
  state : Snapshot

/-- A path goes on by one line. -/
inductive Goes (code : List Line) : Point → Point → Prop where
  | mark {line : Line} {rest : List Line} {m : Snapshot} (h : ∀ i, line ≠ .instr i) :
      Goes code ⟨some (line :: rest), m⟩ ⟨some rest, m⟩
  | instr {i : Instr} {rest : List Line} {m m' : Snapshot} {p : Option (List Line)}
      (hacts : Acts i m m') (hturns : Turns code rest i p) :
      Goes code ⟨some (.instr i :: rest), m⟩ ⟨p, m'⟩

/-- There is a path from one point to the other. -/
def Path (code : List Line) : Point → Point → Prop := Relation.ReflTransGen (Goes code)

theorem Snapshot.Alike.refl (m : Snapshot) : m.Alike m := ⟨rfl, fun _ _ => rfl⟩

/-- Straight code has a path through it. -/
theorem path_straight {code rest : List Line} (is : List Instr) (m : Snapshot)
    (h : is.all Instr.isStraight = true) :
    Path code ⟨some (is.map .instr ++ rest), m⟩
      ⟨some rest, is.foldl Instr.onSnapshot m⟩ := by
  induction is generalizing m with
  | nil => exact .refl
  | cons i is ih =>
    rw [List.all_cons, Bool.and_eq_true] at h
    exact .head (.instr (.done (.refl _)) (.next h.1)) (ih _ h.2)

/-- A path ends before a line, or goes past it. -/
theorem Path.past {code rest : List Line} {line : Line} {m : Snapshot} {q : Point}
    (h : Path code ⟨some (line :: rest), m⟩ q) :
    q = ⟨some (line :: rest), m⟩ ∨
      ∃ p, Goes code ⟨some (line :: rest), m⟩ p ∧ Path code p q := by
  rcases Relation.ReflTransGen.cases_head h with h | h
  · exact .inl h.symm
  · exact .inr h

/-- Behind an instruction that is always followed by the next. -/
theorem Goes.straight {code rest : List Line} {i : Instr} {m : Snapshot} {p : Point}
    (hi : i.isStraight = true) (h : Goes code ⟨some (.instr i :: rest), m⟩ p) :
    ∃ m', Acts i m m' ∧ p = ⟨some rest, m'⟩ := by
  cases h with
  | mark hline => exact absurd rfl (hline i)
  | instr hacts hturns =>
    cases hturns with
    | next => exact ⟨_, hacts, rfl⟩
    | passed | taken => cases hi
    | left hpc => simp [Instr.isStraight, hpc] at hi

/-! ## §2 Heights -/

/-- By how much an instruction raises the stack pointer, where it leaves the frame pointer alone and
the stack pointer only moves by constants. -/
def Instr.rise? : Instr → Option Int
  | .literal dst _ | .load dst _ _ | .move _ dst _ | .mls dst _ _ _ =>
    if dst.isScratch then some 0 else none
  | .push rs => if rs.all Reg.isScratch then some (-(4 * rs.length)) else none
  | .pop rs => if rs.all Reg.isScratch then some (4 * rs.length) else none
  | .arith op dst a b =>
    if dst.isScratch then some 0
    else
      match b with
      | .imm n => if op = .sub ∧ dst = .sp ∧ a = .sp ∧ 0 ≤ n then some (-n) else none
      | _ => none
  | .store _ _ _ | .compare _ _ | .branch _ _ | .call _ => some 0

/-- The line that ends a function, behind the one that takes the stack back to the frame. -/
def returning : Line := .instr (.pop [.fp, .pc])

section Heights

variable (marks : List (Label × Int)) (slot : Int → Prop)

/-- What a height asks of an instruction: branches go to labels of the height, calls find the stack
aligned, and stores and pops stay below the saved words. The words of variables are given by their
offsets. -/
def Instr.Allowed (k : Int) : Instr → Prop
  | .branch _ l => (l, k) ∈ marks
  | .call _ => 8 ∣ k
  | .store _ .fp off => slot off
  | .store _ .sp off => k + off ≤ -12
  | .store _ _ _ => False
  | .pop rs => k + 4 * rs.length ≤ -8
  | _ => True

/-- Code that takes the stack from one height to another, where labels have the heights given. What
stands behind a return has the height of the return. -/
inductive Steady : Int → List Line → Int → Prop where
  | nil {k : Int} : Steady k [] k
  | label {k k' : Int} {l : Label} {rest : List Line} (hl : (l, k) ∈ marks)
      (h : Steady k rest k') : Steady k (.label l :: rest) k'
  | instr {k k' d : Int} {i : Instr} {rest : List Line} (hrise : i.rise? = some d)
      (hi : i.Allowed marks slot k) (h : Steady (k + d) rest k') :
      Steady k (.instr i :: rest) k'
  | leave {k k' : Int} {rest : List Line} (h : Steady k rest k') :
      Steady k (.instr (.move .always .sp (.reg .fp)) :: returning :: rest) k'

end Heights

variable {marks marks' : List (Label × Int)} {slot slot' : Int → Prop} {k k' d e : Int}
  {a b rest p : List Line} {i : Instr} {m m' : Snapshot}

theorem Instr.Allowed.mono (hmarks : marks ⊆ marks') (h : i.Allowed marks slot k) :
    i.Allowed marks' slot k := by
  cases i with
  | branch => exact hmarks h
  | store _ base => cases base <;> exact h
  | _ => exact h

/-- Arithmetic either leaves the stack pointer alone or reserves room. -/
theorem Instr.rise_arith {op : Arith} {dst r : Reg} {x : Operand}
    (h : (Instr.arith op dst r x).rise? = some d) :
    dst.isScratch = true ∧ d = 0 ∨
      ∃ n, 0 ≤ n ∧ Instr.arith op dst r x = .arith .sub .sp .sp (.imm n) ∧ d = -n := by
  -- a target that is no scratch register is one whose arithmetic has a rise of its own
  by_cases hdst : dst.isScratch = true
  · simp only [rise?, if_pos hdst, Option.some.injEq] at h
    exact .inl ⟨hdst, h.symm⟩
  · simp only [rise?, if_neg hdst] at h
    cases x with
    | imm n =>
      simp only [Option.ite_none_right_eq_some, Option.some.injEq] at h
      obtain ⟨⟨rfl, rfl, rfl, hn⟩, rfl⟩ := h
      exact .inr ⟨n, hn, rfl, rfl⟩
    | _ => cases h

/-- An instruction does not take the stack above the saved words. -/
theorem Instr.Allowed.below (h : i.Allowed marks slot k) (hrise : i.rise? = some d)
    (hk : k ≤ -8) : k + d ≤ -8 := by
  -- only popping raises the stack, and it is allowed as far as the saved words
  cases i with
  | pop rs =>
    have hpop : k + 4 * rs.length ≤ -8 := h
    simp only [rise?, Option.ite_none_right_eq_some, Option.some.injEq] at hrise
    omega
  | push rs =>
    simp only [rise?, Option.ite_none_right_eq_some, Option.some.injEq] at hrise
    omega
  | arith op dst a b =>
    rcases rise_arith hrise with ⟨-, rfl⟩ | ⟨n, hn, -, rfl⟩ <;> omega
  | _ =>
    simp only [rise?, Option.ite_none_right_eq_some, Option.some.injEq] at hrise
    omega

namespace Steady

theorem mono (hmarks : marks ⊆ marks') (h : Steady marks slot k a k') :
    Steady marks' slot k a k' := by
  induction h with
  | nil => exact .nil
  | label hl _ ih => exact .label (hmarks hl) ih
  | instr hrise hi _ ih => exact .instr hrise (hi.mono hmarks) ih
  | leave _ ih => exact .leave ih

theorem append (ha : Steady marks slot k a k') (hb : Steady marks slot k' b e) :
    Steady marks slot k (a ++ b) e := by
  induction ha with
  | nil => exact hb
  | label hl _ ih => exact .label hl (ih hb)
  | instr hrise hi _ ih => exact .instr hrise hi (ih hb)
  | leave _ ih => exact .leave (ih hb)

theorem not_returning : ¬ Steady marks slot k (returning :: rest) e := by
  intro h
  cases h with
  | instr hrise => cases hrise

theorem of_instr (h : Steady marks slot k (.instr i :: rest) e) (hrise : i.rise? = some d) :
    i.Allowed marks slot k ∧ Steady marks slot (k + d) rest e := by
  -- the code is named, so that the case of a return can be excluded by its first line
  generalize hcode : Line.instr i :: rest = code at h
  cases h with
  | nil | label => cases hcode
  | instr hrise' hi h =>
    cases hcode
    rw [hrise] at hrise'
    cases hrise'
    exact ⟨hi, h⟩
  | leave =>
    cases hcode
    cases hrise

theorem of_leave
    (h : Steady marks slot k (.instr (.move .always .sp (.reg .fp)) :: returning :: rest) e) :
    Steady marks slot k rest e := by
  cases h with
  | instr hrise => cases hrise
  | leave h => exact h

/-- Behind steady code the height is what it was before, changed by as much as the code changes it
elsewhere. -/
theorem behind (ha : Steady marks' slot' d a e) {c : Int}
    (h : Steady marks slot k (a ++ rest) c) : Steady marks slot (k + (e - d)) rest c := by
  -- the shape of what was run decides the shape of what is behind it
  induction ha generalizing k with
  | nil => simpa using h
  | label _ _ ih =>
    cases h with
    | label _ h => exact ih h
  | @instr d e r _ _ hrise _ _ ih =>
    have hrest := ih (of_instr h hrise).2
    have hsum : k + r + (e - (d + r)) = k + (e - d) := by omega
    rwa [hsum] at hrest
  | leave _ ih => exact ih (of_leave h)

/-- Where the end has the same height, so has the beginning. -/
theorem unique (h : Steady marks slot k a e) (h' : Steady marks slot k' a e) : k = k' := by
  rw [← List.append_nil a] at h
  have hnil := h'.behind h
  generalize hsum : k + (e - k') = c at hnil
  cases hnil
  omega

/-- Each place in steady code has a height, but for the one between the two lines of a return. -/
theorem split (h : Steady marks slot k (a ++ p) e) (hk : k ≤ -8) :
    (∃ c ≤ -8, Steady marks slot c p e) ∨ ∃ t, p = returning :: t := by
  -- the place is at the start or behind the first line, and so on by induction
  generalize hcode : a ++ p = code at h
  induction h generalizing a with
  | nil =>
    obtain ⟨rfl, rfl⟩ := List.append_eq_nil_iff.mp hcode
    exact .inl ⟨_, hk, .nil⟩
  | label hl h ih =>
    rcases List.append_eq_cons_iff.mp hcode with ⟨rfl, rfl⟩ | ⟨a, rfl, hrest⟩
    · exact .inl ⟨_, hk, .label hl h⟩
    · exact ih hk hrest.symm
  | instr hrise hi h ih =>
    rcases List.append_eq_cons_iff.mp hcode with ⟨rfl, rfl⟩ | ⟨a, rfl, hrest⟩
    · exact .inl ⟨_, hk, .instr hrise hi h⟩
    · exact ih (hi.below hrise hk) hrest.symm
  | leave h ih =>
    rcases List.append_eq_cons_iff.mp hcode with ⟨rfl, rfl⟩ | ⟨a, rfl, hrest⟩
    · exact .inl ⟨_, hk, .leave h⟩
    rcases List.append_eq_cons_iff.mp hrest.symm with ⟨rfl, rfl⟩ | ⟨a', rfl, hrest'⟩
    · exact .inr ⟨_, rfl⟩
    · exact ih hk hrest'.symm

end Steady

/-! ## §3 What heights say about a step -/

theorem Snapshot.storeAll_regs (rs : List Reg) (a : Int) (m : Snapshot) :
    (m.storeAll a rs).regs = m.regs := by
  induction rs generalizing a m with
  | nil => rfl
  | cons r rs ih => rw [storeAll, ih, store_regs]

/-- Only the words from the address on are new. -/
theorem Snapshot.storeAll_memory (rs : List Reg) {a b : Int} (m : Snapshot)
    (h : b < a ∨ a + 4 * rs.length ≤ b) : (m.storeAll a rs).memory b = m.memory b := by
  induction rs generalizing a m with
  | nil => rfl
  | cons r rs ih =>
    rw [List.length_cons] at h
    rw [storeAll, ih _ (by omega), store_memory, if_neg (by omega)]

theorem Snapshot.loadAll_memory (rs : List Reg) (a : Int) (m : Snapshot) :
    (m.loadAll a rs).memory = m.memory := by
  induction rs generalizing a m with
  | nil => rfl
  | cons r rs ih => rw [loadAll, ih, set_memory]

theorem Snapshot.loadAll_regs {r : Reg} {rs : List Reg} (h : r ∉ rs) (a : Int) (m : Snapshot) :
    (m.loadAll a rs).regs r = m.regs r := by
  induction rs generalizing a m with
  | nil => rfl
  | cons q rs ih =>
    rw [List.mem_cons, not_or] at h
    obtain ⟨hne, hrest⟩ := h
    rw [loadAll, ih hrest, set_regs, if_neg hne]

/-- Setting a scratch register does not matter to the stack. -/
theorem Snapshot.set_scratch {r : Reg} (hr : r.isScratch = true) (m : Snapshot) (n : Int) :
    (m.set r n).regs .sp = m.regs .sp ∧ (m.set r n).regs .fp = m.regs .fp := by
  cases r with
  | fp | sp | lr | pc => cases hr
  | _ => exact ⟨rfl, rfl⟩

/-- A pop that has a rise is one of scratch registers. -/
theorem Instr.not_mem_of_rise {rs : List Reg} {r : Reg} (h : (Instr.pop rs).rise? = some d)
    (hr : r.isScratch = false) : r ∉ rs := by
  simp only [rise?, Option.ite_none_right_eq_some] at h
  intro hmem
  have hscratch := List.all_eq_true.mp h.1 _ hmem
  rw [hr] at hscratch
  cases hscratch

/-- An instruction raises the stack pointer by its rise, and leaves the frame pointer alone. -/
theorem Instr.onSnapshot_rise (hrise : i.rise? = some d) (m : Snapshot) :
    (i.onSnapshot m).regs .sp = m.regs .sp + d ∧ (i.onSnapshot m).regs .fp = m.regs .fp := by
  -- what moves the stack pointer by other than a constant has no rise
  cases i with
  | literal | load | move | mls =>
    simp only [rise?, Option.ite_none_right_eq_some, Option.some.injEq] at hrise
    obtain ⟨hdst, rfl⟩ := hrise
    rw [Int.add_zero]
    exact Snapshot.set_scratch hdst m _
  | push rs =>
    simp only [rise?, Option.ite_none_right_eq_some, Option.some.injEq] at hrise
    have hsp : m.regs .sp - 4 * rs.length = m.regs .sp + d := by omega
    rw [onSnapshot, hsp, Snapshot.set_regs, Snapshot.set_regs, Snapshot.storeAll_regs]
    exact ⟨rfl, rfl⟩
  | pop rs =>
    have hfp : Reg.fp ∉ rs := not_mem_of_rise hrise rfl
    simp only [rise?, Option.ite_none_right_eq_some, Option.some.injEq] at hrise
    rw [onSnapshot, hrise.2, Snapshot.set_regs, Snapshot.set_regs, Snapshot.loadAll_regs hfp]
    exact ⟨rfl, rfl⟩
  | arith op dst r x =>
    rcases rise_arith hrise with ⟨hdst, rfl⟩ | ⟨n, hn, heq, rfl⟩
    · rw [Int.add_zero]
      exact Snapshot.set_scratch hdst m _
    · rw [heq]
      exact ⟨rfl, rfl⟩
  | store | compare | branch | call =>
    cases hrise
    exact ⟨(Int.add_zero _).symm, rfl⟩

theorem Acts.rise (h : Acts i m m') (hrise : i.rise? = some d) :
    m'.regs .sp = m.regs .sp + d ∧ m'.regs .fp = m.regs .fp := by
  -- a skipped move does nothing, and what a call may do is assumed
  cases h with
  | done h =>
    rw [h.regs .sp rfl, h.regs .fp rfl]
    exact Instr.onSnapshot_rise hrise m
  | skipped =>
    simp only [Instr.rise?, Option.ite_none_right_eq_some, Option.some.injEq] at hrise
    obtain ⟨-, rfl⟩ := hrise
    exact ⟨(Int.add_zero _).symm, rfl⟩
  | called hsp hfp =>
    cases hrise
    exact ⟨by rw [hsp, Int.add_zero], hfp⟩

/-- The offsets of variables are those of words below the saved ones. -/
def BelowFrame (off : Int) : Prop := off ≤ -4

variable {base : Int}

/-- An instruction that its height allows changes nothing from the saved words on. -/
theorem Acts.memory (h : Acts i m m') (hrise : i.rise? = some d) (hi : i.Allowed marks BelowFrame k)
    (hk : k ≤ -8) (hsp : m.regs .sp = base + k) (hfp : m.regs .fp = base - 8) {a : Int}
    (ha : base - 8 ≤ a) : m'.memory a = m.memory a := by
  cases h with
  | skipped => rfl
  | called _ _ h => exact h a (by omega)
  | done h =>
    rw [h.memory]
    cases i with
    | literal | load | move | mls | arith | compare | branch | call => rfl
    | push rs =>
      rw [Instr.onSnapshot, Snapshot.set_memory, Snapshot.storeAll_memory rs m (by omega)]
    | pop rs => rw [Instr.onSnapshot, Snapshot.set_memory, Snapshot.loadAll_memory]
    | store src r off =>
      -- the address is that of a variable, or lies below the saved words by its height
      have hne : a ≠ m.regs r + off := by
        cases r with
        | fp =>
          have hoff : off ≤ -4 := hi
          omega
        | sp =>
          have hoff : k + off ≤ -12 := hi
          omega
        | _ => exact hi.elim
      rw [Instr.onSnapshot, Snapshot.store_memory, if_neg hne]

/-- The instruction that saves the words of the caller. -/
theorem Acts.save (h : Acts (.push [.fp, .lr]) m m') :
    m'.regs .sp = m.regs .sp - 8 ∧ m'.memory (m.regs .sp - 8) = m.regs .fp ∧
      m'.memory (m.regs .sp - 4) = m.regs .lr := by
  cases h with
  | done h =>
    rw [h.memory]
    have hsecond : m.regs .sp - 4 * 2 + 4 = m.regs .sp - 4 := by omega
    -- the two words are stored one above the other
    refine ⟨h.regs .sp rfl, ?_, ?_⟩
    · show ((m.store (m.regs .sp - 4 * 2) _).store (m.regs .sp - 4 * 2 + 4) _).memory _ = _
      rw [hsecond, Snapshot.store_memory, if_neg (by omega), Snapshot.store_memory]
      exact if_pos (by omega)
    · show ((m.store (m.regs .sp - 4 * 2) _).store (m.regs .sp - 4 * 2 + 4) _).memory _ = _
      rw [hsecond, Snapshot.store_memory, if_pos rfl]
      rfl

/-- The instruction that sets the frame pointer. -/
theorem Acts.enter (h : Acts (.move .always .fp (.reg .sp)) m m') :
    m'.regs .sp = m.regs .sp ∧ m'.regs .fp = m.regs .sp ∧ m'.memory = m.memory := by
  cases h with
  | done h => exact ⟨h.regs .sp rfl, h.regs .fp rfl, h.memory⟩
  | skipped h => exact absurd rfl h

/-- The instruction that takes the stack back to the frame. -/
theorem Acts.release (h : Acts (.move .always .sp (.reg .fp)) m m') :
    m'.regs .sp = m.regs .fp ∧ m'.regs .fp = m.regs .fp ∧ m'.memory = m.memory := by
  cases h with
  | done h => exact ⟨h.regs .sp rfl, h.regs .fp rfl, h.memory⟩
  | skipped h => exact absurd rfl h

/-- The last instruction takes the two saved words off the stack. -/
theorem Acts.restore (h : Acts (.pop [.fp, .pc]) m m') :
    m'.regs .sp = m.regs .sp + 8 ∧ m'.regs .fp = m.memory (m.regs .sp) ∧
      m'.regs .pc = m.memory (m.regs .sp + 4) := by
  cases h with
  | done h => exact ⟨h.regs .sp rfl, h.regs .fp rfl, h.regs .pc rfl⟩

/-! ## §4 What heights say about a path -/

/-- Labels have one height each, and the code has the heights from the place on that `tail` starts
at. No label stands before that place. -/
structure Graded (marks : List (Label × Int)) (slot : Int → Prop) (code tail : List Line)
    (e : Int) : Prop where
  steady : Steady marks slot (-8) tail e
  single : ∀ l k k', (l, k) ∈ marks → (l, k') ∈ marks → k = k'
  only : ∀ l target, linesBehind l code = some target → ∃ a, tail = a ++ .label l :: target

/-- A path has the heights, measured from some base: it stands before a line that has one, between
the two lines of a return, or outside. -/
inductive Stands (marks : List (Label × Int)) (slot : Int → Prop) (e base : Int) : Point → Prop where
  | before {k : Int} {p : List Line} {m : Snapshot} (h : Steady marks slot k p e) (hk : k ≤ -8)
      (hsp : m.regs .sp = base + k) : Stands marks slot e base ⟨some p, m⟩
  | between {p : List Line} {m : Snapshot} (hsp : m.regs .sp = m.regs .fp) :
      Stands marks slot e base ⟨some (returning :: p), m⟩
  | outside {m : Snapshot} : Stands marks slot e base ⟨none, m⟩

/-- The frame is set up: the frame pointer is below the two words saved on entry. -/
structure Saved (entry m : Snapshot) : Prop where
  fp : m.regs .fp = entry.regs .sp - 8
  first : m.memory (entry.regs .sp - 8) = entry.regs .fp
  second : m.memory (entry.regs .sp - 4) = entry.regs .lr

/-- The caller has its stack back, and goes on behind the call. -/
structure Restored (entry m : Snapshot) : Prop where
  sp : m.regs .sp = entry.regs .sp
  fp : m.regs .fp = entry.regs .fp
  pc : m.regs .pc = entry.regs .lr

/-- The saved words are there as long as the function is not left, and restored once it is. -/
inductive Keeping (entry : Snapshot) : Point → Prop where
  | inside {p : List Line} {m : Snapshot} (h : Saved entry m) : Keeping entry ⟨some p, m⟩
  | outside {m : Snapshot} (h : Restored entry m) : Keeping entry ⟨none, m⟩

variable {code tail : List Line} {q q' : Point} {entry : Snapshot}

namespace Stands

/-- A label is reached at its height. -/
theorem at_label {l : Label} (h : Stands marks slot e base ⟨some (.label l :: p), m⟩) :
    ∃ k, (l, k) ∈ marks ∧ m.regs .sp = base + k := by
  cases h with
  | before h _ hsp =>
    cases h with
    | label hl => exact ⟨_, hl, hsp⟩

/-- A call finds the stack aligned. -/
theorem at_call {name : Text} (h : Stands marks slot e base ⟨some (.instr (.call name) :: p), m⟩) :
    8 ∣ base - m.regs .sp := by
  cases h with
  | before h _ hsp =>
    cases h with
    | instr _ hi =>
      have hdvd : (8 : Int) ∣ _ := hi
      omega

/-- A step keeps the saved words, or restores them. -/
theorem keeping (h : Stands marks BelowFrame e (entry.regs .sp) q) (hq : Keeping entry q)
    (hgo : Goes code q q') : Keeping entry q' := by
  -- the three places a processor can be at: the end of a return, before a line, or out
  cases hq with
  | outside => cases hgo
  | inside hsaved =>
    cases h with
    | between hsp =>
      cases hgo with
      | mark hline => exact absurd rfl (hline _)
      | instr hacts hturns =>
        obtain ⟨hsp', hfp, hpc⟩ := hacts.restore
        rw [hsp, hsaved.fp] at hsp' hfp hpc
        cases hturns with
        | next h => cases h
        | left =>
          refine .outside ⟨by omega, hfp.trans hsaved.first, hpc.trans ?_⟩
          have haddress : entry.regs .sp - 8 + 4 = entry.regs .sp - 4 := by omega
          rw [haddress, hsaved.second]
    | before h hk hsp =>
      cases h with
      | nil => cases hgo
      | label =>
        cases hgo with
        | mark => exact .inside hsaved
      | instr hrise hi =>
        cases hgo with
        | mark hline => exact absurd rfl (hline _)
        | instr hacts hturns =>
          have hmemory := fun {a : Int} => hacts.memory hrise hi hk hsp hsaved.fp (a := a)
          have hsaved' : Saved entry _ :=
            ⟨(hacts.rise hrise).2.trans hsaved.fp, (hmemory (by omega)).trans hsaved.first,
              (hmemory (by omega)).trans hsaved.second⟩
          cases hturns with
          | next | passed | taken => exact .inside hsaved'
          | left hpc => exact absurd hpc (Instr.not_mem_of_rise hrise rfl)
      | leave =>
        cases hgo with
        | mark hline => exact absurd rfl (hline _)
        | instr hacts hturns =>
          obtain ⟨-, hfp, hmemory⟩ := hacts.release
          have hsaved' : Saved entry _ :=
            ⟨hfp.trans hsaved.fp, by rw [hmemory, hsaved.first], by rw [hmemory, hsaved.second]⟩
          cases hturns with
          | next => exact .inside hsaved'

end Stands

namespace Graded

/-- A branch goes to a line of its height. -/
theorem target (hg : Graded marks slot code tail e) {l : Label} {target : List Line}
    (hl : (l, k) ∈ marks) (h : linesBehind l code = some target) :
    Steady marks slot k target e := by
  obtain ⟨a, htail⟩ := hg.only l target h
  have hsteady := hg.steady
  rw [htail] at hsteady
  rcases hsteady.split le_rfl with ⟨c, -, hc⟩ | ⟨t, ht⟩
  · cases hc with
    | label hl' hc => rwa [hg.single l k c hl hl']
  · cases ht

/-- A step along the heights. -/
theorem stands (hg : Graded marks slot code tail e) (h : Stands marks slot e base q)
    (hgo : Goes code q q') : Stands marks slot e base q' := by
  -- a branch goes to a label, which has a height of its own
  cases h with
  | outside => cases hgo
  | between =>
    cases hgo with
    | mark h => exact absurd rfl (h _)
    | instr _ hturns =>
      cases hturns with
      | next h => cases h
      | left => exact .outside
  | before h hk hsp =>
    cases h with
    | nil => cases hgo
    | label hl h =>
      cases hgo with
      | mark => exact .before h hk hsp
    | instr hrise hi h =>
      cases hgo with
      | mark hline => exact absurd rfl (hline _)
      | instr hacts hturns =>
        have hmoved := (hacts.rise hrise).1
        cases hturns with
        | next => exact .before h (hi.below hrise hk) (by omega)
        | passed =>
          cases hrise
          exact .before h (by omega) (by omega)
        | taken htarget =>
          cases hrise
          exact .before (hg.target hi htarget) hk (by omega)
        | left hpc => exact absurd hpc (Instr.not_mem_of_rise hrise rfl)
    | leave h =>
      cases hgo with
      | mark hline => exact absurd rfl (hline _)
      | instr hacts hturns =>
        obtain ⟨hsp, hfp, -⟩ := hacts.release
        cases hturns with
        | next => exact .between (hsp.trans hfp.symm)

variable {p' : List Line}

theorem stands_of_path (hg : Graded marks slot code tail e) (h : Stands marks slot e base q)
    (hpath : Path code q q') : Stands marks slot e base q' := by
  induction hpath with
  | refl => exact h
  | tail _ hgo ih => exact hg.stands ih hgo

theorem keeping_of_path (hg : Graded marks BelowFrame code tail e)
    (h : Stands marks BelowFrame e (entry.regs .sp) q) (hq : Keeping entry q)
    (hpath : Path code q q') : Keeping entry q' := by
  induction hpath with
  | refl => exact hq
  | tail hpath hgo ih => exact (hg.stands_of_path h hpath).keeping ih hgo

/-- Two places of the code with the same height, whatever the stack pointer is at the first: a path
from one to the other ends with the stack pointer where it was. -/
theorem net_zero (hg : Graded marks slot code tail e) (hk : k ≤ -8)
    (h : Steady marks slot k p e) (h' : Steady marks slot k p' e)
    (hpath : Path code ⟨some p, m⟩ ⟨some p', m'⟩) : m'.regs .sp = m.regs .sp := by
  have hstart : Stands marks slot e (m.regs .sp - k) ⟨some p, m⟩ := .before h hk (by omega)
  cases hg.stands_of_path hstart hpath with
  | before h'' _ hsp =>
    have heq := h''.unique h'
    omega
  | between => exact absurd h' Steady.not_returning

end Graded

end Assembly

end Scriptlet
