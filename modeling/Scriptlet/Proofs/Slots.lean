import Mathlib
import Scriptlet.Proofs.Discipline

/-!
# Words for variables

The frame of a function is laid out before the code of its statements is produced. Where
declarations stand only as statements, the layout then stays as it is: every variable that the code
uses had its word already, and the words lie between the frame pointer and the room that was made.
What the statements push, and the arguments that they store, lie below that room.

## Contents

- §1 declarations
- §2 layouts of functions
- §3 code in a fixed layout
- §4 words below the frame
- §5 the main result
-/

namespace Scriptlet

/-! ## §1 Declarations -/

mutual

/-- Declarations stand only where statements do: among the statements of a block, in a branch or in
the body of a loop, where these stand as statements themselves. -/
def Node.isOrderly (statement : Bool) : Node → Bool
  | .missing | .number _ _ | .string _ _ | .ident _ _ => true
  | .unary _ x _ | .giveBack x _ | .assign _ x _ | .assert x _ => x.isOrderly false
  | .binary _ x y _ => x.isOrderly false && y.isOrderly false
  | .call _ args _ => Node.allOrderly false args
  | .block stmts _ => Node.allOrderly statement stmts
  | .choice cond yes no _ =>
    cond.isOrderly false && yes.isOrderly statement && no.isOrderly statement
  | .loop cond body _ => cond.isOrderly false && body.isOrderly statement
  | .declare _ x _ => statement && x.isOrderly false
  -- a function inside has a frame of its own
  | .function _ _ _ _ _ | .prototype _ _ _ | .main _ _ => true

def Node.allOrderly (statement : Bool) : List Node → Bool
  | [] => true
  | x :: xs => x.isOrderly statement && Node.allOrderly statement xs

end

namespace Assembly

/-! ## §2 Layouts of functions -/

namespace Layout

variable {l : Layout} {u v : Text} {i j : Int}

/-- A frame has room for all its words, rounded up to its alignment. -/
theorem four_mul_locals_le (l : Layout) : 4 * l.locals ≤ l.size := by
  unfold size
  omega

/-- The words of variables start at multiples of four bytes, with room for them. -/
theorem Packed.range {words : Nat} (h : l.Packed words) (hi : l.offset? v = some i) :
    4 ∣ i ∧ -(4 * words + l.size : Int) ≤ i ∧ i ≤ -4 := by
  obtain ⟨k, hk, rfl⟩ := h.offset hi
  have hroom := l.four_mul_locals_le
  refine ⟨⟨-(k + 1), by omega⟩, by omega, by omega⟩

/-- The words of different variables do not overlap. -/
theorem Packed.apart {words : Nat} (h : l.Packed words) (huv : u ≠ v) (hi : l.offset? u = some i)
    (hj : l.offset? v = some j) : i + 4 ≤ j ∨ j + 4 ≤ i := by
  have hne : i ≠ j := by
    rintro rfl
    exact huv (h.offset_inj hi hj)
  obtain ⟨k, -, rfl⟩ := h.offset hi
  obtain ⟨k', -, rfl⟩ := h.offset hj
  omega

theorem packed_ofMain : ofMain.Packed 0 := tidy_iff_packed.mp tidy_ofMain

/-- Parameters are given different words out of four. -/
theorem packed_ofParams {params : List Text} (h : params.length ≤ maxArgs) :
    (ofParams params).Packed 4 := by
  have hspill : ∀ (ps : List Text) (n : Nat) (slots : List (Text × Int)), n + ps.length ≤ 4 →
      (∀ p ∈ slots, ∃ k : Nat, k < 4 ∧ 4 ≤ k + n ∧ p.2 = -4 * ((k : Int) + 1)) →
      (slots.map Prod.snd).Nodup →
      (∀ p ∈ spill (-16 + 4 * n) ps slots, ∃ k : Nat, k < 4 ∧ p.2 = -4 * ((k : Int) + 1)) ∧
        ((spill (-16 + 4 * n) ps slots).map Prod.snd).Nodup := by
    intro ps
    induction ps with
    | nil =>
      intro n slots _ hslots hnodup
      refine ⟨fun p hp => ?_, hnodup⟩
      obtain ⟨k, hk, -, heq⟩ := hslots p hp
      exact ⟨k, hk, heq⟩
    | cons p ps ih =>
      intro n slots hn hslots hnodup
      rw [List.length_cons] at hn
      have hoff : (-16 + 4 * (n : Int)) + 4 = -16 + 4 * ((n + 1 : Nat) : Int) := by omega
      rw [spill, hoff]
      refine ih (n + 1) _ (by omega) (List.forall_mem_cons.mpr ⟨?_, fun q hq => ?_⟩) ?_
      · exact ⟨3 - n, by omega, by omega, by simp only; omega⟩
      · obtain ⟨k, hk, hlater, heq⟩ := hslots q hq
        exact ⟨k, hk, by omega, heq⟩
      · -- the words given so far are later ones
        simp only [List.map_cons, List.nodup_cons, hnodup, and_true, List.mem_map, not_exists]
        rintro q ⟨hq, heq⟩
        obtain ⟨k, hk, hlater, heq'⟩ := hslots q hq
        omega
  obtain ⟨hbelow, hdistinct⟩ := hspill params 0 [] (by rw [Nat.zero_add]; exact h) (by simp) (by simp)
  exact ⟨by rfl, hbelow, hdistinct⟩

/-- Spilling parameters gives no slot to any other name. -/
theorem offset?_spill {ps : List Text} (h : v ∉ ps) (off : Int) (slots : List (Text × Int)) :
    (spill off ps slots).lookup v = slots.lookup v := by
  induction ps generalizing off slots with
  | nil => rfl
  | cons p ps ih =>
    rw [List.mem_cons, not_or] at h
    have hne : (v == p) = false := by simpa using h.1
    rw [spill, ih h.2, List.lookup_cons, hne]

/-- Locals lie below the words for parameters. -/
structure Apart (words : Nat) (params : List Text) (l : Layout) : Prop where
  packed : l.Packed words
  below : ∀ v off, v ∉ params → l.offset? v = some off → off + 4 ≤ -(4 * words : Int)

/-- Slots and parameters stay apart when a name is declared. -/
theorem Apart.declare {words : Nat} {params : List Text} (h : l.Apart words params) (name : Text) :
    (l.declare name).2.Apart words params := by
  refine ⟨h.packed.declare name, fun v off hv hoff => ?_⟩
  -- a new name lies below all words that have been given out
  cases hname : l.offset? name with
  | some off =>
    rw [declare_of_some hname] at hoff
    exact h.below v _ hv hoff
  | none =>
    rw [declare_of_none hname, offset?, List.lookup_cons] at hoff
    split at hoff
    · have hnext := h.packed.next_eq
      cases hoff
      omega
    · exact h.below v off hv hoff

end Layout

/-- The number of words for parameters. -/
def wordsOf (x : Node) : Nat := if spills x then 4 else 0

/-- The parameters that are spilled take a word each. -/
theorem spilled_eq (x : Node) : spilled x = 4 * wordsOf x := by
  unfold spilled wordsOf
  split <;> rfl

/-- The layout of a function keeps its slots apart, with as many parameters as registers. -/
theorem apart_layoutOf {x : Node} (h : (paramsOf x).length ≤ maxArgs) :
    (layoutOf x).Apart (wordsOf x) (paramsOf x) := by
  unfold layoutOf wordsOf
  refine Layout.reserveAll_of_declare (fun _ name h => h.declare name) ?_ _
  split
  · refine ⟨Layout.packed_ofParams h, fun v off hv hoff => ?_⟩
    rw [Layout.offset?, Layout.ofParams, Layout.offset?_spill hv] at hoff
    cases hoff
  · exact ⟨Layout.packed_ofMain, fun v off hv hoff => by cases hoff⟩

/-! ## §3 Code in a fixed layout -/

/-- The offset from the frame pointer that a line uses, if it uses one. -/
def Line.frameOffset? : Line → Option Int
  | .instr (.load _ .fp off) | .instr (.store _ .fp off) => some off
  | _ => none

/-- The offsets from the frame pointer that code uses. -/
def frameOffsets (code : List Line) : List Int := code.filterMap Line.frameOffset?

/-- The offsets in code, one part behind the other. -/
@[simp] theorem frameOffsets_append (a b : List Line) :
    frameOffsets (a ++ b) = frameOffsets a ++ frameOffsets b :=
  List.filterMap_append

section Fixed

variable {α β : Type} {l : Layout} {loc : Location}

/-- The production leaves the layout as it is, and its code uses words of variables only. -/
def Fixes (l : Layout) (m : Emit α) : Prop :=
  ∀ n code a c, m.Gives ⟨n, some l⟩ code a c →
    c.layout = some l ∧ ∀ off ∈ frameOffsets code, ∃ v, l.offset? v = some off

namespace Fixes

variable {m : Emit α} {f : α → Emit β} {x y z : Node}

theorem constant (a : α) : Fixes l (Emit.constant a) := by
  intro n code b c h
  obtain ⟨rfl, -, rfl⟩ := Emit.gives_constant.mp h
  exact ⟨rfl, List.forall_mem_nil _⟩

theorem refuse (fault : EmitFault) : Fixes l (Emit.refuse fault loc : Emit α) :=
  fun _ _ _ _ h => (Emit.gives_refuse.mp h).elim

/-- Lines are fixed when their offsets are those of names. -/
theorem lines {ls : List Line} (h : ∀ off ∈ frameOffsets ls, ∃ v, l.offset? v = some off) :
    Fixes l (Emit.lines ls) := by
  intro n code a c hm
  obtain ⟨rfl, rfl⟩ := Emit.gives_lines.mp hm
  exact ⟨rfl, h⟩

/-- Lines that do not use the frame. -/
theorem elsewhere {ls : List Line} (h : frameOffsets ls = []) : Fixes l (Emit.lines ls) :=
  lines (by rw [h]; exact List.forall_mem_nil _)

/-- The instruction uses the word of a variable. -/
theorem slot {v : Text} {off : Int} {i : Instr} (hv : l.offset? v = some off)
    (hi : (Line.instr i).frameOffset? = some off) : Fixes l (Emit.instrs [i]) := by
  refine lines fun off' hoff => ⟨v, ?_⟩
  rw [frameOffsets, List.map_singleton, List.filterMap_cons_some hi, List.filterMap_nil,
    List.mem_singleton] at hoff
  rw [hoff, hv]

theorem label (stem : Text) : Fixes l (Emit.label stem) := by
  intro n code a c hm
  obtain ⟨rfl, -, rfl⟩ := Emit.gives_label.mp hm
  exact ⟨rfl, List.forall_mem_nil _⟩

/-- Productions with fixed offsets have them one behind the other. -/
theorem bind (hm : Fixes l m) (hf : ∀ a, Fixes l (f a)) : Fixes l (m >>= f) := by
  intro n code b c h
  obtain ⟨code₁, a, ⟨n₁, layout⟩, ha, code₂, hb, rfl⟩ := Emit.gives_bind.mp h
  obtain ⟨rfl, hoffsets⟩ := hm n code₁ a _ ha
  obtain ⟨hlayout, hoffsets'⟩ := hf a n₁ code₂ b c hb
  refine ⟨hlayout, ?_⟩
  rw [frameOffsets_append, List.forall_mem_append]
  exact ⟨hoffsets, hoffsets'⟩

theorem seq {m : Emit Unit} {m' : Emit β} (hm : Fixes l m) (hm' : Fixes l m') :
    Fixes l (m >>= fun _ => m') :=
  hm.bind fun _ => hm'

theorem layout {f : Option Layout → Emit β} (h : Fixes l (f (some l))) :
    Fixes l (Emit.layout >>= f) :=
  fun n code b c hm => h n code b c (Emit.gives_layout_bind.mp hm)

/-- The offset of a name is fixed. -/
theorem offset {v : Text} {f : Int → Emit β} (h : ∀ off, l.offset? v = some off → Fixes l (f off)) :
    Fixes l (Emit.offsetOf v loc >>= f) := by
  intro n code b c hm
  obtain ⟨_, off, _, hoff, code, hf, rfl⟩ := Emit.gives_bind.mp hm
  obtain ⟨rfl, hv, rfl⟩ := Emit.gives_offsetOf hoff
  exact h off hv n code b c hf

/-- Numbers have no offset. -/
theorem number (v : Float) : Fixes l (Emit.number v loc) := by
  unfold Emit.number
  split
  next =>
    split
    · exact elsewhere rfl
    · exact refuse _
  next => exact refuse _

theorem unary (op : UnaryOp) : Fixes l (Emit.unary op loc) := by
  cases op with
  | unknown => exact refuse _
  | _ => exact elsewhere rfl

theorem operator (op : BinaryOp) : Fixes l (Emit.binary op loc) := by
  cases op with
  | power | and | or | unknown => exact refuse _
  | _ => exact elsewhere rfl

/-- Operators have the offsets of their operands, whichever of their forms they have. -/
theorem binary (op : BinaryOp) (hx : Fixes l (emit x)) (hy : Fixes l (emit y)) :
    Fixes l (emit (.binary op x y loc)) := by
  cases hop : logical? op with
  | some p =>
    -- no line of these stores by the frame pointer but those of the operands
    rw [emit_logical hop]
    exact (label _).bind fun _ => (label _).bind fun _ => hx.seq ((elsewhere rfl).seq (hy.seq
      ((elsewhere rfl).seq ((elsewhere rfl).seq (elsewhere rfl)))))
  | none =>
    by_cases hpower : op = .power
    · subst hpower
      rw [emit]
      exact refuse _
    · rw [emit_operands hop hpower]
      exact hx.seq ((elsewhere rfl).seq (hy.seq ((elsewhere rfl).seq (operator op))))

/-- A choice has the offsets of its parts. -/
theorem choice (hx : Fixes l (emit x)) (hy : Fixes l (emit y)) (hz : Fixes l (emit z)) :
    Fixes l (emit (.choice x y z loc)) := by
  rw [emit]
  exact (label _).bind fun _ => (label _).bind fun _ => hx.seq ((elsewhere rfl).seq (hy.seq
    ((elsewhere rfl).seq ((elsewhere rfl).seq (hz.seq (elsewhere rfl))))))

/-- A loop has the offsets of its parts. -/
theorem loop (hx : Fixes l (emit x)) (hy : Fixes l (emit y)) : Fixes l (emit (.loop x y loc)) := by
  rw [emit]
  exact (label _).bind fun _ => (label _).bind fun _ => (elsewhere rfl).seq (hx.seq
    ((elsewhere rfl).seq (hy.seq ((elsewhere rfl).seq (elsewhere rfl)))))

theorem giveBack (hx : Fixes l (emit x)) : Fixes l (emit (.giveBack x loc)) := by
  rw [emit]
  refine layout ?_
  simp only
  split
  · exact (elsewhere rfl).seq (elsewhere rfl)
  · exact hx.seq (elsewhere rfl)

/-- A name that has its word already is given no other. -/
theorem declare {name : Text} (hname : (l.offset? name).isSome) (hx : Fixes l (emit x)) :
    Fixes l (emit (.declare name x loc)) := by
  obtain ⟨off, hoff⟩ := Option.isSome_iff_exists.mp hname
  rw [emit]
  refine layout (hx.seq (layout ?_))
  simp only [Layout.declare_of_some hoff]
  intro n code a c hm
  exact slot hoff rfl n code a c (Emit.gives_setLayout_bind.mp hm)

/-- An assignment stores at the offset of its name. -/
theorem assign (name : Text) (hx : Fixes l (emit x)) : Fixes l (emit (.assign name x loc)) := by
  rw [emit]
  exact offset fun off hoff => hx.seq (slot hoff rfl)

/-- A call has the offsets of its arguments. -/
theorem call (callee : Text) {args : List Node} (h : Fixes l (emitArgs 0 args)) :
    Fixes l (emit (.call callee args loc)) := by
  cases args with
  | nil =>
    rw [emit]
    exact elsewhere rfl
  | cons x xs =>
    rw [emit]
    split
    · exact refuse _
    · exact (elsewhere rfl).seq (h.seq (elsewhere rfl))

end Fixes

mutual

/-- **The code of orderly nodes leaves the layout as it is**, if it has the names that they
declare. -/
theorem fixes_emit {statement : Bool} : ∀ {x : Node}, x.isOrderly statement = true →
    (statement = true → ∀ name ∈ declared x, (l.offset? name).isSome) → Fixes l (emit x)
  | .missing, _, _ => by
    rw [emit]
    exact .constant ()
  | .number v _, _, _ => by
    rw [emit]
    exact .number v
  | .string t _, _, _ => by
    rw [emit]
    exact .refuse _
  | .ident name _, _, _ => by
    rw [emit]
    exact .offset fun off hoff => .slot hoff rfl
  | .unary op x _, h, _ => by
    rw [emit]
    exact (fixes_emit (x := x) h nofun).seq (.unary op)
  | .binary op x y _, h, _ => by
    rw [Node.isOrderly, Bool.and_eq_true] at h
    exact .binary op (fixes_emit h.1 nofun) (fixes_emit h.2 nofun)
  | .call callee args _, h, _ => by
    rw [Node.isOrderly] at h
    exact .call callee (fixes_emitArgs h 0)
  | .giveBack x _, h, _ => .giveBack (fixes_emit (x := x) h nofun)
  | .block stmts _, h, hnames => by
    rw [emit]
    exact fixes_emitAll h hnames
  | .choice x y z _, h, hnames => by
    simp only [Node.isOrderly, Bool.and_eq_true] at h
    exact .choice (fixes_emit h.1.1 nofun)
      (fixes_emit h.1.2 fun hs name hmem => hnames hs name (List.mem_append_left _ hmem))
      (fixes_emit h.2 fun hs name hmem => hnames hs name (List.mem_append_right _ hmem))
  | .loop x y _, h, hnames => by
    rw [Node.isOrderly, Bool.and_eq_true] at h
    exact .loop (fixes_emit h.1 nofun) (fixes_emit h.2 hnames)
  | .declare name x _, h, hnames => by
    rw [Node.isOrderly, Bool.and_eq_true] at h
    exact .declare (hnames h.1 name (List.mem_singleton_self name)) (fixes_emit h.2 nofun)
  | .assign name x _, h, _ => .assign name (fixes_emit (x := x) h nofun)
  | .assert x _, h, _ => by
    rw [emit]
    exact (fixes_emit (x := x) h nofun).seq (.elsewhere rfl)
  | .function _ _ _ _ _, _, _ | .prototype _ _ _, _, _ | .main _ _, _, _ => by
    -- functions do not stand in functions
    rw [emit]
    exact .layout (.refuse _)

/-- The offsets of statements are fixed by the layout that the names have been reserved in. -/
theorem fixes_emitAll {statement : Bool} : ∀ {xs : List Node},
    Node.allOrderly statement xs = true →
    (statement = true → ∀ name ∈ declaredAll xs, (l.offset? name).isSome) → Fixes l (emitAll xs)
  | [], _, _ => by
    rw [emitAll]
    exact .constant ()
  | x :: xs, h, hnames => by
    rw [Node.allOrderly, Bool.and_eq_true] at h
    rw [emitAll]
    exact (fixes_emit h.1 fun hs name hmem => hnames hs name (List.mem_append_left _ hmem)).seq
      (fixes_emitAll h.2 fun hs name hmem => hnames hs name (List.mem_append_right _ hmem))

/-- The offsets of arguments are fixed, and each is stored away in its turn. -/
theorem fixes_emitArgs : ∀ {xs : List Node}, Node.allOrderly false xs = true →
    ∀ i : Nat, Fixes l (emitArgs i xs)
  | [], _, _ => by
    rw [emitArgs]
    exact .constant ()
  | x :: xs, h, i => by
    rw [Node.allOrderly, Bool.and_eq_true] at h
    rw [emitArgs]
    exact (fixes_emit h.1 nofun).seq ((Fixes.elsewhere rfl).seq (fixes_emitArgs h.2 (i + 1)))

end

end Fixed

/-- The code of the statements of a function leaves its layout as it is. -/
theorem fixes_bodyOf {x : Node} (h : Node.allOrderly true (bodyOf x) = true) :
    Fixes (layoutOf x) (emitAll (bodyOf x)) :=
  fixes_emitAll h fun _ name hname => (Layout.offset?_reserveAll _ name _).mpr (.inr hname)

/-- The lines around the statements use no words of the frame. -/
theorem frameOffsets_function (name : Text) (x : Node) (body : List Line) :
    frameOffsets (entering name ++ framed x body) = frameOffsets body := by
  have hreserving : frameOffsets ((reserving (spills x) (layoutOf x).size).map .instr) = [] := by
    unfold reserving
    split <;> split <;> rfl
  have hentering : frameOffsets (entering name) = [] := rfl
  have hepilogue : frameOffsets epilogue = [] := rfl
  simp [framed, hreserving, hentering, hepilogue]

/-! ## §4 Words below the frame -/

/-- Where the highest word ends that an instruction writes by the stack pointer, measured from
it. -/
def Instr.reach? : Instr → Option Int
  | .push _ => some 0
  | .store _ .sp off => some (off + 4)
  | _ => none

/-- The statements of a function write below its frame whatever they write by the stack pointer. -/
theorem writes_below {x : Node} {n : Nat} {c : Context} {name : Text} {before rest : List Line}
    {i : Instr} {top : Int} {e m : Snapshot} (hparams : (paramsOf x).length ≤ maxArgs)
    (hbody : (emitAll (bodyOf x)).Gives ⟨n, some (layoutOf x)⟩ (before ++ .instr i :: rest) () c)
    (htop : i.reach? = some top)
    (hpath : Path (entering name ++ framed x (before ++ .instr i :: rest))
      ⟨some (entering name ++ framed x (before ++ .instr i :: rest)), e⟩
      ⟨some (.instr i :: (rest ++ epilogue)), m⟩) :
    m.regs .fp = e.regs .sp - 8 ∧
      m.regs .sp + top ≤ m.regs .fp - (spilled x + (layoutOf x).size : Nat) := by
  -- heights of the statements alone: they never get above the one they start at
  have hstmts : Tames BelowFrame (-8) (emitAll (bodyOf x)) := .statements (tames_emitAll _ _)
  have htame := hstmts _ _ _ c (within_layoutOf hparams) hbody
  obtain ⟨marks', -, halone⟩ := htame.levels (-8) le_rfl (by decide)
  obtain ⟨k', hk', hpart⟩ : ∃ k' ≤ -8, Steady marks' BelowFrame k' (.instr i :: rest) (-8) := by
    rcases halone.split le_rfl with h | ⟨t, ht⟩
    · exact h
    · cases ht
      cases htop
  obtain ⟨marks, hg⟩ := graded_of_body name hparams hbody
  rcases path_of_entering hpath with ⟨line, p, heq, hmem⟩ | ⟨m₁, hsaved, hsp, hpath⟩
  · cases heq
    exact absurd hpart (Steady.not_entering hmem)
  have hstart : Stands marks BelowFrame (floorOf x) (e.regs .sp) ⟨some _, m₁⟩ :=
    .before hg.steady le_rfl (by omega)
  cases hg.keeping_of_path hstart (.inside hsaved) hpath with
  | inside hkept =>
    -- the frame is still set up, so what counts is the height of the line
    refine ⟨hkept.fp, ?_⟩
    cases hg.stands_of_path hstart hpath with
    | between => cases htop
    | @before k _ _ h _ hstands =>
      -- behind the statements both heights are known
      have hend := (hpart.behind h).unique steady_epilogue
      have hfloor : floorOf x = -8 - (spilled x + (layoutOf x).size : Nat) := rfl
      have hfp := hkept.fp
      cases i with
      | push rs =>
        cases htop
        omega
      | store src base off =>
        cases base with
        | sp =>
          cases htop
          have hoff : k' + off ≤ -12 := (hpart.of_instr rfl).1
          omega
        | _ => cases htop
      | _ => cases htop

/-! ## §5 The main result -/

/-- **Frame layout.** In the code of a function, a function head or the entry point whose
declarations stand only as statements:

* the layout with the parameters and what the statements declare is the one before and behind the
  code of the statements, which follows the line that makes room;
* all offsets from the frame pointer are those of variables of the layout, and of words in the room
  that was made for parameters and locals;
* the words of different variables do not overlap, and those of variables that are no parameters
  lie below the words for parameters;
* wherever a path from the beginning reaches an instruction of the statements that writes by the
  stack pointer, the words that it writes lie below the room. -/
theorem frame_layout_sound (x : Node) (c c' : Context) (code : List Line)
    (hx : opensFrame x = true) (horderly : Node.allOrderly true (bodyOf x) = true)
    (hemit : emit x c = ⟨code, .ok ((), c')⟩) :
    ∃ name body n,
      code = entering name ++ framed x body ∧
      emitAll (bodyOf x) ⟨c.labels, some (layoutOf x)⟩ =
        ⟨body, .ok ((), ⟨n, some (layoutOf x)⟩)⟩ ∧
      (∀ off ∈ frameOffsets code, (∃ v, (layoutOf x).offset? v = some off) ∧ 4 ∣ off ∧
        -(spilled x + (layoutOf x).size : Int) ≤ off ∧ off ≤ -4) ∧
      (∀ u v i j, u ≠ v → (layoutOf x).offset? u = some i → (layoutOf x).offset? v = some j →
        i + 4 ≤ j ∨ j + 4 ≤ i) ∧
      (∀ v off, v ∉ paramsOf x → (layoutOf x).offset? v = some off →
        off + 4 ≤ -(spilled x : Int)) ∧
      ∀ before i rest top e m, body = before ++ .instr i :: rest → i.reach? = some top →
        Path code ⟨some code, e⟩ ⟨some (.instr i :: (rest ++ epilogue)), m⟩ →
        m.regs .fp = e.regs .sp - 8 ∧
          m.regs .sp + top ≤ m.regs .fp - (spilled x + (layoutOf x).size : Nat) := by
  obtain ⟨name, body, ⟨n, layout⟩, hparams, hbody, rfl⟩ := gives_function hx hemit
  obtain ⟨hlayout, hoffsets⟩ := fixes_bodyOf horderly _ _ _ _ hbody
  -- the layout does not change within the statements, so one layout explains all offsets
  simp only at hlayout
  subst hlayout
  have hapart := apart_layoutOf hparams
  have hspilled := spilled_eq x
  refine ⟨name, body, n, rfl, hbody, fun off hoff => ?_, fun u v i j => hapart.packed.apart,
    fun v off hv hoff => ?_, fun before i rest top e m hbefore htop hpath => ?_⟩
  · rw [frameOffsets_function] at hoff
    obtain ⟨v, hv⟩ := hoffsets off hoff
    obtain ⟨hdvd, hlow, hhigh⟩ := hapart.packed.range hv
    exact ⟨⟨v, hv⟩, hdvd, by omega, hhigh⟩
  · have hbelow := hapart.below v off hv hoff
    omega
  · subst hbefore
    exact writes_below hparams hbody htop hpath

/-- A function with locals in a loop and in a branch, and one that is called like a parameter. -/
def summing : Node :=
  .function "f" ["a", "b"] [
    .declare "s" (.binary .add (.ident "a" .nowhere) (.ident "b" .nowhere) .nowhere) .nowhere,
    .loop (.ident "s" .nowhere) (.block [
      .declare "a" (.ident "s" .nowhere) .nowhere,
      .choice (.ident "a" .nowhere)
        (.declare "t" (.ident "b" .nowhere) .nowhere) .missing .nowhere,
      .assign "s" (.ident "t" .nowhere) .nowhere] .nowhere) .nowhere] .nowhere .nowhere

/-- What the function is doing when it first pushes an operand. -/
def summingRest : List Line := ((emit summing .top).code).drop 8

theorem frame_layout_sound_summing :
    let code := (emit summing .top).code
    (frameOffsets code).length = 11 ∧ (∀ off ∈ frameOffsets code, 4 ∣ off ∧ -24 ≤ off ∧ off ≤ -4) ∧
    ∃ m, Path code ⟨some code, caller⟩ ⟨some (.instr (.push [.r0, .ip]) :: summingRest), m⟩ ∧
      m.regs .fp = 88 ∧ m.regs .sp ≤ 64 := by
  intro code
  obtain ⟨_, body, n, -, hbody, hoffsets, -, -, hbelow⟩ :=
    frame_layout_sound summing .top ⟨4, none⟩ code rfl rfl rfl
  obtain rfl : (emitAll (bodyOf summing) ⟨0, some (layoutOf summing)⟩).code = body :=
    congrArg Emission.code hbody
  have hname : Path code ⟨some code, caller⟩ ⟨some (code.drop 2), caller⟩ :=
    .head (.mark (by simp)) (.single (.mark (by simp)))
  have hopening : Path code ⟨some (code.drop 2), caller⟩
      ⟨some (.instr (.push [.r0, .ip]) :: summingRest), _⟩ :=
    path_straight
      [.push [.fp, .lr], .move .always .fp (.reg .sp), .push [.r0, .r1, .r2, .r3],
        .arith .sub .sp .sp (.imm 8), .load .r0 .fp (-16)] caller rfl
  have hpath := hname.trans hopening
  -- the statements begin with the sum, whose left operand is pushed
  obtain ⟨hfp, hsp⟩ := hbelow [.instr (.load .r0 .fp (-16))] (.push [.r0, .ip]) _ 0 caller _ rfl rfl
    hpath
  have hentry : caller.regs .sp - 8 = 88 := rfl
  have hroom : spilled summing + (layoutOf summing).size = 24 := rfl
  rw [hentry] at hfp
  rw [hfp, hroom] at hsp
  exact ⟨rfl, fun off hoff => (hoffsets off hoff).2, _, hpath, hfp, by omega⟩

end Assembly

end Scriptlet
