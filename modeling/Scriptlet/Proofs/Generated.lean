import Scriptlet.Proofs.Reference

/-!
# The shape of generated code

The code of a program without calls is described node by node: the code of the parts, what is put
between them, and the two labels that a node takes before its parts take theirs. The layout of the
frame stays the same throughout, since room for every variable has been made before.

From the shape follows that no label is placed twice.

## Contents

- §1 layouts
- §2 what a production gives
- §3 the shape of code
- §4 code has the shape
- §5 labels
-/

namespace Scriptlet

namespace Assembly

/-! ## §1 Layouts -/

mutual

/-- The names that a statement declares. -/
def declared : Node → List Text
  | .declare name _ _ => [name]
  | .block stmts _ => declaredAll stmts
  | .choice _ yes no _ => declared yes ++ declared no
  | .loop _ body _ => declared body
  | _ => []

def declaredAll : List Node → List Text
  | [] => []
  | x :: xs => declared x ++ declaredAll xs

end

namespace Layout

variable {l : Layout}

/-- The offsets are those of the words below the frame pointer, each given to one name. -/
structure Tidy (l : Layout) : Prop where
  next_eq : l.next = -4 * (l.locals + 1)
  below : ∀ p ∈ l.slots, ∃ k < l.locals, p.2 = -4 * ((k : Int) + 1)
  distinct : (l.slots.map Prod.snd).Nodup

/-- The same with some words for parameters before those for locals. -/
structure Packed (words : Nat) (l : Layout) : Prop where
  next_eq : l.next = -4 * ((words + l.locals : Nat) + 1)
  below : ∀ p ∈ l.slots, ∃ k < words + l.locals, p.2 = -4 * ((k : Int) + 1)
  distinct : (l.slots.map Prod.snd).Nodup

/-- Tidiness is packing behind no words that are spilled. -/
theorem tidy_iff_packed : l.Tidy ↔ l.Packed 0 := by
  constructor
  · exact fun ⟨hnext, hbelow, hdistinct⟩ => ⟨by simpa using hnext, by simpa using hbelow, hdistinct⟩
  · exact fun ⟨hnext, hbelow, hdistinct⟩ => ⟨by simpa using hnext, by simpa using hbelow, hdistinct⟩

theorem tidy_ofMain : ofMain.Tidy := ⟨by decide, by simp [ofMain], by simp [ofMain]⟩

/-- A name that has its slot keeps it, and the layout stays as it is. -/
theorem declare_of_some {name : Text} {off : Int} (h : l.offset? name = some off) :
    l.declare name = (off, l) := by
  simp [declare, h]

/-- A new name gets the next slot, one word below the ones before. -/
theorem declare_of_none {name : Text} (h : l.offset? name = none) :
    l.declare name = (l.next, ⟨(name, l.next) :: l.slots, l.next - 4, l.locals + 1⟩) := by
  simp [declare, h]

/-- Slots stay packed when a name is declared. -/
theorem Packed.declare {words : Nat} (h : l.Packed words) (name : Text) :
    (l.declare name).2.Packed words := by
  cases hname : l.offset? name with
  | some off => rwa [declare_of_some hname]
  | none =>
    have hnext := h.next_eq
    -- the new offset is the next free word, below those of all the names before
    rw [declare_of_none hname]
    refine ⟨by simp only; omega, List.forall_mem_cons.mpr ⟨⟨words + l.locals, by simp, hnext⟩, ?_⟩, ?_⟩
    · intro p hp
      obtain ⟨k, hk, heq⟩ := h.below p hp
      exact ⟨k, Nat.lt_succ_of_lt hk, heq⟩
    · simp only [List.map_cons, List.nodup_cons, h.distinct, and_true, List.mem_map, not_exists]
      rintro p ⟨hp, hoff⟩
      obtain ⟨k, hk, heq⟩ := h.below p hp
      omega

mutual

/-- Reserving words keeps what declaring a name keeps. -/
theorem reserve_of_declare {P : Layout → Prop} (hP : ∀ l name, P l → P (l.declare name).2)
    {l : Layout} (h : P l) : ∀ x : Node, P (l.reserve x)
  | .declare name _ _ => hP l name h
  | .block stmts _ => reserveAll_of_declare hP h stmts
  | .choice _ yes no _ => reserve_of_declare hP (reserve_of_declare hP h yes) no
  | .loop _ body _ => reserve_of_declare hP h body
  | .missing | .number _ _ | .string _ _ | .ident _ _ | .unary _ _ _ | .binary _ _ _ _
  | .call _ _ _ | .giveBack _ _ | .assign _ _ _ | .function _ _ _ _ _ | .prototype _ _ _
  | .main _ _ | .assert _ _ => h

/-- What declaring one name preserves, reserving for a list of statements preserves. -/
theorem reserveAll_of_declare {P : Layout → Prop} (hP : ∀ l name, P l → P (l.declare name).2)
    {l : Layout} (h : P l) : ∀ xs : List Node, P (l.reserveAll xs)
  | [] => h
  | x :: xs => reserveAll_of_declare hP (reserve_of_declare hP h x) xs

end

theorem Packed.reserveAll {words : Nat} (h : l.Packed words) (xs : List Node) :
    (l.reserveAll xs).Packed words :=
  reserveAll_of_declare (fun _ name h => h.declare name) h xs

theorem Tidy.reserveAll (h : l.Tidy) (xs : List Node) : (l.reserveAll xs).Tidy :=
  tidy_iff_packed.mpr ((tidy_iff_packed.mp h).reserveAll xs)

/-- The names with a slot after a declaration: those before, and the name itself. -/
theorem offset?_declare (name name' : Text) :
    ((l.declare name).2.offset? name').isSome ↔ (l.offset? name').isSome ∨ name' = name := by
  unfold Layout.declare
  split
  next off h =>
    constructor
    · exact Or.inl
    · rintro (hsome | rfl)
      · exact hsome
      · simp [h]
  next h =>
    simp only [offset?, List.lookup_cons]
    by_cases heq : name' = name
    · simp [heq]
    · have hbeq : (name' == name) = false := by simp [heq]
      simp [hbeq, heq]

mutual

/-- Reserving for a node gives slots to the names that it declares, and to no others. -/
theorem offset?_reserve (l : Layout) (name : Text) : ∀ x : Node,
    ((l.reserve x).offset? name).isSome ↔ (l.offset? name).isSome ∨ name ∈ declared x
  -- names are declared by declarations, and by the statements that hold them
  | .declare name' _ _ => by
    rw [Layout.reserve, offset?_declare]
    simp [declared]
  | .block stmts _ => offset?_reserveAll l name stmts
  | .choice _ yes no _ => by
    rw [Layout.reserve, offset?_reserve _ name no, offset?_reserve l name yes]
    simp [declared, or_assoc]
  | .loop _ body _ => offset?_reserve l name body
  | .missing | .number _ _ | .string _ _ | .ident _ _ | .unary _ _ _ | .binary _ _ _ _
  | .call _ _ _ | .giveBack _ _ | .assign _ _ _ | .function _ _ _ _ _ | .prototype _ _ _
  | .main _ _ | .assert _ _ => by simp [Layout.reserve, declared]

theorem offset?_reserveAll (l : Layout) (name : Text) : ∀ xs : List Node,
    ((l.reserveAll xs).offset? name).isSome ↔ (l.offset? name).isSome ∨ name ∈ declaredAll xs
  | [] => by simp [Layout.reserveAll, declaredAll]
  | x :: xs => by
    rw [Layout.reserveAll, offset?_reserveAll _ name xs, offset?_reserve l name x]
    simp [declaredAll, or_assoc]

end

end Layout

/-! ## §2 What a production gives -/

namespace Emit

variable {α β : Type}

/-- The production succeeds with this code and result, in the context after it. -/
def Gives (m : Emit α) (c : Context) (code : List Line) (a : α) (c' : Context) : Prop :=
  m c = ⟨code, .ok (a, c')⟩

variable {c c' : Context} {code : List Line}

/-- The code of a sequence is that of its two parts, one behind the other. -/
theorem gives_bind {m : Emit α} {f : α → Emit β} {b : β} :
    (m >>= f).Gives c code b c' ↔
      ∃ code₁ a c₁, m.Gives c code₁ a c₁ ∧
        ∃ code₂, (f a).Gives c₁ code₂ b c' ∧ code = code₁ ++ code₂ := by
  change bind m f c = _ ↔ _
  unfold bind Gives
  constructor
  · intro h
    rcases hm : m c with ⟨code₁, _ | ⟨a, c₁⟩⟩
    -- a step that is refused gives nothing to go on with
    · simp [hm] at h
    · simp only [hm, Emission.mk.injEq] at h
      exact ⟨code₁, a, c₁, rfl, (f a c₁).code, by rw [← h.2], h.1.symm⟩
  · rintro ⟨code₁, a, c₁, hm, code₂, hf, rfl⟩
    simp [hm, hf]

@[simp] theorem gives_constant {a b : α} :
    (constant a).Gives c code b c' ↔ code = [] ∧ b = a ∧ c' = c := by
  simp [Gives, constant, eq_comm]

/-- A value that is ready gives no code. -/
@[simp] theorem gives_pure {a b : α} :
    (pure a : Emit α).Gives c code b c' ↔ code = [] ∧ b = a ∧ c' = c :=
  gives_constant

/-- A refusal gives nothing at all. -/
@[simp] theorem gives_refuse {fault : EmitFault} {loc : Location} {a : α} :
    (refuse fault loc : Emit α).Gives c code a c' ↔ False := by
  simp [Gives, refuse]

@[simp] theorem gives_lines {ls : List Line} {u : Unit} :
    (lines ls).Gives c code u c' ↔ code = ls ∧ c' = c := by
  simp [Gives, lines, eq_comm]

@[simp] theorem gives_instrs {is : List Instr} {u : Unit} :
    (instrs is).Gives c code u c' ↔ code = is.map .instr ∧ c' = c :=
  gives_lines

/-- A fresh label takes the next number and no code. -/
@[simp] theorem gives_label {stem : Text} {l : Label} :
    (label stem).Gives c code l c' ↔
      code = [] ∧ l = ⟨stem, c.labels + 1⟩ ∧ c' = { c with labels := c.labels + 1 } := by
  simp [Gives, label, eq_comm]

@[simp] theorem gives_layout {l : Option Layout} :
    layout.Gives c code l c' ↔ code = [] ∧ l = c.layout ∧ c' = c := by
  simp [Gives, layout, eq_comm]

@[simp] theorem gives_setLayout {l : Option Layout} {u : Unit} :
    (setLayout l).Gives c code u c' ↔ code = [] ∧ c' = { c with layout := l } := by
  simp [Gives, setLayout, eq_comm]

/-- The form of `gives_bind` in which the first part gives no value. -/
theorem gives_seq {m : Emit Unit} {f : Unit → Emit β} {b : β} :
    (m >>= f).Gives c code b c' ↔
      ∃ code₁ c₁, m.Gives c code₁ () c₁ ∧
        ∃ code₂, (f ()).Gives c₁ code₂ b c' ∧ code = code₁ ++ code₂ := by
  rw [gives_bind]
  constructor
  · rintro ⟨code₁, ⟨⟩, h⟩
    exact ⟨code₁, h⟩
  · rintro ⟨code₁, h⟩
    exact ⟨code₁, (), h⟩

-- one lemma for each production that is followed by others: the existentials of the general one
-- would pile up

theorem gives_emit_bind {x : Node} {f : Unit → Emit β} {b : β} :
    (emit x >>= f).Gives c code b c' ↔
      ∃ code₁ c₁, (emit x).Gives c code₁ () c₁ ∧
        ∃ code₂, (f ()).Gives c₁ code₂ b c' ∧ code = code₁ ++ code₂ :=
  gives_seq

theorem gives_lines_bind {ls : List Line} {f : Unit → Emit β} {b : β} :
    (lines ls >>= f).Gives c code b c' ↔
      ∃ code₂, (f ()).Gives c code₂ b c' ∧ code = ls ++ code₂ := by
  simp [gives_seq, and_assoc]

theorem gives_instrs_bind {is : List Instr} {f : Unit → Emit β} {b : β} :
    (instrs is >>= f).Gives c code b c' ↔
      ∃ code₂, (f ()).Gives c code₂ b c' ∧ code = is.map .instr ++ code₂ :=
  gives_lines_bind

theorem gives_label_bind {stem : Text} {f : Label → Emit β} {b : β} :
    (label stem >>= f).Gives c code b c' ↔
      (f ⟨stem, c.labels + 1⟩).Gives { c with labels := c.labels + 1 } code b c' := by
  simp [gives_bind, and_assoc]

theorem gives_layout_bind {f : Option Layout → Emit β} {b : β} :
    (layout >>= f).Gives c code b c' ↔ (f c.layout).Gives c code b c' := by
  simp [gives_bind, and_assoc]

theorem gives_setLayout_bind {l : Option Layout} {f : Unit → Emit β} {b : β} :
    (setLayout l >>= f).Gives c code b c' ↔ (f ()).Gives { c with layout := l } code b c' := by
  simp [gives_seq, and_assoc]

/-- The offset that is found is that of the layout, and costs no code. -/
theorem gives_offsetOf {name : Text} {loc : Location} {n : Nat} {l : Layout} {off : Int}
    (h : (offsetOf name loc).Gives ⟨n, some l⟩ code off c') :
    code = [] ∧ l.offset? name = some off ∧ c' = ⟨n, some l⟩ := by
  unfold offsetOf at h
  obtain ⟨_, _, _, hlayout, _, hrest, rfl⟩ := gives_bind.mp h
  obtain ⟨rfl, rfl, rfl⟩ := gives_layout.mp hlayout
  simp only at hrest
  split at hrest
  next off' hoff =>
    obtain ⟨rfl, rfl, rfl⟩ := gives_pure.mp hrest
    exact ⟨rfl, hoff, rfl⟩
  next => exact (gives_refuse.mp hrest).elim

end Emit

/-! ## §3 The shape of code -/

/-- Goes to a label by the value in the first register. -/
def test (cond : Cond) (l : Label) : List Line :=
  [.instr (.compare .r0 (.imm 0)), .instr (.branch cond l)]

/-- Leaves the function. -/
def leaving : List Line := [.instr (.move .always .sp (.reg .fp)), .instr (.pop [.fp, .pc])]

/-- The condition under which an operand decides a conjunction or disjunction, and the value that
it then has. -/
def logical? : BinaryOp → Option (Cond × Bool)
  | .and => some (.eq, false)
  | .or => some (.ne, true)
  | _ => none

/-- A truth value as an operand. -/
def truthImm (b : Bool) : Operand := .imm (if b then 1 else 0)

/-- The end of a conjunction or disjunction: the value if no operand has decided it, and the value
if one has. -/
def settle (b : Bool) (short done : Label) : List Line :=
  [ .instr (.move .always .r0 (truthImm !b)),
    .instr (.branch .always done),
    .label short,
    .instr (.move .always .r0 (truthImm b)),
    .label done ]

/-- Prints the mark of a check. -/
def marking : List Instr :=
  [ .compare .r0 (.imm 1),
    .move .eq .r0 (.char '.'),
    .move .ne .r0 (.char 'F'),
    .call "putchar" ]

/-- The code of a conjunction or disjunction, around the codes of its operands. -/
def logicalCode (cond : Cond) (v : Bool) (n : Nat) (a b : List Line) : List Line :=
  a ++ (test cond ⟨"short", n + 1⟩ ++ (b ++ (test cond ⟨"short", n + 1⟩ ++
    settle v ⟨"short", n + 1⟩ ⟨"end", n + 2⟩)))

/-- The code of a choice, around the codes of its condition and branches. -/
def choiceCode (n : Nat) (a b d : List Line) : List Line :=
  a ++ (test .eq ⟨"else", n + 1⟩ ++ (b ++ (.instr (.branch .always ⟨"endif", n + 2⟩) ::
    .label ⟨"else", n + 1⟩ :: (d ++ [.label ⟨"endif", n + 2⟩]))))

/-- The code of a loop, around the codes of its condition and body. -/
def loopCode (n : Nat) (a b : List Line) : List Line :=
  .label ⟨"loop", n + 1⟩ :: (a ++ (test .eq ⟨"endloop", n + 2⟩ ++
    (b ++ [.instr (.branch .always ⟨"loop", n + 1⟩), .label ⟨"endloop", n + 2⟩])))

/-- The code of a node in a frame. The numbers of labels start behind `n` and end with `n'`. -/
inductive Compiled (l : Layout) : Nat → Node → List Line → Nat → Prop
  | missing {n : Nat} : Compiled l n .missing [] n
  | number {n : Nat} {x : Float} {k : Int} {loc : Location} (hk : Emit.integer? x = some k) :
    Compiled l n (.number x loc) [.instr (.literal .r0 k)] n
  | ident {n : Nat} {name : Text} {off : Int} {loc : Location} (hoff : l.offset? name = some off) :
    Compiled l n (.ident name loc) [.instr (.load .r0 .fp off)] n
  | unary {n n' : Nat} {op : UnaryOp} {x : Node} {loc : Location} {a : List Line}
    {is : List Instr} (hx : Compiled l n x a n') (hop : Emit.unary op loc = Emit.instrs is) :
    Compiled l n (.unary op x loc) (a ++ is.map .instr) n'
  | logical {n n₁ n₂ : Nat} {op : BinaryOp} {cond : Cond} {v : Bool} {x y : Node} {loc : Location}
    {a b : List Line} (hop : logical? op = some (cond, v)) (hx : Compiled l (n + 2) x a n₁)
    (hy : Compiled l n₁ y b n₂) :
    Compiled l n (.binary op x y loc)
      (a ++ test cond ⟨"short", n + 1⟩ ++ b ++ test cond ⟨"short", n + 1⟩ ++
        settle v ⟨"short", n + 1⟩ ⟨"end", n + 2⟩) n₂
  | binary {n n₁ n₂ : Nat} {op : BinaryOp} {x y : Node} {loc : Location} {a b : List Line}
    {is : List Instr} (hx : Compiled l n x a n₁) (hy : Compiled l n₁ y b n₂)
    (hop : Emit.binary op loc = Emit.instrs is) :
    Compiled l n (.binary op x y loc)
      (a ++ [.instr (.push [.r0, .ip])] ++ b ++ [.instr (.pop [.r1, .ip])] ++ is.map .instr) n₂
  | giveBackZero {n : Nat} {loc : Location} :
    Compiled l n (.giveBack .missing loc) (.instr (.move .always .r0 (.imm 0)) :: leaving) n
  | giveBack {n n' : Nat} {x : Node} {loc : Location} {a : List Line}
    (hthere : x.isMissing = false) (hx : Compiled l n x a n') :
    Compiled l n (.giveBack x loc) (a ++ leaving) n'
  | nil {n : Nat} {loc : Location} : Compiled l n (.block [] loc) [] n
  | cons {n n₁ n₂ : Nat} {x : Node} {xs : List Node} {loc : Location} {a b : List Line}
    (hx : Compiled l n x a n₁) (hxs : Compiled l n₁ (.block xs loc) b n₂) :
    Compiled l n (.block (x :: xs) loc) (a ++ b) n₂
  | choice {n n₁ n₂ n₃ : Nat} {cond yes no : Node} {loc : Location} {a b d : List Line}
    (hcond : Compiled l (n + 2) cond a n₁) (hyes : Compiled l n₁ yes b n₂)
    (hno : Compiled l n₂ no d n₃) :
    Compiled l n (.choice cond yes no loc)
      (a ++ test .eq ⟨"else", n + 1⟩ ++ b ++ [.instr (.branch .always ⟨"endif", n + 2⟩)] ++
        [.label ⟨"else", n + 1⟩] ++ d ++ [.label ⟨"endif", n + 2⟩]) n₃
  | loop {n n₁ n₂ : Nat} {cond body : Node} {loc : Location} {a b : List Line}
    (hcond : Compiled l (n + 2) cond a n₁) (hbody : Compiled l n₁ body b n₂) :
    Compiled l n (.loop cond body loc)
      ([.label ⟨"loop", n + 1⟩] ++ a ++ test .eq ⟨"endloop", n + 2⟩ ++ b ++
        [.instr (.branch .always ⟨"loop", n + 1⟩)] ++ [.label ⟨"endloop", n + 2⟩]) n₂
  | declare {n n' : Nat} {name : Text} {off : Int} {x : Node} {loc : Location} {a : List Line}
    (hoff : l.offset? name = some off) (hx : Compiled l n x a n') :
    Compiled l n (.declare name x loc) (a ++ [.instr (.store .r0 .fp off)]) n'
  | assign {n n' : Nat} {name : Text} {off : Int} {x : Node} {loc : Location} {a : List Line}
    (hoff : l.offset? name = some off) (hx : Compiled l n x a n') :
    Compiled l n (.assign name x loc) (a ++ [.instr (.store .r0 .fp off)]) n'
  | assert {n n' : Nat} {cond : Node} {loc : Location} {a : List Line}
    (hcond : Compiled l n cond a n') :
    Compiled l n (.assert cond loc) (a ++ marking.map .instr) n'

/-! ## §4 Code has the shape -/

section Shape

variable {l : Layout} {n : Nat} {c : Context} {code : List Line}

/-- The code of a unary operator is a row of instructions, whatever the context. -/
theorem gives_unary {op : UnaryOp} {loc : Location} {c' : Context}
    (h : (Emit.unary op loc).Gives c code () c') :
    c' = c ∧ ∃ is : List Instr, code = is.map .instr ∧ Emit.unary op loc = Emit.instrs is := by
  cases op with
  | unknown k => exact (Emit.gives_refuse.mp h).elim
  | _ =>
    obtain ⟨rfl, rfl⟩ := Emit.gives_instrs.mp h
    exact ⟨rfl, _, rfl, rfl⟩

/-- The code of a binary operator is a row of instructions, whatever the context. -/
theorem gives_binary {op : BinaryOp} {loc : Location} {c' : Context}
    (h : (Emit.binary op loc).Gives c code () c') :
    c' = c ∧ ∃ is : List Instr, code = is.map .instr ∧ Emit.binary op loc = Emit.instrs is := by
  cases op with
  | power | and | or | unknown _ => exact (Emit.gives_refuse.mp h).elim
  | _ =>
    obtain ⟨rfl, rfl⟩ := Emit.gives_instrs.mp h
    exact ⟨rfl, _, rfl, rfl⟩

/-- The operators that decide on their first operand, written out once for all of them. -/
theorem emit_logical {op : BinaryOp} {cond : Cond} {v : Bool} (h : logical? op = some (cond, v))
    (x y : Node) (loc : Location) :
    emit (.binary op x y loc) = (do
      let short ← Emit.label "short"
      let done ← Emit.label "end"
      emit x
      Emit.shortcut cond short
      emit y
      Emit.shortcut cond short
      Emit.instrs [.move .always .r0 (truthImm !v), .branch .always done]
      Emit.lines [.label short, .instr (.move .always .r0 (truthImm v)), .label done]) := by
  cases op with
  | and | or =>
    cases h
    simp [emit, truthImm]
  | _ => cases h

/-- The operators that need both operands, except for powers, which call the library. -/
theorem emit_operands {op : BinaryOp} (h : logical? op = none) (hpower : op ≠ .power)
    (x y : Node) (loc : Location) :
    emit (.binary op x y loc) = (do
      emit x
      Emit.instrs [.push [.r0, .ip]]
      emit y
      Emit.instrs [.pop [.r1, .ip]]
      Emit.binary op loc) := by
  cases op with
  | and | or => cases h
  | power => exact absurd rfl hpower
  | _ => simp [emit]

section Parts

variable {x y z : Node} {loc : Location} {c' : Context}

/-- The code of a deciding operator around the codes of its operands. -/
theorem gives_logical {op : BinaryOp} {cond : Cond} {v : Bool}
    (hop : logical? op = some (cond, v)) (h : (emit (.binary op x y loc)).Gives c code () c') :
    ∃ a c₁ b, (emit x).Gives ⟨c.labels + 2, c.layout⟩ a () c₁ ∧ (emit y).Gives c₁ b () c' ∧
      code = logicalCode cond v c.labels a b := by
  rw [emit_logical hop] at h
  simp only [Emit.gives_label_bind, Emit.shortcut, Emit.gives_emit_bind, Emit.gives_instrs_bind,
    Emit.gives_lines] at h
  obtain ⟨a, c₁, ha, _, ⟨_, ⟨b, _, hb, _, ⟨_, ⟨_, ⟨rfl, rfl⟩, rfl⟩, rfl⟩, rfl⟩, rfl⟩, rfl⟩ := h
  exact ⟨a, c₁, b, ha, hb, rfl⟩

/-- The code of a choice around the codes of its test and its branches. -/
theorem gives_choice (h : (emit (.choice x y z loc)).Gives c code () c') :
    ∃ a c₁ b c₂ d, (emit x).Gives ⟨c.labels + 2, c.layout⟩ a () c₁ ∧
      (emit y).Gives c₁ b () c₂ ∧ (emit z).Gives c₂ d () c' ∧ code = choiceCode c.labels a b d := by
  rw [emit] at h
  simp only [Emit.gives_label_bind, Emit.shortcut, Emit.gives_emit_bind, Emit.gives_instrs_bind,
    Emit.gives_lines_bind, Emit.gives_lines] at h
  obtain ⟨a, c₁, ha, _, ⟨_, ⟨b, c₂, hb, _, ⟨_, ⟨_, ⟨d, _, hd, _, ⟨rfl, rfl⟩, rfl⟩, rfl⟩, rfl⟩, rfl⟩,
    rfl⟩, rfl⟩ := h
  exact ⟨a, c₁, b, c₂, d, ha, hb, hd, rfl⟩

/-- The code of a loop around the codes of its test and its body. -/
theorem gives_loop (h : (emit (.loop x y loc)).Gives c code () c') :
    ∃ a c₁ b, (emit x).Gives ⟨c.labels + 2, c.layout⟩ a () c₁ ∧ (emit y).Gives c₁ b () c' ∧
      code = loopCode c.labels a b := by
  rw [emit] at h
  simp only [Emit.gives_label_bind, Emit.shortcut, Emit.gives_emit_bind, Emit.gives_instrs_bind,
    Emit.gives_lines_bind, Emit.gives_lines] at h
  obtain ⟨_, ⟨a, c₁, ha, _, ⟨_, ⟨b, _, hb, _, ⟨_, ⟨rfl, rfl⟩, rfl⟩, rfl⟩, rfl⟩, rfl⟩, rfl⟩ := h
  exact ⟨a, c₁, b, ha, hb, rfl⟩

end Parts

/-- Emission keeps the layout and gives code of the shape. -/
def Shaped (l : Layout) (x : Node) : Prop :=
  ∀ n code c, (emit x).Gives ⟨n, some l⟩ code () c →
    ∃ n', c = ⟨n', some l⟩ ∧ Compiled l n x code n'

namespace Shaped

variable {x y z : Node} {loc : Location}

theorem missing : Shaped l .missing := by
  intro n code c h
  rw [emit, Emit.gives_constant] at h
  obtain ⟨rfl, -, rfl⟩ := h
  exact ⟨n, rfl, .missing⟩

theorem number (v : Float) : Shaped l (.number v loc) := by
  intro n code c h
  rw [emit, Emit.number] at h
  split at h
  next k hk =>
    split at h
    · obtain ⟨rfl, rfl⟩ := Emit.gives_instrs.mp h
      exact ⟨n, rfl, .number hk⟩
    · exact (Emit.gives_refuse.mp h).elim
  next => exact (Emit.gives_refuse.mp h).elim

theorem string (t : Text) : Shaped l (.string t loc) := by
  intro n code c h
  rw [emit, Emit.gives_refuse] at h
  exact h.elim

theorem ident (name : Text) : Shaped l (.ident name loc) := by
  intro n code c h
  rw [emit] at h
  obtain ⟨_, _, _, hlookup, _, hload, rfl⟩ := Emit.gives_bind.mp h
  obtain ⟨rfl, hoff, rfl⟩ := Emit.gives_offsetOf hlookup
  obtain ⟨rfl, rfl⟩ := Emit.gives_instrs.mp hload
  exact ⟨n, rfl, .ident hoff⟩

theorem unary (op : UnaryOp) (hx : Shaped l x) : Shaped l (.unary op x loc) := by
  intro n code c h
  rw [emit] at h
  obtain ⟨a, _, ha, b, hb, rfl⟩ := Emit.gives_emit_bind.mp h
  obtain ⟨n', rfl, hxc⟩ := hx _ _ _ ha
  obtain ⟨rfl, is, rfl, hop⟩ := gives_unary hb
  exact ⟨n', rfl, .unary hxc hop⟩

theorem logical {op : BinaryOp} {cond : Cond} {v : Bool} (hop : logical? op = some (cond, v))
    (hx : Shaped l x) (hy : Shaped l y) : Shaped l (.binary op x y loc) := by
  intro n code c h
  obtain ⟨a, _, b, ha, hb, rfl⟩ := gives_logical hop h
  obtain ⟨n₁, rfl, hxc⟩ := hx _ _ _ ha
  obtain ⟨n₂, rfl, hyc⟩ := hy _ _ _ hb
  have hc : Compiled l n (.binary op x y loc) _ n₂ := .logical hop hxc hyc
  exact ⟨n₂, rfl, by simpa [logicalCode] using hc⟩

theorem operands {op : BinaryOp} (hop : logical? op = none) (hx : Shaped l x) (hy : Shaped l y) :
    Shaped l (.binary op x y loc) := by
  intro n code c h
  by_cases hpower : op = .power
  · subst hpower
    rw [emit, Emit.gives_refuse] at h
    exact h.elim
  -- no operator but the power lacks a code of its own
  · rw [emit_operands hop hpower] at h
    simp only [Emit.gives_emit_bind, Emit.gives_instrs_bind] at h
    obtain ⟨a, _, ha, _, ⟨_, ⟨b, _, hb, _, ⟨_, hbin, rfl⟩, rfl⟩, rfl⟩, rfl⟩ := h
    obtain ⟨n₁, rfl, hxc⟩ := hx _ _ _ ha
    obtain ⟨n₂, rfl, hyc⟩ := hy _ _ _ hb
    obtain ⟨rfl, is, rfl, his⟩ := gives_binary hbin
    have hc : Compiled l n (.binary op x y loc) _ n₂ := .binary hxc hyc his
    exact ⟨n₂, rfl, by simpa using hc⟩

theorem binary (op : BinaryOp) (hx : Shaped l x) (hy : Shaped l y) :
    Shaped l (.binary op x y loc) := by
  cases hop : logical? op with
  | none => exact operands hop hx hy
  | some p => exact logical hop hx hy

theorem giveBack (hx : Shaped l x) : Shaped l (.giveBack x loc) := by
  intro n code c h
  rw [emit, Emit.gives_layout_bind] at h
  simp only at h
  split at h
  next hmissing =>
    -- a missing value has no code, and is given back as zero
    cases x with
    | missing =>
      simp only [Emit.leave, Emit.gives_instrs_bind, Emit.gives_instrs] at h
      obtain ⟨_, ⟨rfl, rfl⟩, rfl⟩ := h
      exact ⟨n, rfl, .giveBackZero⟩
    | _ => cases hmissing
  next hthere =>
    simp only [Emit.leave, Emit.gives_emit_bind, Emit.gives_instrs] at h
    obtain ⟨a, _, ha, _, ⟨rfl, rfl⟩, rfl⟩ := h
    obtain ⟨n', rfl, hxc⟩ := hx _ _ _ ha
    exact ⟨n', rfl, .giveBack (by simpa using hthere) hxc⟩

theorem nil : Shaped l (.block [] loc) := by
  intro n code c h
  rw [emit_block, emitAll, Emit.gives_constant] at h
  obtain ⟨rfl, -, rfl⟩ := h
  exact ⟨n, rfl, .nil⟩

theorem cons {xs : List Node} (hx : Shaped l x) (hxs : Shaped l (.block xs loc)) :
    Shaped l (.block (x :: xs) loc) := by
  intro n code c h
  rw [emit_block, emitAll] at h
  obtain ⟨a, _, ha, b, hb, rfl⟩ := Emit.gives_emit_bind.mp h
  obtain ⟨n₁, rfl, hxc⟩ := hx _ _ _ ha
  obtain ⟨n₂, rfl, hxsc⟩ := hxs n₁ b c (by rw [emit_block]; exact hb)
  exact ⟨n₂, rfl, .cons hxc hxsc⟩

theorem choice (hx : Shaped l x) (hy : Shaped l y) (hz : Shaped l z) :
    Shaped l (.choice x y z loc) := by
  intro n code c h
  obtain ⟨a, _, b, _, d, ha, hb, hd, rfl⟩ := gives_choice h
  obtain ⟨n₁, rfl, hxc⟩ := hx _ _ _ ha
  obtain ⟨n₂, rfl, hyc⟩ := hy _ _ _ hb
  obtain ⟨n₃, rfl, hzc⟩ := hz _ _ _ hd
  have hc : Compiled l n (.choice x y z loc) _ n₃ := .choice hxc hyc hzc
  exact ⟨n₃, rfl, by simpa [choiceCode] using hc⟩

theorem loop (hx : Shaped l x) (hy : Shaped l y) : Shaped l (.loop x y loc) := by
  intro n code c h
  obtain ⟨a, _, b, ha, hb, rfl⟩ := gives_loop h
  obtain ⟨n₁, rfl, hxc⟩ := hx _ _ _ ha
  obtain ⟨n₂, rfl, hyc⟩ := hy _ _ _ hb
  have hc : Compiled l n (.loop x y loc) _ n₂ := .loop hxc hyc
  exact ⟨n₂, rfl, by simpa [loopCode] using hc⟩

/-- The declared name has its word already, so the layout stays as it is. -/
theorem declare {name : Text} (hname : (l.offset? name).isSome) (hx : Shaped l x) :
    Shaped l (.declare name x loc) := by
  intro n code c h
  obtain ⟨off, hoff⟩ := Option.isSome_iff_exists.mp hname
  rw [emit, Emit.gives_layout_bind] at h
  obtain ⟨a, _, ha, _, hstore, rfl⟩ := Emit.gives_emit_bind.mp h
  obtain ⟨n', rfl, hxc⟩ := hx _ _ _ ha
  simp only [Emit.gives_layout_bind, Layout.declare_of_some hoff, Emit.gives_setLayout_bind,
    Emit.gives_instrs] at hstore
  obtain ⟨rfl, rfl⟩ := hstore
  exact ⟨n', rfl, .declare hoff hxc⟩

theorem assign (name : Text) (hx : Shaped l x) : Shaped l (.assign name x loc) := by
  intro n code c h
  rw [emit] at h
  obtain ⟨_, _, _, hlookup, _, hrest, rfl⟩ := Emit.gives_bind.mp h
  obtain ⟨rfl, hoff, rfl⟩ := Emit.gives_offsetOf hlookup
  obtain ⟨a, _, ha, _, hstore, rfl⟩ := Emit.gives_emit_bind.mp hrest
  obtain ⟨n', rfl, hxc⟩ := hx _ _ _ ha
  obtain ⟨rfl, rfl⟩ := Emit.gives_instrs.mp hstore
  exact ⟨n', rfl, .assign hoff hxc⟩

theorem assert (hx : Shaped l x) : Shaped l (.assert x loc) := by
  intro n code c h
  rw [emit] at h
  obtain ⟨a, _, ha, _, hmark, rfl⟩ := Emit.gives_emit_bind.mp h
  obtain ⟨n', rfl, hxc⟩ := hx _ _ _ ha
  obtain ⟨rfl, rfl⟩ := Emit.gives_instrs.mp hmark
  exact ⟨n', rfl, .assert hxc⟩

end Shaped

mutual

/-- Plain nodes have the shape of their code, where the names they declare have slots. -/
theorem shaped_of_isPlain {l : Layout} {statement : Bool} : ∀ {x : Node},
    x.isPlain statement = true →
    (statement = true → ∀ name ∈ declared x, (l.offset? name).isSome) → Shaped l x
  -- the shape of a node follows from those of its parts, with the names that they declare
  | .missing, _, _ => .missing
  | .number v _, _, _ => .number v
  | .string t _, _, _ => .string t
  | .ident name _, _, _ => .ident name
  | .unary op x _, h, _ => .unary op (shaped_of_isPlain (x := x) h nofun)
  | .binary op x y _, h, _ => by
    rw [Node.isPlain, Bool.and_eq_true] at h
    exact .binary op (shaped_of_isPlain h.1 nofun) (shaped_of_isPlain h.2 nofun)
  | .giveBack x _, h, _ => .giveBack (shaped_of_isPlain (x := x) h nofun)
  | .block stmts _, h, hnames => shaped_of_allPlain h hnames
  | .choice x y z _, h, hnames => by
    simp only [Node.isPlain, Bool.and_eq_true] at h
    exact .choice (shaped_of_isPlain h.1.1 nofun)
      (shaped_of_isPlain h.1.2 fun hs name hmem =>
        hnames hs name (List.mem_append_left _ hmem))
      (shaped_of_isPlain h.2 fun hs name hmem =>
        hnames hs name (List.mem_append_right _ hmem))
  | .loop x y _, h, hnames => by
    rw [Node.isPlain, Bool.and_eq_true] at h
    exact .loop (shaped_of_isPlain h.1 nofun) (shaped_of_isPlain h.2 hnames)
  | .declare name x _, h, hnames => by
    rw [Node.isPlain, Bool.and_eq_true] at h
    exact .declare (hnames h.1 name (List.mem_singleton_self name)) (shaped_of_isPlain h.2 nofun)
  | .assign name x _, h, _ => by
    rw [Node.isPlain, Bool.and_eq_true] at h
    exact .assign name (shaped_of_isPlain h.2 nofun)
  | .assert x _, h, _ => by
    rw [Node.isPlain, Bool.and_eq_true] at h
    exact .assert (shaped_of_isPlain h.2 nofun)

/-- The same for the statements of a block. -/
theorem shaped_of_allPlain {l : Layout} {statement : Bool} {loc : Location} : ∀ {xs : List Node},
    Node.allPlain statement xs = true →
    (statement = true → ∀ name ∈ declaredAll xs, (l.offset? name).isSome) →
    Shaped l (.block xs loc)
  | [], _, _ => .nil
  | x :: xs, h, hnames => by
    rw [Node.allPlain, Bool.and_eq_true] at h
    exact .cons
      (shaped_of_isPlain h.1 fun hs name hmem => hnames hs name (List.mem_append_left _ hmem))
      (shaped_of_allPlain h.2 fun hs name hmem => hnames hs name (List.mem_append_right _ hmem))

end

end Shape

/-! ## §5 Labels -/

/-- The labels of code have different numbers, all from behind `n` up to `n'`. -/
structure Numbered (n : Nat) (code : List Line) (n' : Nat) : Prop where
  le : n ≤ n'
  within : ∀ l ∈ placed code, n < l.number ∧ l.number ≤ n'
  nodup : (placed code).Nodup

namespace Numbered

variable {n n₁ n₂ : Nat} {a b : List Line}

/-- Code that places no labels. -/
theorem none (h : placed a = []) : Numbered n a n := by
  constructor <;> simp [h]

/-- Labels that are numbered from one place to the next stay so when the code is joined. -/
theorem append (ha : Numbered n a n₁) (hb : Numbered n₁ b n₂) : Numbered n (a ++ b) n₂ := by
  constructor
  · exact Nat.le_trans ha.le hb.le
  · intro l hl
    rw [placed_append, List.mem_append] at hl
    have hle := ha.le
    have hle' := hb.le
    -- the numbers of the first part are all taken before those of the second
    cases hl with
    | inl hl =>
      have := ha.within l hl
      omega
    | inr hl =>
      have := hb.within l hl
      omega
  · rw [placed_append, List.nodup_append]
    refine ⟨ha.nodup, hb.nodup, ?_⟩
    rintro l hl _ hl' rfl
    exact absurd (hb.within l hl').1 (Nat.not_lt_of_le (ha.within l hl).2)

/-- A node takes two numbers before its parts take theirs, and may place its labels anywhere. -/
theorem withLabels (s t : Text) (ha : Numbered (n + 2) a n₁)
    (hb : (placed b).Perm (⟨s, n + 1⟩ :: ⟨t, n + 2⟩ :: placed a)) : Numbered n b n₁ := by
  have hle := ha.le
  have hlater : ∀ l ∈ placed a, n + 2 < l.number := fun l hl => (ha.within l hl).1
  constructor
  · exact Nat.le_trans (Nat.le_add_right n 2) hle
  · intro l hl
    -- the two labels are numbered before all those of the parts
    rcases List.mem_cons.mp (hb.mem_iff.mp hl) with rfl | hl
    · exact ⟨Nat.lt_succ_self n, by simp only; omega⟩
    rcases List.mem_cons.mp hl with rfl | hl
    · exact ⟨by simp, hle⟩
    · have := ha.within l hl
      omega
  · rw [hb.nodup_iff, List.nodup_cons, List.nodup_cons]
    refine ⟨?_, fun hl => Nat.lt_irrefl _ (hlater _ hl), ha.nodup⟩
    intro hl
    rcases List.mem_cons.mp hl with heq | hl
    · simp at heq
    · exact absurd (hlater _ hl) (by simp)

end Numbered

@[simp] theorem placed_test (cond : Cond) (l : Label) : placed (test cond l) = [] := rfl

@[simp] theorem placed_leaving : placed leaving = [] := rfl

@[simp] theorem placed_instr (i : Instr) (code : List Line) :
    placed (.instr i :: code) = placed code := rfl

@[simp] theorem placed_nil : placed [] = [] := rfl

@[simp] theorem placed_settle (v : Bool) (short done : Label) :
    placed (settle v short done) = [short, done] := rfl

section Placed

variable (n : Nat) (a b d : List Line)

/-- The labels a deciding operator places: its own two, and those of its operands. -/
theorem placed_logicalCode (cond : Cond) (v : Bool) : (placed (logicalCode cond v n a b)).Perm
    (⟨"short", n + 1⟩ :: ⟨"end", n + 2⟩ :: placed (a ++ b)) := by
  rw [List.perm_iff_count]
  intro k
  simp [logicalCode, List.count_cons]
  omega

/-- The labels a choice places: its own two, and those of its test and branches. -/
theorem placed_choiceCode : (placed (choiceCode n a b d)).Perm
    (⟨"else", n + 1⟩ :: ⟨"endif", n + 2⟩ :: placed (a ++ (b ++ d))) := by
  rw [List.perm_iff_count]
  intro k
  simp [choiceCode, List.count_cons]
  omega

/-- The labels a loop places: its own two, and those of its test and body. -/
theorem placed_loopCode : (placed (loopCode n a b)).Perm
    (⟨"loop", n + 1⟩ :: ⟨"endloop", n + 2⟩ :: placed (a ++ b)) := by
  rw [List.perm_iff_count]
  intro k
  simp [loopCode, List.count_cons]
  omega

end Placed

/-- No label is placed twice, and the numbers are those that the code took. -/
theorem Compiled.numbered {l : Layout} {n n' : Nat} {x : Node} {code : List Line}
    (h : Compiled l n x code n') : Numbered n code n' := by
  induction h with
  | missing | number | ident | nil | giveBackZero => exact .none rfl
  | unary _ _ ih | giveBack _ _ ih | declare _ _ ih | assign _ _ ih | assert _ ih =>
    exact ih.append (.none (by simp))
  | cons _ _ ihx ihxs => exact ihx.append ihxs
  -- what stands between the parts of these places no label
  | binary _ _ _ ihx ihy =>
    exact (((ihx.append (.none rfl)).append ihy).append (.none rfl)).append (.none (by simp))
  | @logical n _ _ _ cond v _ _ _ a b _ _ _ ihx ihy =>
    apply (ihx.append ihy).withLabels "short" "end"
    simpa [logicalCode] using placed_logicalCode n a b cond v
  | @choice n _ _ _ _ _ _ _ a b d _ _ _ ihx ihy ihz =>
    apply (ihx.append (ihy.append ihz)).withLabels "else" "endif"
    simpa [choiceCode] using placed_choiceCode n a b d
  | @loop n _ _ _ _ _ a b _ _ ihx ihy =>
    apply (ihx.append ihy).withLabels "loop" "endloop"
    simpa [loopCode] using placed_loopCode n a b

end Assembly

end Scriptlet
