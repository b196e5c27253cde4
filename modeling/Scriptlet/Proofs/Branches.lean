import Mathlib.Logic.Relation
import Scriptlet.Proofs.Encoding
import Scriptlet.Proofs.Generated

/-!
# Branches find their labels

The labels that a node places are numbered from one count, and the node branches to no others. So
the code of every node is closed: whatever it branches to lies in it. Closed codes can be put one
after the other, since they take numbers one after the other; the two labels of a choice, a loop, a
conjunction or a disjunction are taken before those of its parts, and lie between and behind them.

In a listing the labels are texts. Those that nodes place end with their numbers, which tell them
apart, and nothing else in a listing looks like them, except that a function may bear such a name.

## Contents

- §1 parts of nodes
- §2 targets
- §3 closed code
- §4 nodes
- §5 code of parts
- §6 texts
- §7 the main result
-/

namespace Scriptlet

/-! ## §1 Parts of nodes -/

namespace Node

/-- The nodes that a node is made of. -/
def parts : Node → List Node
  | .unary _ x _ | .giveBack x _ | .declare _ x _ | .assign _ x _ | .assert x _ => [x]
  | .binary _ x y _ | .loop x y _ => [x, y]
  | .choice x y z _ => [x, y, z]
  | .call _ xs _ | .block xs _ | .function _ _ xs _ _ | .main xs _ => xs
  | .missing | .number _ _ | .string _ _ | .ident _ _ | .prototype _ _ _ => []

/-- The node is the other one, or lies somewhere in it. -/
def LiesIn : Node → Node → Prop := Relation.ReflTransGen fun y x => y ∈ x.parts

end Node

namespace Assembly

/-! ## §2 Targets -/

/-- The label that a line branches to, if it branches to one. -/
def Line.target? : Line → Option Label
  | .instr (.branch _ l) => some l
  | _ => none

/-- The labels that code branches to. -/
def targets (code : List Line) : List Label := code.filterMap Line.target?

@[simp] theorem targets_append (a b : List Line) : targets (a ++ b) = targets a ++ targets b :=
  List.filterMap_append

@[simp] theorem targets_nil : targets [] = [] := rfl

@[simp] theorem targets_label (l : Label) (code : List Line) :
    targets (.label l :: code) = targets code := rfl

@[simp] theorem targets_branch (cond : Cond) (l : Label) (code : List Line) :
    targets (.instr (.branch cond l) :: code) = l :: targets code := rfl

@[simp] theorem targets_move (cond : Cond) (dst : Reg) (src : Operand) (code : List Line) :
    targets (.instr (.move cond dst src) :: code) = targets code := rfl

@[simp] theorem targets_compare (a : Reg) (b : Operand) (code : List Line) :
    targets (.instr (.compare a b) :: code) = targets code := rfl

/-- Branches of the code are among its targets. -/
theorem mem_targets {cond : Cond} {l : Label} {code : List Line}
    (h : .instr (.branch cond l) ∈ code) : l ∈ targets code :=
  List.mem_filterMap.mpr ⟨_, h, rfl⟩

/-- A label is placed where its line stands. -/
theorem mem_placed {l : Label} {code : List Line} : l ∈ placed code ↔ .label l ∈ code := by
  rw [placed, List.mem_filterMap]
  constructor
  · rintro ⟨line, hmem, hline⟩
    cases line with
    | label k =>
      cases hline
      exact hmem
    | _ => cases hline
  · exact fun hmem => ⟨_, hmem, rfl⟩

/-! ## §3 Closed code -/

/-- What labels are called. -/
def stems : List Text := ["short", "end", "else", "endif", "loop", "endloop"]

/-- Code that takes the numbers from behind `n` up to `n'` for its labels, and branches to no
others. -/
structure Closed (n : Nat) (code : List Line) (n' : Nat) : Prop where
  numbered : Numbered n code n'
  stem : ∀ l ∈ placed code, l.stem ∈ stems
  resolved : ∀ l ∈ targets code, l ∈ placed code

namespace Closed

variable {n n₁ n₂ : Nat} {a b : List Line}

/-- Closed code stays closed when it is joined to the code that follows. -/
theorem append (ha : Closed n a n₁) (hb : Closed n₁ b n₂) : Closed n (a ++ b) n₂ := by
  refine ⟨ha.numbered.append hb.numbered, ?_, ?_⟩
  · rw [placed_append, List.forall_mem_append]
    exact ⟨ha.stem, hb.stem⟩
  · rw [targets_append, placed_append, List.forall_mem_append]
    exact ⟨fun l hl => List.mem_append_left _ (ha.resolved l hl),
      fun l hl => List.mem_append_right _ (hb.resolved l hl)⟩

/-- Code without labels and branches. -/
theorem plain (hplaced : placed a = []) (htargets : targets a = []) : Closed n a n := by
  refine ⟨.none hplaced, ?_, ?_⟩
  · rw [hplaced]
    exact List.forall_mem_nil _
  · rw [htargets]
    exact List.forall_mem_nil _

/-- Around closed parts, code may place two labels of its own and branch to them. -/
theorem withLabels {s t : Text} (hs : s ∈ stems) (ht : t ∈ stems) (ha : Closed (n + 2) a n₁)
    (hplaced : (placed b).Perm (⟨s, n + 1⟩ :: ⟨t, n + 2⟩ :: placed a))
    (htargets : targets b ⊆ ⟨s, n + 1⟩ :: ⟨t, n + 2⟩ :: targets a) : Closed n b n₁ := by
  refine ⟨ha.numbered.withLabels s t hplaced, fun l hl => ?_, fun l hl => ?_⟩
  · -- a label of the code is one of the two or one of the parts
    rcases List.mem_cons.mp (hplaced.mem_iff.mp hl) with rfl | hl
    · exact hs
    rcases List.mem_cons.mp hl with rfl | hl
    · exact ht
    · exact ha.stem l hl
  · apply hplaced.mem_iff.mpr
    rcases List.mem_cons.mp (htargets hl) with rfl | hl
    · exact List.mem_cons_self
    rcases List.mem_cons.mp hl with rfl | hl
    · exact List.mem_cons_of_mem _ List.mem_cons_self
    · exact List.mem_cons_of_mem _ (List.mem_cons_of_mem _ (ha.resolved l hl))

end Closed

/-- A production gives closed code in every context. -/
def Closes (m : Emit Unit) : Prop :=
  ∀ c code c', m.Gives c code () c' → Closed c.labels code c'.labels

namespace Closes

variable {m m' : Emit Unit} {x y z : Node} {loc : Location}

theorem constant : Closes (Emit.constant ()) := by
  intro c code c' h
  obtain ⟨rfl, -, rfl⟩ := Emit.gives_constant.mp h
  exact .plain rfl rfl

theorem refuse (fault : EmitFault) : Closes (Emit.refuse fault loc) :=
  fun _ _ _ h => (Emit.gives_refuse.mp h).elim

/-- Lines without labels and branches are closed. -/
theorem lines {ls : List Line} (hplaced : placed ls = []) (htargets : targets ls = []) :
    Closes (Emit.lines ls) := by
  intro c code c' h
  obtain ⟨rfl, rfl⟩ := Emit.gives_lines.mp h
  exact .plain hplaced htargets

/-- Instructions without branches are closed. -/
theorem instrs {is : List Instr} (htargets : targets (is.map .instr) = []) :
    Closes (Emit.instrs is) :=
  lines (placed_instrs is) htargets

/-- Emissions that close are closed one behind the other. -/
theorem seq (h : Closes m) (h' : Closes m') : Closes (m >>= fun _ => m') := by
  intro c code c' hm
  obtain ⟨a, c₁, ha, b, hb, rfl⟩ := Emit.gives_seq.mp hm
  exact (h c a c₁ ha).append (h' c₁ b c' hb)

theorem setLayout (l : Option Layout) : Closes (Emit.setLayout l) := by
  intro c code c' h
  obtain ⟨rfl, rfl⟩ := Emit.gives_setLayout.mp h
  exact .plain rfl rfl

/-- What depends on the layout around. -/
theorem layout {f : Option Layout → Emit Unit} (h : ∀ l, Closes (f l)) :
    Closes (Emit.layout >>= f) :=
  fun c code c' hm => h c.layout c code c' (Emit.gives_layout_bind.mp hm)

/-- What depends on the offset of a variable. -/
theorem offset {name : Text} {f : Int → Emit Unit} (h : ∀ off, Closes (f off)) :
    Closes (Emit.offsetOf name loc >>= f) := by
  intro c code c' hm
  obtain ⟨a, off, c₁, hoff, b, hb, rfl⟩ := Emit.gives_bind.mp hm
  obtain ⟨n, _ | l⟩ := c
  · cases hoff
  · obtain ⟨rfl, -, rfl⟩ := Emit.gives_offsetOf hoff
    exact h off _ b c' hb

/-! ## §4 Nodes -/

theorem number (v : Float) : Closes (Emit.number v loc) := by
  unfold Emit.number
  split
  next =>
    split
    · exact instrs rfl
    · exact refuse _
  next => exact refuse _

/-- The code of a unary operator has no branches. -/
theorem unary (op : UnaryOp) : Closes (Emit.unary op loc) := by
  cases op with
  | unknown => exact refuse _
  | _ => exact instrs rfl

/-- The code of a binary operator has no branches. -/
theorem operator (op : BinaryOp) : Closes (Emit.binary op loc) := by
  cases op with
  | power | and | or | unknown => exact refuse _
  | _ => exact instrs rfl

/-- A deciding operator places the two labels that it branches to. -/
theorem logical {op : BinaryOp} {cond : Cond} {v : Bool} (hop : logical? op = some (cond, v))
    (hx : Closes (emit x)) (hy : Closes (emit y)) : Closes (emit (.binary op x y loc)) := by
  intro c code c' h
  obtain ⟨a, c₁, b, ha, hb, rfl⟩ := gives_logical hop h
  refine .withLabels (by decide) (by decide) ((hx _ a c₁ ha).append (hy c₁ b c' hb))
    (placed_logicalCode c.labels a b cond v) fun l => ?_
  simp only [logicalCode, test, settle, targets_append, List.cons_append, List.nil_append,
    targets_compare, targets_branch, targets_move, targets_label, targets_nil, List.mem_append,
    List.mem_cons, List.not_mem_nil]
  tauto

/-- Every binary operator closes, in whichever of its forms. -/
theorem binary (op : BinaryOp) (hx : Closes (emit x)) (hy : Closes (emit y)) :
    Closes (emit (.binary op x y loc)) := by
  cases hop : logical? op with
  | some p => exact logical hop hx hy
  | none =>
    by_cases hpower : op = .power
    · subst hpower
      rw [emit]
      exact refuse _
    · rw [emit_operands hop hpower]
      exact hx.seq ((instrs rfl).seq (hy.seq ((instrs rfl).seq (operator op))))

/-- A choice places the two labels that it branches to. -/
theorem choice (hx : Closes (emit x)) (hy : Closes (emit y)) (hz : Closes (emit z)) :
    Closes (emit (.choice x y z loc)) := by
  intro c code c' h
  obtain ⟨a, c₁, b, c₂, d, ha, hb, hd, rfl⟩ := gives_choice h
  refine .withLabels (by decide) (by decide)
    ((hx _ a c₁ ha).append ((hy c₁ b c₂ hb).append (hz c₂ d c' hd)))
    (placed_choiceCode c.labels a b d) fun l => ?_
  simp only [choiceCode, test, targets_append, List.cons_append, List.nil_append, targets_compare,
    targets_branch, targets_label, targets_nil, List.mem_append, List.mem_cons, List.not_mem_nil]
  tauto

/-- A loop places the two labels that it branches to. -/
theorem loop (hx : Closes (emit x)) (hy : Closes (emit y)) : Closes (emit (.loop x y loc)) := by
  intro c code c' h
  obtain ⟨a, c₁, b, ha, hb, rfl⟩ := gives_loop h
  refine .withLabels (by decide) (by decide) ((hx _ a c₁ ha).append (hy c₁ b c' hb))
    (placed_loopCode c.labels a b) fun l => ?_
  simp only [loopCode, test, targets_append, List.cons_append, List.nil_append, targets_compare,
    targets_branch, targets_label, targets_nil, List.mem_append, List.mem_cons, List.not_mem_nil]
  tauto

theorem giveBack (hx : Closes (emit x)) : Closes (emit (.giveBack x loc)) := by
  rw [emit]
  refine layout fun l => ?_
  cases l with
  | none => exact refuse _
  | some l =>
    simp only
    split
    · exact (instrs rfl).seq (instrs rfl)
    · exact hx.seq (instrs rfl)

theorem declare (name : Text) (hx : Closes (emit x)) : Closes (emit (.declare name x loc)) := by
  rw [emit]
  refine layout fun l => ?_
  cases l with
  | none => exact refuse _
  | some l =>
    refine hx.seq (layout fun l => ?_)
    cases l with
    | none => exact refuse _
    | some l => exact (setLayout _).seq (instrs rfl)

theorem assign (name : Text) (hx : Closes (emit x)) : Closes (emit (.assign name x loc)) := by
  rw [emit]
  exact offset fun off => hx.seq (instrs rfl)

/-- A call, if its arguments are given closed code. -/
theorem call (callee : Text) {args : List Node} (h : Closes (emitArgs 0 args)) :
    Closes (emit (.call callee args loc)) := by
  cases args with
  | nil =>
    rw [emit]
    exact instrs rfl
  | cons x xs =>
    rw [emit]
    split
    · exact refuse _
    · exact (instrs rfl).seq (h.seq (instrs rfl))

/-- The lines that begin and end a function have no labels. -/
theorem opening (name : Text) : Closes (Emit.opening name) := (lines rfl rfl).seq (instrs rfl)

theorem closing : Closes Emit.closing := (instrs rfl).seq (instrs rfl)

theorem reserveLocals (l : Layout) : Closes (Emit.reserveLocals l) := by
  unfold Emit.reserveLocals
  split
  · exact instrs rfl
  · exact constant

/-- The entry point closes with its statements, as a function does with its body. -/
theorem main {stmts : List Node} (h : Closes (emitAll stmts)) : Closes (emit (.main stmts loc)) := by
  rw [emit]
  refine layout fun l => ?_
  cases l with
  | some l => exact refuse _
  | none =>
    exact (opening _).seq ((reserveLocals _).seq ((setLayout _).seq (h.seq (closing.seq
      (setLayout _)))))

/-- A function closes with its body: what opens and closes it has neither labels nor branches. -/
theorem function (name : Text) (params : List Text) {body : List Node} {bodyLoc : Location}
    (h : Closes (emitAll body)) : Closes (emit (.function name params body bodyLoc loc)) := by
  rw [emit]
  refine layout fun l => ?_
  cases l with
  -- a function inside a function is refused, and so is one with too many parameters
  | some l => exact refuse _
  | none =>
    simp only
    split
    · exact refuse _
    · exact (opening name).seq ((instrs rfl).seq ((reserveLocals _).seq ((setLayout _).seq
        (h.seq (closing.seq (setLayout _))))))

theorem prototype (name : Text) (params : List Text) :
    Closes (emit (.prototype name params loc)) := by
  rw [emit]
  refine layout fun l => ?_
  cases l with
  | some l => exact refuse _
  | none =>
    simp only
    split
    · exact refuse _
    · exact (opening name).seq ((instrs rfl).seq closing)

end Closes

mutual

/-- **The code of every node is closed.** -/
theorem closes_emit : ∀ x : Node, Closes (emit x)
  -- a node branches to labels of its own and to those of its parts only
  | .missing => by
    rw [emit]
    exact .constant
  | .number v _ => by
    rw [emit]
    exact .number v
  | .string t _ => by
    rw [emit]
    exact .refuse _
  | .ident name _ => by
    rw [emit]
    exact .offset fun off => .instrs rfl
  | .unary op x _ => by
    rw [emit]
    exact (closes_emit x).seq (.unary op)
  | .binary op x y _ => .binary op (closes_emit x) (closes_emit y)
  | .call callee args _ => .call callee (closes_emitArgs 0 args)
  | .giveBack x _ => .giveBack (closes_emit x)
  | .block stmts _ => by
    rw [emit]
    exact closes_emitAll stmts
  | .choice x y z _ => .choice (closes_emit x) (closes_emit y) (closes_emit z)
  | .loop x y _ => .loop (closes_emit x) (closes_emit y)
  | .declare name x _ => .declare name (closes_emit x)
  | .assign name x _ => .assign name (closes_emit x)
  | .function name params body _ _ => .function name params (closes_emitAll body)
  | .prototype name params _ => .prototype name params
  | .main stmts _ => .main (closes_emitAll stmts)
  | .assert x _ => by
    rw [emit]
    exact (closes_emit x).seq (.instrs rfl)

theorem closes_emitAll : ∀ xs : List Node, Closes (emitAll xs)
  | [] => by
    rw [emitAll]
    exact .constant
  | x :: xs => by
    rw [emitAll]
    exact (closes_emit x).seq (closes_emitAll xs)

theorem closes_emitArgs : ∀ (i : Nat) (xs : List Node), Closes (emitArgs i xs)
  | _, [] => by
    rw [emitArgs]
    exact .constant
  | i, x :: xs => by
    rw [emitArgs]
    exact (closes_emit x).seq ((Closes.instrs rfl).seq (closes_emitArgs (i + 1) xs))

end

/-! ## §5 Code of parts -/

section Parts

variable {α β : Type} {x y : Node}

/-- Where the production succeeds, the code of the node lies in what it gives. -/
def Contains (y : Node) (m : Emit α) : Prop :=
  ∀ c code a c', m.Gives c code a c' → ∃ before part rest d d',
    code = before ++ part ++ rest ∧ (emit y).Gives d part () d'

namespace Contains

variable {m : Emit α} {f : α → Emit β}

theorem refl (y : Node) : Contains y (emit y) :=
  fun c code _ c' h => ⟨[], code, [], c, c', by simp, h⟩

theorem refuse (fault : EmitFault) (loc : Location) : Contains y (Emit.refuse fault loc : Emit α) :=
  fun _ _ _ _ h => (Emit.gives_refuse.mp h).elim

/-- The code of what the first part contains lies in that of the sequence. -/
theorem first (h : Contains y m) : Contains y (m >>= f) := by
  intro c code b c' hm
  obtain ⟨code₁, a, c₁, ha, code₂, -, rfl⟩ := Emit.gives_bind.mp hm
  obtain ⟨before, part, rest, d, d', rfl, hpart⟩ := h c code₁ a c₁ ha
  exact ⟨before, part, rest ++ code₂, d, d', by simp, hpart⟩

/-- The code of what the second part contains lies in that of the sequence. -/
theorem next (h : ∀ a, Contains y (f a)) : Contains y (m >>= f) := by
  intro c code b c' hm
  obtain ⟨code₁, a, c₁, -, code₂, hf, rfl⟩ := Emit.gives_bind.mp hm
  obtain ⟨before, part, rest, d, d', rfl, hpart⟩ := h a c₁ code₂ b c' hf
  exact ⟨code₁ ++ before, part, rest, d, d', by simp, hpart⟩

/-- Parts of a part are contained. -/
theorem trans (h : Contains x m) (h' : Contains y (emit x)) : Contains y m := by
  intro c code a c' hm
  obtain ⟨before, part, rest, d, d', rfl, hpart⟩ := h c code a c' hm
  obtain ⟨before', part', rest', e, e', rfl, hpart'⟩ := h' d part () d' hpart
  exact ⟨before ++ before', part', rest' ++ rest, e, e', by simp, hpart'⟩

/-- The statements of a row are contained in it. -/
theorem statement {xs : List Node} (h : y ∈ xs) : Contains y (emitAll xs) := by
  induction xs with
  | nil => cases h
  | cons x xs ih =>
    rw [emitAll]
    rcases List.mem_cons.mp h with rfl | h
    · exact (refl y).first
    · exact next fun _ => ih h

/-- The arguments of a call are contained in it. -/
theorem argument {xs : List Node} (h : y ∈ xs) (i : Nat) : Contains y (emitArgs i xs) := by
  induction xs generalizing i with
  | nil => cases h
  | cons x xs ih =>
    rw [emitArgs]
    rcases List.mem_cons.mp h with rfl | h
    · exact (refl y).first
    · exact next fun _ => next fun _ => ih h (i + 1)

/-- The operands of an operator are contained in it. -/
theorem operand {op : BinaryOp} {z : Node} {loc : Location} (h : y = x ∨ y = z) :
    Contains y (emit (.binary op x z loc)) := by
  -- short-circuiting operators and the others compile their operands in different places
  cases hop : logical? op with
  | some p =>
    rw [emit_logical hop]
    refine next fun _ => next fun _ => ?_
    rcases h with rfl | rfl
    · exact (refl y).first
    · exact next fun _ => next fun _ => (refl y).first
  | none =>
    by_cases hpower : op = .power
    · subst hpower
      rw [emit]
      exact refuse _ loc
    · rw [emit_operands hop hpower]
      rcases h with rfl | rfl
      · exact (refl y).first
      · exact next fun _ => next fun _ => (refl y).first

/-- The code of every node contains that of its parts. -/
theorem part (h : y ∈ x.parts) : Contains y (emit x) := by
  cases x with
  | missing | number | string | ident | prototype => cases h
  | unary op x loc | assert x loc =>
    obtain rfl := List.mem_singleton.mp h
    rw [emit]
    exact (refl y).first
  | assign name x loc =>
    obtain rfl := List.mem_singleton.mp h
    rw [emit]
    exact next fun _ => (refl y).first
  | giveBack x loc =>
    obtain rfl := List.mem_singleton.mp h
    rw [emit]
    refine next fun l => ?_
    cases l with
    | none => exact refuse _ loc
    | some l =>
      simp only
      split
      next hmissing =>
        -- a result that is missing has no code, which lies anywhere
        cases y with
        | missing => exact fun c code a c' _ => ⟨[], [], code, c, c, rfl, by simp [emit]⟩
        | _ => cases hmissing
      next => exact (refl y).first
  | declare name x loc =>
    obtain rfl := List.mem_singleton.mp h
    rw [emit]
    refine next fun l => ?_
    cases l with
    | none => exact refuse _ loc
    | some l => exact (refl y).first
  | binary op x z loc => exact operand (by simpa [Node.parts] using h)
  | loop x z loc =>
    rw [emit]
    refine next fun _ => next fun _ => next fun _ => ?_
    simp only [Node.parts, List.mem_cons, List.not_mem_nil, or_false] at h
    rcases h with rfl | rfl
    · exact (refl y).first
    · exact next fun _ => next fun _ => (refl y).first
  | choice x z w loc =>
    rw [emit]
    refine next fun _ => next fun _ => ?_
    simp only [Node.parts, List.mem_cons, List.not_mem_nil, or_false] at h
    rcases h with rfl | rfl | rfl
    · exact (refl y).first
    · exact next fun _ => next fun _ => (refl y).first
    · exact next fun _ => next fun _ => next fun _ => next fun _ => next fun _ => (refl y).first
  | block xs loc =>
    rw [emit]
    exact statement h
  | call callee xs loc =>
    cases xs with
    | nil => cases h
    | cons x xs =>
      rw [emit]
      split
      · exact refuse _ loc
      · exact next fun _ => (argument h 0).first
  | main xs loc =>
    rw [emit]
    refine next fun l => ?_
    cases l with
    | some l => exact refuse _ loc
    | none => exact next fun _ => next fun _ => next fun _ => (statement h).first
  | function name params xs bodyLoc loc =>
    rw [emit]
    refine next fun l => ?_
    cases l with
    | some l => exact refuse _ loc
    | none =>
      simp only
      split
      · exact refuse _ loc
      · exact next fun _ => next fun _ => next fun _ => next fun _ => (statement h).first

/-- The code of every node contains that of all nodes in it. -/
theorem inside (h : y.LiesIn x) : Contains y (emit x) := by
  induction h with
  | refl => exact refl y
  | tail _ hpart ih => exact (part hpart).trans ih

end Contains

end Parts

/-! ## §6 Texts -/

section Texts

variable {l l' : Label} {code : List Line}

/-- Stems have no digits, which is where a label's number begins. -/
theorem exists_chars_of_mem_stems {t : Text} (h : t ∈ stems) :
    ∃ cs, t = Text.ofChars cs ∧ ∀ c ∈ cs, c.isDigit = false := by
  simp only [stems, List.mem_cons, List.not_mem_nil, or_false] at h
  rcases h with rfl | rfl | rfl | rfl | rfl | rfl
  · exact ⟨['s', 'h', 'o', 'r', 't'], rfl, by simp⟩
  · exact ⟨['e', 'n', 'd'], rfl, by simp⟩
  · exact ⟨['e', 'l', 's', 'e'], rfl, by simp⟩
  · exact ⟨['e', 'n', 'd', 'i', 'f'], rfl, by simp⟩
  · exact ⟨['l', 'o', 'o', 'p'], rfl, by simp⟩
  · exact ⟨['e', 'n', 'd', 'l', 'o', 'o', 'p'], rfl, by simp⟩

/-- What comes before some digits. -/
theorem takeWhile_before_digits {cs ds : List Char} (hcs : ∀ c ∈ cs, c.isDigit = false)
    (hds : ∀ d ∈ ds, d.isDigit = true) : (cs ++ ds).takeWhile (fun c => !c.isDigit) = cs := by
  have hnone : ds.takeWhile (fun c => !c.isDigit) = [] := by
    cases ds with
    | nil => rfl
    | cons d ds => simp [hds d List.mem_cons_self]
  rw [List.takeWhile_append_of_pos fun c hc => by simp [hcs c hc], hnone, List.append_nil]

/-- Different labels have different texts. -/
theorem Label.text_injective (hl : l.stem ∈ stems) (hl' : l'.stem ∈ stems)
    (h : l.text = l'.text) : l = l' := by
  obtain ⟨stem, n⟩ := l
  obtain ⟨stem', n'⟩ := l'
  obtain ⟨cs, rfl, hcs⟩ := exists_chars_of_mem_stems hl
  obtain ⟨cs', rfl, hcs'⟩ := exists_chars_of_mem_stems hl'
  have hdigits : ∀ n, ∀ d ∈ Nat.toDigits 10 n, d.isDigit = true := fun n d hd =>
    Nat.isDigit_of_mem_toDigits (by decide) (by decide) hd
  have hchars : cs ++ Nat.toDigits 10 n = cs' ++ Nat.toDigits 10 n' := by
    have h : Text.ofChars (cs ++ Nat.toDigits 10 n) = Text.ofChars (cs' ++ Nat.toDigits 10 n') := by
      rw [Text.ofChars_append, Text.ofChars_append]
      simpa only [Label.text, Text.ofNat, List.append_assoc, List.append_cancel_left_eq] using h
    rw [← Text.chars_ofChars (cs ++ _), h, Text.chars_ofChars]
  -- a stem has no digits, so the text parts in one way into stem and number
  have hstem : cs = cs' := by
    rw [← takeWhile_before_digits hcs (hdigits n), hchars, takeWhile_before_digits hcs' (hdigits n')]
  subst hstem
  have hnumber := congrArg (Nat.ofDigitChars 10 · 0) (List.append_cancel_left hchars)
  simp only [Nat.ofDigitChars_toDigits (by decide : 1 < 10) (by decide)] at hnumber
  rw [hnumber]

/-- The lines with the text of a label. -/
theorem Line.text_eq_label_iff {line : Line} (hl : l.stem ∈ stems)
    (hline : ∀ k, line.label? = some k → k.stem ∈ stems) :
    line.text = (Line.label l).text ↔ line = .label l ∨ line = .entry l.text := by
  -- an entry is the only other line that ends as a label does
  cases line with
  | label k =>
    simp only [Line.text, Text.line, List.append_cancel_right_eq, Line.label.injEq, reduceCtorEq,
      or_false]
    exact ⟨Label.text_injective (hline k rfl) hl, fun h => h ▸ rfl⟩
  | entry name =>
    simp only [Line.text, Text.line, List.append_cancel_right_eq, Line.entry.injEq, reduceCtorEq,
      false_or]
  | instr i =>
    refine iff_of_false (fun h => ?_) (by simp)
    cases (List.cons.inj h).1
  | global name =>
    refine iff_of_false (fun h => ?_) (by simp)
    cases (List.cons.inj (List.cons.inj h).2).1

/-- A label is placed as often as its line stands in the code. -/
theorem count_placed (l : Label) (code : List Line) :
    (placed code).count l = code.count (.label l) := by
  induction code with
  | nil => rfl
  | cons line code ih =>
    cases line with
    | label k => simp [List.count_cons, ih]
    | _ =>
      rw [List.count_cons_of_ne (by simp)]
      exact ih

/-- How often the text of a label stands in a listing. -/
theorem count_text (hl : l.stem ∈ stems) (hcode : ∀ k ∈ placed code, k.stem ∈ stems) :
    (code.map Line.text).count (Line.label l).text =
      code.count (.label l) + code.count (.entry l.text) := by
  induction code with
  | nil => rfl
  | cons line code ih =>
    have hrest : ∀ k ∈ placed code, k.stem ∈ stems := fun k hk => by
      rw [mem_placed] at hk
      exact hcode k (mem_placed.mpr (List.mem_cons_of_mem _ hk))
    have hline : ∀ k, line.label? = some k → k.stem ∈ stems := fun k hk =>
      hcode k (List.mem_filterMap.mpr ⟨line, List.mem_cons_self, hk⟩)
    have htext := Line.text_eq_label_iff hl hline
    rw [List.map_cons, List.count_cons, List.count_cons, List.count_cons, ih hrest]
    -- each line counts on both sides at once, as a label or as an entry
    simp only [beq_iff_eq]
    by_cases hlabel : line = .label l
    · have hentry : line ≠ .entry l.text := by simp [hlabel]
      rw [if_pos (htext.mpr (.inl hlabel)), if_pos hlabel, if_neg hentry]
      omega
    by_cases hentry : line = .entry l.text
    · rw [if_pos (htext.mpr (.inr hentry)), if_neg hlabel, if_pos hentry]
      omega
    · rw [if_neg fun h => (htext.mp h).elim hlabel hentry, if_neg hlabel, if_neg hentry]
      omega

end Texts

/-! ## §7 The main result -/

/-- **Branches find their labels.** In the code of a node, and in the texts of its lines:

* every label is placed once, unless a function bears its very name;
* every branch goes to a label of the listing;
* wherever the code of a node stands, a branch in it goes to a label in it, and the label is not
  placed anywhere else;
* the code of every node that lies in the node, a function or a statement of its own among them,
  stands somewhere. -/
theorem branches_resolve (x : Node) (c : Context) (code : List Line)
    (hemit : emitTop x = ⟨code, .ok ((), c)⟩) :
    (∀ l, .label l ∈ code →
      (code.map Line.text).count (Line.label l).text = 1 + code.count (.entry l.text)) ∧
    (∀ cond l, .instr (.branch cond l) ∈ code → .label l ∈ code) ∧
    (∀ (y : Node) (d d' : Context) (before part rest : List Line),
      emit y d = ⟨part, .ok ((), d')⟩ → code = before ++ part ++ rest →
      ∀ cond l, .instr (.branch cond l) ∈ part → .label l ∈ part ∧ .label l ∉ before ++ rest) ∧
    ∀ y : Node, y.LiesIn x → ∃ before part rest d d',
      code = before ++ part ++ rest ∧ emit y d = ⟨part, .ok ((), d')⟩ := by
  have hclosed : Closed 0 code c.labels := closes_emit x .top code c hemit
  have honce : ∀ l, .label l ∈ code → code.count (.label l) = 1 := fun l hl => by
    rw [← count_placed]
    exact List.count_eq_one_of_mem hclosed.numbered.nodup (mem_placed.mpr hl)
  refine ⟨fun l hl => ?_, fun cond l hbranch => ?_, fun y d d' before part rest hy hcode cond l
    hbranch => ?_, fun y hy => Contains.inside hy .top code () c hemit⟩
  · rw [count_text (hclosed.stem l (mem_placed.mpr hl)) hclosed.stem, honce l hl]
  · exact mem_placed.mp (hclosed.resolved l (mem_targets hbranch))
  · have hpart : Closed d.labels part d'.labels := closes_emit y d part d' hy
    have hmem := mem_placed.mp (hpart.resolved l (mem_targets hbranch))
    refine ⟨hmem, fun hother => ?_⟩
    -- elsewhere it would be placed a second time
    have hcount := honce l (by simp [hcode, hmem])
    have hmany : 0 < part.count (.label l) := List.count_pos_iff.mpr hmem
    have hmore : 0 < (before ++ rest).count (.label l) := List.count_pos_iff.mpr hother
    rw [hcode, List.count_append, List.count_append] at hcount
    rw [List.count_append] at hmore
    omega

end Assembly

end Scriptlet
