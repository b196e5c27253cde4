import Scriptlet.Proofs.Branches

/-!
# Branches in the text of a listing

An assembler reads a listing line by line. A line that ends with a colon defines what stands in
front of it, and a line with one of the mnemonics of branches goes to what stands behind it. Names
of functions go into the text as they are, and a name with a blank or a line end in it could make a
line look like anything. As long as there is none, every line of code is one line of the text and
can be told from it, so what holds of branches and labels in code holds of the text.

## Contents

- §1 lines of texts
- §2 names in nodes
- §3 what lines are made of
- §4 lines in the text
- §5 what a line of text says
- §6 the main result
-/

namespace Scriptlet

/-! ## §1 Lines of texts -/

namespace Text

/-- A line in front of a text is the first of its lines. -/
theorem lines_line_append {t : Text} (h : newline ∉ t) (rest : Text) :
    lines (line t ++ rest) = (line t :: rest.lines.1, rest.lines.2) := by
  induction t with
  | nil =>
    show lines (newline :: rest) = _
    rw [lines]
    split
    next hrest => simp [hrest, line]
    next hrest => simp [hrest, line]
  | cons b t ih =>
    obtain ⟨hb, ht⟩ := not_or.mp (mt List.mem_cons.mpr h)
    show lines (b :: (line t ++ rest)) = _
    rw [lines, ih ht]
    simp [line, Ne.symm hb]

/-- The text has no blank and no line end. -/
def IsSolid (t : Text) : Prop := 32 ∉ t ∧ newline ∉ t

instance (t : Text) : Decidable (IsSolid t) := inferInstanceAs (Decidable (_ ∧ _))

/-- What stands in front of the first blank is told by the text. -/
theorem eq_of_blank {a b t u : Text} (ha : 32 ∉ a) (hb : 32 ∉ b)
    (h : a ++ " " ++ t = b ++ " " ++ u) : a = b ∧ t = u := by
  have hcut : ∀ {a : Text} (t : Text), (32 : UInt8) ∉ a →
      (a ++ " " ++ t).takeWhile (· != 32) = a := by
    intro a t ha
    rw [List.append_assoc, List.takeWhile_append_of_pos fun b hb => by
      simpa using fun h : b = 32 => ha (h ▸ hb)]
    exact List.append_nil a
  have hfirst : a = b := by rw [← hcut t ha, h, hcut u hb]
  subst hfirst
  exact ⟨rfl, List.append_cancel_left h⟩

end Text

/-! ## §2 Names in nodes -/

namespace Node

mutual

/-- The nodes that lie somewhere in a node, without the node itself. -/
def inner : Node → List Node
  | .missing | .number _ _ | .string _ _ | .ident _ _ | .prototype _ _ _ => []
  | .unary _ x _ | .giveBack x _ | .declare _ x _ | .assign _ x _ | .assert x _ => x :: inner x
  | .binary _ x y _ | .loop x y _ => x :: inner x ++ y :: inner y
  | .choice x y z _ => x :: inner x ++ y :: inner y ++ z :: inner z
  | .call _ xs _ | .block xs _ | .function _ _ xs _ _ | .main xs _ => innerAll xs

def innerAll : List Node → List Node
  | [] => []
  | x :: xs => x :: inner x ++ innerAll xs

end

/-- The name of the function that a node is, if it is one. -/
def functionName? : Node → Option Text
  | .function name _ _ _ _ | .prototype name _ _ => some name
  | _ => none

/-- The name of what a node calls, if it is a call. -/
def calleeName? : Node → Option Text
  | .call callee _ _ => some callee
  | _ => none

/-- The names that the functions in a node bear. -/
def functionNames (x : Node) : List Text := (x :: x.inner).filterMap functionName?

/-- The names of what is called in a node. -/
def calleeNames (x : Node) : List Text := (x :: x.inner).filterMap calleeName?

variable {x y : Node}

/-- The nodes inside a member are inside the list. -/
theorem subset_innerAll {xs : List Node} (h : y ∈ xs) : y :: y.inner ⊆ innerAll xs := by
  induction xs with
  | nil => cases h
  | cons x xs ih =>
    rw [innerAll]
    rcases List.mem_cons.mp h with rfl | h
    · exact List.subset_append_left _ _
    · exact List.Subset.trans (ih h) (List.subset_append_right _ _)

/-- Whatever lies in a part lies in the whole. -/
theorem subset_inner (h : y ∈ x.parts) : y :: y.inner ⊆ x.inner := by
  cases x with
  | missing | number | string | ident | prototype => cases h
  | unary | giveBack | declare | assign | assert =>
    obtain rfl := List.mem_singleton.mp h
    exact List.Subset.refl _
  | call | block | function | main => exact subset_innerAll h
  | binary | loop =>
    simp only [parts, List.mem_cons, List.not_mem_nil, or_false] at h
    rcases h with rfl | rfl
    · exact List.subset_append_left _ _
    · exact List.subset_append_right _ _
  | choice =>
    simp only [parts, List.mem_cons, List.not_mem_nil, or_false] at h
    rcases h with rfl | rfl | rfl
    · exact List.Subset.trans (List.subset_append_left _ _) (List.subset_append_left _ _)
    · exact List.Subset.trans (List.subset_append_right _ _) (List.subset_append_left _ _)
    · exact List.subset_append_right _ _

/-- The parts of a node are smaller than it. -/
theorem sizeOf_lt_of_mem_parts (h : y ∈ x.parts) : sizeOf y < sizeOf x := by
  cases x with
  | missing | number | string | ident | prototype => cases h
  | unary | giveBack | declare | assign | assert =>
    obtain rfl := List.mem_singleton.mp h
    simp; omega
  | call | block | function | main =>
    have := List.sizeOf_lt_of_mem h
    simp [parts] at this ⊢; omega
  | binary | loop =>
    simp only [parts, List.mem_cons, List.not_mem_nil, or_false] at h
    rcases h with rfl | rfl <;> (simp; omega)
  | choice =>
    simp only [parts, List.mem_cons, List.not_mem_nil, or_false] at h
    rcases h with rfl | rfl | rfl <;> (simp; omega)

end Node

namespace Assembly

/-! ## §3 What lines are made of -/

/-- The instruction calls one of the functions, and shows none but known labels and characters. -/
def Instr.IsProper (callees : List Text) : Instr → Prop
  | .branch _ l => l.stem ∈ stems
  | .call name => name ∈ callees
  | .move _ _ src | .compare _ src | .arith _ _ _ src => src ≠ .char '\n'
  | _ => True

/-- The line is proper, with functions of its own and others. -/
def Line.IsProper (functions callees : List Text) : Line → Prop
  | .instr i => i.IsProper callees
  | .label l => l.stem ∈ stems
  | .global name | .entry name => name ∈ functions

/-- Where the production succeeds, all its lines are proper. -/
def Writes {α : Type} (functions callees : List Text) (m : Emit α) : Prop :=
  ∀ c code a c', m.Gives c code a c' → ∀ line ∈ code, line.IsProper functions callees

namespace Writes

variable {α β : Type} {functions callees : List Text} {m : Emit α} {f : α → Emit β} {x : Node}
  {loc : Location}

theorem constant (a : α) : Writes functions callees (Emit.constant a) := by
  intro c code b c' h
  obtain ⟨rfl, -, -⟩ := Emit.gives_constant.mp h
  exact List.forall_mem_nil _

theorem refuse (fault : EmitFault) : Writes functions callees (Emit.refuse fault loc : Emit α) :=
  fun _ _ _ _ h => (Emit.gives_refuse.mp h).elim

/-- Productions that write proper lines do so one behind the other. -/
theorem bind (hm : Writes functions callees m) (hf : ∀ a, Writes functions callees (f a)) :
    Writes functions callees (m >>= f) := by
  intro c code b c' h
  obtain ⟨code₁, a, c₁, ha, code₂, hb, rfl⟩ := Emit.gives_bind.mp h
  exact List.forall_mem_append.mpr ⟨hm c code₁ a c₁ ha, hf a c₁ code₂ b c' hb⟩

/-- Lines are written as they are. -/
theorem lines {ls : List Line} (h : ∀ line ∈ ls, line.IsProper functions callees) :
    Writes functions callees (Emit.lines ls) := by
  intro c code u c' hgives
  obtain ⟨rfl, -⟩ := Emit.gives_lines.mp hgives
  exact h

/-- Instructions are written as they are. -/
theorem instrs {is : List Instr} (h : ∀ i ∈ is, i.IsProper callees) :
    Writes functions callees (Emit.instrs is) :=
  lines (List.forall_mem_map.mpr h)

/-- A label that is taken has the stem that was asked for. -/
theorem label {stem : Text} {f : Label → Emit β}
    (hf : ∀ n, Writes functions callees (f ⟨stem, n⟩)) :
    Writes functions callees (Emit.label stem >>= f) :=
  fun _ code b c' h => hf _ _ code b c' (Emit.gives_label_bind.mp h)

theorem layout {f : Option Layout → Emit β} (hf : ∀ l, Writes functions callees (f l)) :
    Writes functions callees (Emit.layout >>= f) :=
  fun c code b c' h => hf c.layout c code b c' (Emit.gives_layout_bind.mp h)

theorem setLayout (l : Option Layout) : Writes functions callees (Emit.setLayout l) := by
  intro c code u c' h
  obtain ⟨rfl, -⟩ := Emit.gives_setLayout.mp h
  exact List.forall_mem_nil _

/-- Offsets are looked up and nothing is written. -/
theorem offsetOf (name : Text) : Writes functions callees (Emit.offsetOf name loc) := by
  unfold Emit.offsetOf
  refine layout fun l => ?_
  cases l with
  | none => exact refuse _
  | some l =>
    simp only
    split
    · exact constant _
    · exact refuse _

section Nodes

attribute [local simp] Instr.IsProper Line.IsProper

theorem number (v : Float) : Writes functions callees (Emit.number v loc) := by
  unfold Emit.number
  split
  · split
    · exact instrs (by simp)
    · exact refuse _
  · exact refuse _

theorem unary (op : UnaryOp) : Writes functions callees (Emit.unary op loc) := by
  cases op with
  | unknown => exact refuse _
  | _ => exact instrs (by simp [Emit.truthValue])

theorem binary (op : BinaryOp) : Writes functions callees (Emit.binary op loc) := by
  cases op with
  | power | and | or | unknown => exact refuse _
  | _ => exact instrs (by simp [Emit.truthValue])

/-- A branch on a comparison goes to a label with a stem. -/
theorem shortcut (cond : Cond) {l : Label} (h : l.stem ∈ stems) :
    Writes functions callees (Emit.shortcut cond l) := instrs (by simp [h])

/-- A function's first lines bear its name. -/
theorem opening {name : Text} (h : name ∈ functions) :
    Writes functions callees (Emit.opening name) :=
  (lines (by simp [h])).bind fun _ => instrs (by simp)

theorem leave : Writes functions callees Emit.leave := instrs (by simp)

theorem closing : Writes functions callees Emit.closing := (instrs (by simp)).bind fun _ => leave

theorem reserveLocals (l : Layout) : Writes functions callees (Emit.reserveLocals l) := by
  unfold Emit.reserveLocals
  split
  · exact instrs (by simp)
  · exact constant _

/-- The code of statements is theirs, one after the other. -/
theorem statements {xs : List Node} (h : ∀ x ∈ xs, Writes functions callees (emit x)) :
    Writes functions callees (emitAll xs) := by
  induction xs with
  | nil =>
    rw [emitAll]
    exact constant _
  | cons x xs ih =>
    obtain ⟨hx, hxs⟩ := List.forall_mem_cons.mp h
    rw [emitAll]
    exact hx.bind fun _ => ih hxs

/-- The code of arguments is theirs, each stored in turn. -/
theorem arguments {xs : List Node} (h : ∀ x ∈ xs, Writes functions callees (emit x)) (i : Nat) :
    Writes functions callees (emitArgs i xs) := by
  induction xs generalizing i with
  | nil =>
    rw [emitArgs]
    exact constant _
  | cons x xs ih =>
    obtain ⟨hx, hxs⟩ := List.forall_mem_cons.mp h
    rw [emitArgs]
    exact hx.bind fun _ => (instrs (by simp)).bind fun _ => ih hxs (i + 1)

variable {y z : Node}

/-- Operators write their operands' code, whichever of their forms they have. -/
theorem operation (op : BinaryOp) (hx : Writes functions callees (emit x))
    (hy : Writes functions callees (emit y)) :
    Writes functions callees (emit (.binary op x y loc)) := by
  cases hop : logical? op with
  | some p =>
    rw [emit_logical hop]
    refine label fun n => label fun m => hx.bind fun _ => (shortcut _ (by simp [stems])).bind
      fun _ => hy.bind fun _ => (shortcut _ (by simp [stems])).bind fun _ => ?_
    exact (instrs (by simp [stems, truthImm])).bind fun _ => lines (by simp [stems, truthImm])
  | none =>
    by_cases hpower : op = .power
    · subst hpower
      rw [emit]
      exact refuse _
    · rw [emit_operands hop hpower]
      exact hx.bind fun _ => (instrs (by simp)).bind fun _ => hy.bind fun _ =>
        (instrs (by simp)).bind fun _ => binary op

/-- A choice writes its two labels and its parts. -/
theorem choice (hx : Writes functions callees (emit x)) (hy : Writes functions callees (emit y))
    (hz : Writes functions callees (emit z)) :
    Writes functions callees (emit (.choice x y z loc)) := by
  rw [emit]
  refine label fun n => label fun m => hx.bind fun _ => (shortcut _ (by simp [stems])).bind
    fun _ => hy.bind fun _ => (instrs (by simp [stems])).bind fun _ => ?_
  exact (lines (by simp [stems])).bind fun _ => hz.bind fun _ => lines (by simp [stems])

/-- A loop writes its two labels and its parts. -/
theorem loop (hx : Writes functions callees (emit x)) (hy : Writes functions callees (emit y)) :
    Writes functions callees (emit (.loop x y loc)) := by
  rw [emit]
  refine label fun n => label fun m => (lines (by simp [stems])).bind fun _ => hx.bind fun _ =>
    (shortcut _ (by simp [stems])).bind fun _ => hy.bind fun _ => ?_
  exact (instrs (by simp [stems])).bind fun _ => lines (by simp [stems])

/-- A call branches to its callee, and writes the code of its arguments. -/
theorem call {callee : Text} {args : List Node} (hname : callee ∈ callees)
    (h : ∀ x ∈ args, Writes functions callees (emit x)) :
    Writes functions callees (emit (.call callee args loc)) := by
  have hargs := arguments h 0
  cases args with
  | nil =>
    rw [emit]
    exact instrs (by simp [hname])
  | cons x xs =>
    rw [emit]
    split
    · exact refuse _
    · exact (instrs (by simp)).bind fun _ => hargs.bind fun _ => instrs (by simp [hname])

theorem giveBack (hx : Writes functions callees (emit x)) :
    Writes functions callees (emit (.giveBack x loc)) := by
  rw [emit]
  refine layout fun l => ?_
  cases l with
  | none => exact refuse _
  | some l =>
    simp only
    split
    · exact (instrs (by simp)).bind fun _ => leave
    · exact hx.bind fun _ => leave

theorem declare (name : Text) (hx : Writes functions callees (emit x)) :
    Writes functions callees (emit (.declare name x loc)) := by
  rw [emit]
  refine layout fun l => ?_
  cases l with
  | none => exact refuse _
  | some l =>
    refine hx.bind fun _ => layout fun l => ?_
    cases l with
    | none => exact refuse _
    | some l => exact (setLayout _).bind fun _ => instrs (by simp)

/-- A function bears its name, and writes the code of its body. -/
theorem function {name : Text} (params : List Text) {body : List Node} (bodyLoc : Location)
    (hname : name ∈ functions) (h : ∀ x ∈ body, Writes functions callees (emit x)) :
    Writes functions callees (emit (.function name params body bodyLoc loc)) := by
  rw [emit]
  refine layout fun l => ?_
  cases l with
  | some l => exact refuse _
  | none =>
    simp only
    split
    · exact refuse _
    · refine (opening hname).bind fun _ => (instrs (by simp)).bind fun _ => (reserveLocals _).bind
        fun _ => (setLayout _).bind fun _ => (statements h).bind fun _ => ?_
      exact closing.bind fun _ => setLayout _

/-- A prototype bears its name and has no body. -/
theorem prototype {name : Text} (params : List Text) (hname : name ∈ functions) :
    Writes functions callees (emit (.prototype name params loc)) := by
  rw [emit]
  refine layout fun l => ?_
  cases l with
  | some l => exact refuse _
  | none =>
    simp only
    split
    · exact refuse _
    · exact (opening hname).bind fun _ => (instrs (by simp)).bind fun _ => closing

/-- The entry point bears the name of the program's start. -/
theorem main {stmts : List Node} (hmain : ("main" : Text) ∈ functions)
    (h : ∀ x ∈ stmts, Writes functions callees (emit x)) :
    Writes functions callees (emit (.main stmts loc)) := by
  rw [emit]
  refine layout fun l => ?_
  cases l with
  | some l => exact refuse _
  | none =>
    refine (opening hmain).bind fun _ => (reserveLocals _).bind fun _ => (setLayout _).bind fun _ =>
      (statements h).bind fun _ => ?_
    exact closing.bind fun _ => setLayout _

/-- A node whose parts have proper lines has them too, if its own names are among the names. -/
theorem node (hfunction : ∀ name ∈ x.functionName?, name ∈ functions)
    (hcallee : ∀ name ∈ x.calleeName?, name ∈ callees)
    (hmain : ("main" : Text) ∈ functions) (hputchar : ("putchar" : Text) ∈ callees)
    (h : ∀ y ∈ x.parts, Writes functions callees (emit y)) :
    Writes functions callees (emit x) := by
  cases x with
  | missing =>
    rw [emit]
    exact constant _
  | number v loc =>
    rw [emit]
    exact number v
  | string t loc =>
    rw [emit]
    exact refuse _
  | ident name loc =>
    rw [emit]
    exact (offsetOf name).bind fun off => instrs (by simp)
  | unary op x loc =>
    rw [emit]
    exact (h x (by simp [Node.parts])).bind fun _ => unary op
  | binary op x y loc =>
    exact operation op (h x (by simp [Node.parts])) (h y (by simp [Node.parts]))
  | call callee args loc => exact call (hcallee callee rfl) h
  | giveBack x loc => exact giveBack (h x (by simp [Node.parts]))
  | block stmts loc =>
    rw [emit]
    exact statements h
  | choice x y z loc =>
    exact choice (h x (by simp [Node.parts])) (h y (by simp [Node.parts]))
      (h z (by simp [Node.parts]))
  | loop x y loc => exact loop (h x (by simp [Node.parts])) (h y (by simp [Node.parts]))
  | declare name x loc => exact declare name (h x (by simp [Node.parts]))
  | assign name x loc =>
    rw [emit]
    exact (offsetOf name).bind fun off => (h x (by simp [Node.parts])).bind fun _ =>
      instrs (by simp)
  | function name params body bodyLoc loc => exact function params bodyLoc (hfunction name rfl) h
  | prototype name params loc => exact prototype params (hfunction name rfl)
  | main stmts loc => exact main hmain h
  | assert x loc =>
    rw [emit]
    exact (h x (by simp [Node.parts])).bind fun _ => instrs (by simp [hputchar])

end Nodes

/-- **The lines of every node are proper.** Their names are those of the functions and callees in
the node, of the main function, and of what prints marks. -/
theorem emit_of_names (hmain : ("main" : Text) ∈ functions)
    (hputchar : ("putchar" : Text) ∈ callees) (x : Node) (hfunctions : x.functionNames ⊆ functions) (hcallees : x.calleeNames ⊆ callees) :
    Writes functions callees (emit x) := by
  refine node (fun name h => hfunctions (List.mem_filterMap.mpr ⟨x, List.mem_cons_self, h⟩))
    (fun name h => hcallees (List.mem_filterMap.mpr ⟨x, List.mem_cons_self, h⟩)) hmain hputchar
    fun y hy => ?_
  have hinner : y :: y.inner ⊆ x :: x.inner :=
    List.Subset.trans (Node.subset_inner hy) (List.subset_cons_self _ _)
  exact emit_of_names hmain hputchar y
    (List.Subset.trans (List.filterMap_subset _ hinner) hfunctions)
    (List.Subset.trans (List.filterMap_subset _ hinner) hcallees)
termination_by sizeOf x
decreasing_by exact Node.sizeOf_lt_of_mem_parts hy

end Writes

/-! ## §4 Lines in the text -/

section Lines

/-- Texts without a line end, joined by one without, have none. -/
theorem newline_not_mem_join {sep : Text} {parts : List Text} (hsep : Text.newline ∉ sep)
    (h : ∀ t ∈ parts, Text.newline ∉ t) : Text.newline ∉ Text.join sep parts := by
  induction parts with
  | nil => simp [Text.join]
  | cons t parts ih =>
    obtain ⟨ht, hparts⟩ := List.forall_mem_cons.mp h
    cases parts with
    | nil => exact ht
    | cons u parts =>
      have hrest := ih hparts
      simp only [Text.join, List.mem_append, not_or] at hrest ⊢
      exact ⟨⟨ht, hsep⟩, hrest⟩

/-- Digits are no line ends. -/
theorem newline_not_mem_ofNat (n : Nat) : Text.newline ∉ Text.ofNat n :=
  Text.newline_not_mem_ofChars fun h =>
    absurd (Nat.isDigit_of_mem_toDigits (by decide) (by decide) h) (by decide)

theorem newline_not_mem_ofInt (n : Int) : Text.newline ∉ Text.ofInt n := by
  cases n with
  | ofNat n => exact newline_not_mem_ofNat n
  | negSucc n =>
    rw [Text.ofInt, List.mem_append, not_or]
    exact ⟨by decide, newline_not_mem_ofNat _⟩

theorem newline_not_mem_reg (r : Reg) : Text.newline ∉ r.name := by cases r <;> decide

theorem newline_not_mem_regList (rs : List Reg) : Text.newline ∉ regList rs := by
  rw [regList, List.mem_append, List.mem_append, not_or, not_or]
  refine ⟨⟨by decide, newline_not_mem_join (by decide) fun t ht => ?_⟩, by decide⟩
  obtain ⟨r, -, rfl⟩ := List.mem_map.mp ht
  exact newline_not_mem_reg r

theorem newline_not_mem_address (base : Reg) (offset : Int) :
    Text.newline ∉ address base offset := by
  simp only [address, List.mem_append, not_or]
  exact ⟨⟨⟨⟨by decide, newline_not_mem_reg base⟩, by decide⟩, newline_not_mem_ofInt offset⟩,
    by decide⟩

/-- An operand has no line end, unless it is that very character. -/
theorem newline_not_mem_operand {src : Operand} (h : src ≠ .char '\n') :
    Text.newline ∉ src.text := by
  cases src with
  | reg r => exact newline_not_mem_reg r
  | imm n =>
    rw [Operand.text, List.mem_append, not_or]
    exact ⟨by decide, newline_not_mem_ofInt n⟩
  | char c =>
    simp only [Operand.text, List.mem_append, not_or]
    exact ⟨⟨by decide, fun hc => h (congrArg _ (Text.eq_newline_of_mem hc))⟩, by decide⟩

/-- A label has no line end, for its stem has none. -/
theorem newline_not_mem_label {l : Label} (h : l.stem ∈ stems) : Text.newline ∉ l.text := by
  have hstem : ∀ t ∈ stems, Text.newline ∉ t := by decide
  rw [Label.text, List.mem_append, List.mem_append, not_or, not_or]
  exact ⟨⟨by decide, hstem _ h⟩, newline_not_mem_ofNat _⟩

/-- What an instruction does. -/
def Instr.mnemonic : Instr → Text
  | .literal _ _ | .load _ _ _ => "ldr"
  | .store _ _ _ => "str"
  | .push _ => "push"
  | .pop _ => "pop"
  | .move cond _ _ => "mov" ++ cond.suffix
  | .compare _ _ => "cmp"
  | .arith op _ _ _ => op.name
  | .mls _ _ _ _ => "mls"
  | .branch cond _ => "b" ++ cond.suffix
  | .call _ => "bl"

/-- What an instruction does it with. -/
def Instr.operands : Instr → List Text
  | .literal dst n => [dst.name, "=" ++ Text.ofInt n]
  | .load r base offset | .store r base offset => [r.name, address base offset]
  | .push rs | .pop rs => [regList rs]
  | .move _ r src | .compare r src => [r.name, src.text]
  | .arith _ dst a b => [dst.name, a.name, b.text]
  | .mls dst a b c => [dst.name, a.name, b.name, c.name]
  | .branch _ target => [target.text]
  | .call name => [name]

/-- An instruction's text is its mnemonic and its operands. -/
theorem Instr.text_eq (i : Instr) : i.text = instrText i.mnemonic i.operands := by
  cases i <;> rfl

theorem Instr.isSolid_mnemonic (i : Instr) : i.mnemonic.IsSolid := by
  cases i with
  | move cond | branch cond => cases cond <;> exact of_decide_eq_true rfl
  | arith op => cases op <;> exact of_decide_eq_true rfl
  | _ => exact of_decide_eq_true rfl

variable {functions callees : List Text}

/-- The operands of a proper instruction have no line end, where callees are solid. -/
theorem Instr.newline_not_mem_operands {i : Instr} (h : i.IsProper callees)
    (hcallees : ∀ name ∈ callees, name.IsSolid) : ∀ t ∈ i.operands, Text.newline ∉ t := by
  have hliteral : ∀ n, Text.newline ∉ ("=" : Text) ++ Text.ofInt n := fun n => by
    rw [List.mem_append, not_or]
    exact ⟨by decide, newline_not_mem_ofInt n⟩
  cases i with
  | literal dst n => simp [operands, newline_not_mem_reg, hliteral]
  | load | store => simp [operands, newline_not_mem_reg, newline_not_mem_address]
  | push | pop => simp [operands, newline_not_mem_regList]
  | move | compare | arith =>
    simp [operands, newline_not_mem_reg, newline_not_mem_operand h]
  | mls => simp [operands, newline_not_mem_reg]
  | branch cond l => simp [operands, newline_not_mem_label h]
  | call name => simp [operands, (hcallees name h).2]

/-- A proper line with solid names is one line of text. -/
theorem Line.exists_line {line : Line} (h : line.IsProper functions callees)
    (hfunctions : ∀ name ∈ functions, name.IsSolid) (hcallees : ∀ name ∈ callees, name.IsSolid) :
    ∃ t : Text, Text.newline ∉ t ∧ line.text = t.line := by
  cases line with
  | instr i =>
    refine ⟨_, ?_, rfl⟩
    have hoperands := Instr.newline_not_mem_operands h hcallees
    have hjoin : Text.newline ∉ Text.join ", " i.operands :=
      newline_not_mem_join (by decide) hoperands
    rw [Instr.text_eq, instrText]
    simp only [List.mem_append, not_or]
    exact ⟨by decide, ⟨i.isSolid_mnemonic.2, by decide⟩, hjoin⟩
  | label l =>
    refine ⟨_, ?_, rfl⟩
    rw [List.mem_append, not_or]
    exact ⟨newline_not_mem_label h, by decide⟩
  | global name =>
    refine ⟨_, ?_, rfl⟩
    rw [List.mem_append, not_or]
    exact ⟨by decide, (hfunctions name h).2⟩
  | entry name =>
    refine ⟨_, ?_, rfl⟩
    rw [List.mem_append, not_or]
    exact ⟨(hfunctions name h).2, by decide⟩

/-- The lines of a listing are the texts of the lines of its code. -/
theorem lines_listing {code : List Line} (h : ∀ line ∈ code, line.IsProper functions callees)
    (hfunctions : ∀ name ∈ functions, name.IsSolid) (hcallees : ∀ name ∈ callees, name.IsSolid) :
    (listing code).lines = (code.map Line.text, []) := by
  induction code with
  | nil => rfl
  | cons line code ih =>
    obtain ⟨hline, hcode⟩ := List.forall_mem_cons.mp h
    obtain ⟨t, ht, htext⟩ := line.exists_line hline hfunctions hcallees
    rw [listing, List.flatMap_cons, htext, Text.lines_line_append ht, ← listing, ih hcode,
      List.map_cons, htext]

end Lines

/-! ## §5 What a line of text says -/

/-- The line that defines a label. -/
def labelLine (t : Text) : Text := Text.line (t ++ ":")

/-- The mnemonics of branches. -/
def branchMnemonics : List Text := ["b", "beq", "bne"]

/-- The line that branches to a label. -/
def branchLine (mnemonic t : Text) : Text := Text.line ("  " ++ mnemonic ++ " " ++ t)

section Saying

variable {functions callees : List Text} {line : Line} {m t : Text}

/-- Only branches have the mnemonics of branches. -/
theorem Instr.exists_branch {i : Instr} (h : i.mnemonic ∈ branchMnemonics) :
    ∃ cond l, i = .branch cond l := by
  cases i with
  | branch cond l => exact ⟨cond, l, rfl⟩
  | move cond => cases cond <;> exact absurd h (of_decide_eq_true rfl)
  | arith op => cases op <;> exact absurd h (of_decide_eq_true rfl)
  | _ => exact absurd h (of_decide_eq_true rfl)

/-- A name without blanks at the start of a line is no indentation. -/
theorem not_blank_of_isSolid {name rest more : Text} (h : name.IsSolid) :
    name ++ (":" ++ rest) ≠ 32 :: more := by
  intro heq
  cases name with
  | nil => cases (List.cons.inj heq).1
  | cons b name =>
    obtain rfl := (List.cons.inj heq).1
    exact h.1 List.mem_cons_self

/-- A line of text that branches is that of a branch. -/
theorem Line.eq_branch (hline : line.IsProper functions callees)
    (hfunctions : ∀ name ∈ functions, name.IsSolid) (hm : m ∈ branchMnemonics)
    (h : line.text = branchLine m t) : ∃ cond l, line = .instr (.branch cond l) ∧ t = l.text := by
  have hsolid : (32 : UInt8) ∉ m := by
    have hall : ∀ m ∈ branchMnemonics, m.IsSolid := by decide
    exact (hall m hm).1
  cases line with
  | instr i =>
    have htext : i.mnemonic ++ " " ++ Text.join ", " i.operands = m ++ " " ++ t := by
      have hcut := List.append_cancel_right h
      rw [List.append_assoc, List.append_assoc] at hcut
      have hcut := List.append_cancel_left hcut
      rwa [Instr.text_eq, instrText, ← List.append_assoc] at hcut
    obtain ⟨rfl, rfl⟩ := Text.eq_of_blank i.isSolid_mnemonic.1 hsolid htext
    obtain ⟨cond, l, rfl⟩ := Instr.exists_branch hm
    exact ⟨cond, l, rfl, rfl⟩
  | label l => cases (List.cons.inj h).1
  | global name => cases (List.cons.inj h).1
  | entry name =>
    have heq : name ++ (":" ++ [Text.newline]) = branchLine m t := by
      rw [← h, Line.text, Text.line, List.append_assoc]
    exact absurd heq (not_blank_of_isSolid (hfunctions name hline))

/-- A line of text that defines a local label is that of a label, or of a function with its name. -/
theorem Line.eq_label (ht : (".L" : Text) <+: t) (h : line.text = labelLine t) :
    (∃ l, line = .label l ∧ t = l.text) ∨ line = .entry t := by
  obtain ⟨rest, rfl⟩ := ht
  cases line with
  | instr i => cases (List.cons.inj h).1
  | global name => cases (List.cons.inj (List.cons.inj h).2).1
  | label l => exact .inl ⟨l, rfl, (List.append_cancel_right (List.append_cancel_right h)).symm⟩
  | entry name =>
    rw [List.append_cancel_right (List.append_cancel_right h)]
    exact .inr rfl

end Saying

/-! ## §6 The main result -/

/-- Code whose lines are proper, with the names of a node, and these are solid. -/
structure Legible (x : Node) (code : List Line) : Prop where
  proper : ∀ line ∈ code, line.IsProper ("main" :: x.functionNames) ("putchar" :: x.calleeNames)
  functions : ∀ name ∈ ("main" : Text) :: x.functionNames, name.IsSolid
  callees : ∀ name ∈ ("putchar" : Text) :: x.calleeNames, name.IsSolid

/-- The code of a tree is legible, where the names of its functions and callees are solid. -/
theorem legible_emitTop {x : Node} {c : Context} {code : List Line}
    (hemit : emitTop x = ⟨code, .ok ((), c)⟩)
    (hnames : ∀ name ∈ x.functionNames ++ x.calleeNames, name.IsSolid) : Legible x code := by
  obtain ⟨hfunctions, hcallees⟩ := List.forall_mem_append.mp hnames
  exact ⟨Writes.emit_of_names List.mem_cons_self List.mem_cons_self x (List.subset_cons_self _ _)
      (List.subset_cons_self _ _) .top code () c hemit,
    List.forall_mem_cons.mpr ⟨by decide, hfunctions⟩,
    List.forall_mem_cons.mpr ⟨by decide, hcallees⟩⟩

/-- Every label is local. -/
theorem Label.local_text (l : Label) : (".L" : Text) <+: l.text := by
  rw [Label.text, List.append_assoc]
  exact List.prefix_append _ _

namespace Legible

variable {x : Node} {code part : List Line} {m t : Text}

theorem of_subset (h : Legible x code) (hpart : part ⊆ code) : Legible x part :=
  ⟨fun line hline => h.proper line (hpart hline), h.functions, h.callees⟩

/-- The lines of a listing are the lines of the code, and nothing stands behind the last. -/
theorem lines_eq (h : Legible x code) : (listing code).lines = (code.map Line.text, []) :=
  lines_listing h.proper h.functions h.callees

/-- A line that branches is that of a branch in the code. -/
theorem exists_branch (h : Legible x code) (hm : m ∈ branchMnemonics)
    (hline : branchLine m t ∈ code.map Line.text) :
    ∃ cond l, .instr (.branch cond l) ∈ code ∧ t = l.text := by
  obtain ⟨line, hmem, htext⟩ := List.mem_map.mp hline
  obtain ⟨cond, l, rfl, rfl⟩ := line.eq_branch (h.proper line hmem) h.functions hm htext
  exact ⟨cond, l, hmem, rfl⟩

/-- The main function does not bear the name of a local label. -/
theorem entry_not_mem (h : Legible x code) (ht : (".L" : Text) <+: t)
    (hname : t ∉ x.functionNames) : .entry t ∉ code := by
  intro hmem
  rcases List.mem_cons.mp (h.proper _ hmem) with rfl | hfunction
  · exact absurd ht (by decide)
  · exact hname hfunction

/-- A line with a label of its own is that of a label, where no function bears the name. -/
theorem exists_label (h : Legible x code) (ht : (".L" : Text) <+: t) (hname : t ∉ x.functionNames)
    (hline : labelLine t ∈ code.map Line.text) : ∃ l, .label l ∈ code ∧ t = l.text := by
  obtain ⟨line, hmem, htext⟩ := List.mem_map.mp hline
  obtain ⟨l, rfl, rfl⟩ | rfl := Line.eq_label ht htext
  · exact ⟨l, hmem, rfl⟩
  · exact absurd hmem (h.entry_not_mem ht hname)

end Legible

/-- **Branches find their labels.** If the names of functions and callees in a node have no blanks
and no line ends, then in the lines of its listing:

* every local label is defined once, unless a function bears its very name;
* every branch goes to a local label that the listing defines;
* wherever the code of a node stands, a branch in its lines goes to a label that these define, and
  no line before or behind them does, unless a function bears that name;
* the code of every node that lies in the node, a function or a statement of its own among them,
  stands somewhere. -/
theorem listing_resolves (x : Node) (c : Context) (code : List Line)
    (hemit : emitTop x = ⟨code, .ok ((), c)⟩)
    (hnames : ∀ name ∈ x.functionNames ++ x.calleeNames, name.IsSolid) :
    (listing code).lines.2 = [] ∧
    (∀ t, (".L" : Text) <+: t → t ∉ x.functionNames → labelLine t ∈ (listing code).lines.1 →
      (listing code).lines.1.count (labelLine t) = 1) ∧
    (∀ m ∈ branchMnemonics, ∀ t, branchLine m t ∈ (listing code).lines.1 →
      (".L" : Text) <+: t ∧ labelLine t ∈ (listing code).lines.1) ∧
    (∀ (y : Node) (d d' : Context) (before part rest : List Line),
      emit y d = ⟨part, .ok ((), d')⟩ → code = before ++ part ++ rest →
      (listing code).lines.1 =
        (listing before).lines.1 ++ (listing part).lines.1 ++ (listing rest).lines.1 ∧
      ∀ m ∈ branchMnemonics, ∀ t, branchLine m t ∈ (listing part).lines.1 →
        labelLine t ∈ (listing part).lines.1 ∧
        (t ∉ x.functionNames →
          labelLine t ∉ (listing before).lines.1 ∧ labelLine t ∉ (listing rest).lines.1)) ∧
    ∀ y : Node, y.LiesIn x → ∃ before part rest d d',
      code = before ++ part ++ rest ∧ emit y d = ⟨part, .ok ((), d')⟩ := by
  obtain ⟨honce, hfinds, hparts, hinside⟩ := branches_resolve x c code hemit
  have hlegible := legible_emitTop hemit hnames
  have hcount : ∀ t, (".L" : Text) <+: t → t ∉ x.functionNames →
      labelLine t ∈ code.map Line.text → (code.map Line.text).count (labelLine t) = 1 := by
    intro t ht hname hline
    obtain ⟨l, hl, rfl⟩ := hlegible.exists_label ht hname hline
    have hentry := List.count_eq_zero_of_not_mem (hlegible.entry_not_mem ht hname)
    exact (honce l hl).trans (congrArg (1 + ·) hentry)
  rw [hlegible.lines_eq]
  refine ⟨rfl, hcount, fun m hm t hline => ?_, fun y d d' before part rest hy hcode => ?_, hinside⟩
  · obtain ⟨cond, l, hbranch, rfl⟩ := hlegible.exists_branch hm hline
    exact ⟨l.local_text, List.mem_map.mpr ⟨_, hfinds cond l hbranch, rfl⟩⟩
  -- the lines of the listing are those of its three stretches
  obtain ⟨hbefore, hpart, hrest⟩ : before ⊆ code ∧ part ⊆ code ∧ rest ⊆ code := by
    subst hcode
    simp
  rw [(hlegible.of_subset hbefore).lines_eq, (hlegible.of_subset hpart).lines_eq,
    (hlegible.of_subset hrest).lines_eq]
  refine ⟨by simp [hcode], fun m hm t hline => ?_⟩
  obtain ⟨cond, l, hbranch, rfl⟩ := (hlegible.of_subset hpart).exists_branch hm hline
  have hdefined : labelLine l.text ∈ part.map Line.text :=
    List.mem_map.mpr ⟨_, (hparts y d d' before part rest hy hcode cond l hbranch).1, rfl⟩
  refine ⟨hdefined, fun hname => ?_⟩
  -- elsewhere the label would be defined a second time
  have hone := hcount l.text l.local_text hname (by simp [hcode, hdefined])
  have hhere := List.count_pos_iff.mpr hdefined
  rw [hcode, List.map_append, List.map_append, List.count_append, List.count_append] at hone
  dsimp only
  exact ⟨List.count_eq_zero.mp (by omega), List.count_eq_zero.mp (by omega)⟩

/-- A function that repeats a choice as long as one of two things holds, and a choice behind it. -/
def branching : Node :=
  .block [
    .function "f" ["a", "b"] [
      .loop (.binary .or (.ident "a" .nowhere)
          (.binary .and (.ident "a" .nowhere) (.ident "b" .nowhere) .nowhere) .nowhere)
        (.choice (.ident "b" .nowhere)
          (.assign "b" (.ident "a" .nowhere) .nowhere) .missing .nowhere) .nowhere]
      .nowhere .nowhere,
    .choice (.call "f" [] .nowhere) (.block [] .nowhere) .missing .nowhere] .nowhere

theorem listing_resolves_branching :
    ∃ code c, emitTop branching = ⟨code, .ok ((), c)⟩ ∧
      (∀ name ∈ branching.functionNames ++ branching.calleeNames, name.IsSolid) ∧
      (placed code).length = 10 ∧
      (∀ t, (".L" : Text) <+: t → t ∉ branching.functionNames →
        labelLine t ∈ (listing code).lines.1 →
        (listing code).lines.1.count (labelLine t) = 1) ∧
      ∀ m ∈ branchMnemonics, ∀ t, branchLine m t ∈ (listing code).lines.1 →
        (".L" : Text) <+: t ∧ labelLine t ∈ (listing code).lines.1 := by
  have hnames : ∀ name ∈ branching.functionNames ++ branching.calleeNames, name.IsSolid := by decide
  have h := listing_resolves branching _ _ rfl hnames
  exact ⟨_, _, rfl, hnames, rfl, h.2.1, h.2.2.1⟩

/-- A function that bears the name of a label, and a choice that places the label. -/
def lookalike : Node :=
  .block [
    .function ".Lelse1" [] [] .nowhere .nowhere,
    .choice (.call "f" [] .nowhere) (.block [] .nowhere) (.block [] .nowhere) .nowhere] .nowhere

/-- A call whose name ends its line and begins one that branches. -/
def runaway : Node := .call "f\n  b .Lnowhere9" [] .nowhere

/-- Labels are not told from the names of functions, and names go into the text as they are. -/
theorem names_mislead :
    (∃ code c, emitTop lookalike = ⟨code, .ok ((), c)⟩ ∧
      (listing code).lines.1.count (labelLine ".Lelse1") = 2) ∧
    ∃ code c, emitTop runaway = ⟨code, .ok ((), c)⟩ ∧
      branchLine "b" ".Lnowhere9" ∈ (listing code).lines.1 ∧
      labelLine ".Lnowhere9" ∉ (listing code).lines.1 :=
  ⟨⟨_, _, rfl, by decide +kernel⟩, _, _, rfl, by decide +kernel, by decide +kernel⟩

end Assembly

end Scriptlet
