import Scriptlet.Assembly.Output
import Scriptlet.Proofs.Clearing
import Scriptlet.Proofs.Evaluation

/-!
# The same programs behave alike

Two programs that are the same, with no literal of the negative zero, cannot be told apart by
running them or by translating them: a run writes the same bytes and ends the same way, and the
listings are equal. Places show in errors only.

The code of a node depends on its places as little as its evaluation does: emission commutes with
their removal, as every production of code is put together from parts that do.

## Contents

- §1 emission reads no places
- §2 endings that differ in places only
- §3 the same programs behave alike
-/

namespace Scriptlet

namespace Assembly

/-! ## §1 Emission reads no places -/

def EmitError.cleared (e : EmitError) : EmitError := { e with loc := .nowhere }

namespace Emit

variable {α β : Type}

/-- The same production, its error without a place. -/
def cleared (m : Emit α) : Emit α := fun c =>
  ⟨(m c).code, (m c).result.mapError EmitError.cleared⟩

/-- Clearing the places of errors goes through a sequence. -/
@[simp] theorem cleared_bind (m : Emit α) (f : α → Emit β) :
    (m >>= f).cleared = m.cleared >>= fun a => (f a).cleared := by
  funext c
  change (bind m f).cleared c = bind m.cleared (fun a => (f a).cleared) c
  unfold cleared bind
  simp only
  cases (m c).result <;> rfl

@[simp] theorem cleared_constant (a : α) : (constant a).cleared = constant a := rfl

@[simp] theorem cleared_pure (a : α) : (pure a : Emit α).cleared = pure a := rfl

@[simp] theorem cleared_refuse (fault : EmitFault) (loc : Location) :
    (refuse fault loc : Emit α).cleared = refuse fault .nowhere := rfl

@[simp] theorem cleared_lines (ls : List Line) : (lines ls).cleared = lines ls := rfl

@[simp] theorem cleared_instrs (is : List Instr) : (instrs is).cleared = instrs is := rfl

@[simp] theorem cleared_label (stem : Text) : (label stem).cleared = label stem := rfl

@[simp] theorem cleared_layout : layout.cleared = layout := rfl

@[simp] theorem cleared_setLayout (l : Option Layout) : (setLayout l).cleared = setLayout l := rfl

@[simp] theorem cleared_shortcut (cond : Cond) (target : Label) :
    (shortcut cond target).cleared = shortcut cond target := rfl

@[simp] theorem cleared_leave : leave.cleared = leave := rfl

@[simp] theorem cleared_reserveLocals (l : Layout) :
    (reserveLocals l).cleared = reserveLocals l := by
  unfold reserveLocals
  split <;> rfl

@[simp] theorem cleared_opening (name : Text) : (opening name).cleared = opening name := rfl

@[simp] theorem cleared_closing : closing.cleared = closing := rfl

/-- Looking up an offset uses the place for its error only. -/
@[simp] theorem cleared_offsetOf (name : Text) (loc : Location) :
    (offsetOf name loc).cleared = offsetOf name .nowhere := by
  unfold offsetOf
  simp only [cleared_bind, cleared_layout]
  congr
  funext l
  cases l with
  | none => rfl
  | some l =>
    simp only
    cases l.offset? name <;> rfl

@[simp] theorem cleared_number (x : Float) (loc : Location) :
    (number x loc).cleared = number x .nowhere := by
  unfold number
  split
  · split <;> rfl
  · rfl

@[simp] theorem cleared_unary (op : UnaryOp) (loc : Location) :
    (unary op loc).cleared = unary op .nowhere := by
  cases op <;> rfl

@[simp] theorem cleared_binary (op : BinaryOp) (loc : Location) :
    (binary op loc).cleared = binary op .nowhere := by
  cases op <;> rfl

end Emit

mutual

/-- Slots are reserved by names, which have no places. -/
theorem Layout.reserve_cleared (l : Layout) : ∀ x : Node, l.reserve x.cleared = l.reserve x
  | .block stmts _ => l.reserveAll_cleared stmts
  | .choice _ yes no _ => by
    rw [Node.cleared, reserve, reserve, l.reserve_cleared yes, Layout.reserve_cleared _ no]
  | .loop _ body _ => l.reserve_cleared body
  | .declare _ _ _ | .missing | .number _ _ | .string _ _ | .ident _ _ | .unary _ _ _
  | .binary _ _ _ _ | .call _ _ _ | .giveBack _ _ | .assign _ _ _ | .function _ _ _ _ _
  | .prototype _ _ _ | .main _ _ | .assert _ _ => rfl

theorem Layout.reserveAll_cleared (l : Layout) :
    ∀ xs : List Node, l.reserveAll (Node.clearedAll xs) = l.reserveAll xs
  | [] => rfl
  | x :: xs => by
    rw [Node.clearedAll, reserveAll, reserveAll, l.reserve_cleared x,
      Layout.reserveAll_cleared _ xs]

end

open Emit

mutual

/-- The code of a node has no places, and its error only one. -/
theorem emit_cleared : ∀ x : Node, emit x.cleared = (emit x).cleared
  -- one case for each kind of node: places only end in the code as the place of an error
  | .missing | .string _ _ => rfl
  | .number x loc => (cleared_number x loc).symm
  | .ident name loc => by simp [Node.cleared, emit]
  | .unary op x loc => by simp [Node.cleared, emit, emit_cleared x]
  | .binary op x y loc => by
    cases op <;> simp [Node.cleared, emit, emit_cleared x, emit_cleared y]
  | .call _ [] _ => rfl
  | .call callee (x :: xs) loc => by
    have hargs := emitArgs_cleared 0 (x :: xs)
    simp only [Node.clearedAll_eq_map, List.map_cons] at hargs
    simp only [Node.cleared, emit, Node.clearedAll_eq_map, List.map_cons, List.length_cons,
      List.length_map, hargs]
    split
    · rfl
    · simp
  | .giveBack x loc => by
    have hmissing : x.cleared.isMissing = x.isMissing := by cases x <;> rfl
    simp only [Node.cleared, emit, hmissing, emit_cleared x, cleared_bind, cleared_layout]
    congr
    funext l
    cases l with
    | none => rfl
    | some l =>
      simp only
      split <;> simp
  | .block stmts _ => emitAll_cleared stmts
  | .choice cond yes no _ => by
    simp [Node.cleared, emit, emit_cleared cond, emit_cleared yes, emit_cleared no]
  | .loop cond body _ => by simp [Node.cleared, emit, emit_cleared cond, emit_cleared body]
  | .declare name x loc => by
    simp only [Node.cleared, emit, emit_cleared x, cleared_bind, cleared_layout]
    congr
    funext l
    cases l with
    | none => rfl
    | some l =>
      simp only [cleared_bind, cleared_layout]
      congr
      funext _
      congr
      funext l
      cases l <;> rfl
  | .assign name x loc => by simp [Node.cleared, emit, emit_cleared x]
  | .function name params body _ loc => by
    simp only [Node.cleared, emit, emitAll_cleared body, Layout.reserveAll_cleared, cleared_bind,
      cleared_layout]
    congr
    funext l
    cases l with
    | some l => rfl
    | none =>
      simp only
      split
      · rfl
      · simp
  | .prototype name params loc => by
    simp only [Node.cleared, emit, cleared_bind, cleared_layout]
    congr
    funext l
    cases l with
    | some l => rfl
    | none =>
      simp only
      split
      · exact rfl
      · trivial
  | .main stmts loc => by
    simp only [Node.cleared, emit, emitAll_cleared stmts, Layout.reserveAll_cleared, cleared_bind,
      cleared_layout]
    congr
    funext l
    cases l with
    | some l => rfl
    | none => simp
  | .assert cond _ => by simp [Node.cleared, emit, emit_cleared cond]

/-- The code of cleared statements is that of the statements. -/
theorem emitAll_cleared : ∀ xs : List Node, emitAll (Node.clearedAll xs) = (emitAll xs).cleared
  | [] => rfl
  | x :: xs => by simp [Node.clearedAll, emitAll, emit_cleared x, emitAll_cleared xs]

/-- The code of cleared arguments is that of the arguments. -/
theorem emitArgs_cleared (i : Nat) :
    ∀ xs : List Node, emitArgs i (Node.clearedAll xs) = (emitArgs i xs).cleared
  | [] => rfl
  | x :: xs => by
    simp [Node.clearedAll, emitArgs, emit_cleared x, emitArgs_cleared (i + 1) xs]

end

end Assembly

/-! ## §2 Endings that differ in places only -/

/-- The errors are of one kind and report one fault. -/
def EvalError.alike : EvalError → EvalError → Prop
  | .runtime e, .runtime e' => e.fault = e'.fault
  | .refused complaint, .refused complaint' => complaint = complaint'
  | _, _ => False

/-- Both evaluations end with values that show the same, or both with errors that say the same. -/
def Outcome.alike : Outcome → Outcome → Prop
  | .value v, .value w | .left v, .left w => v.type = w.type ∧ v.display = w.display
  | .failed e, .failed e' => e.alike e'
  | _, _ => False

/-- Both listings are complete, or neither is, for a reason that reads the same behind its place. -/
def Assembly.OutputError.alike :
    Except Assembly.OutputError Unit → Except Assembly.OutputError Unit → Prop
  | .ok (), .ok () => True
  | .error (.emission e), .error (.emission e') =>
    ∃ text, e.message = e.loc.tagged text ∧ e'.message = e'.loc.tagged text
  | .error (.refused complaint), .error (.refused complaint') => complaint = complaint'
  | _, _ => False

/-- Errors that agree up to places are alike. -/
theorem EvalError.alike_of_cleared {e e' : EvalError} (h : e.cleared = e'.cleared) :
    e.alike e' := by
  -- errors of different kinds differ without their places too
  cases e with
  | runtime e =>
    cases e' with
    | runtime e' =>
      simp only [cleared, EvalError.runtime.injEq, RuntimeError.mk.injEq] at h
      exact h.1
    | refused complaint => cases h
  | refused complaint =>
    cases e' with
    | runtime e' => cases h
    | refused complaint' => exact EvalError.refused.inj h

/-- Values that agree up to places have one type and are displayed alike. -/
theorem Value.shows_of_cleared {v w : Value} (h : v.cleared = w.cleared) :
    v.type = w.type ∧ v.display = w.display := by
  constructor
  · rw [← type_cleared, h, type_cleared]
  · rw [← display_cleared, h, display_cleared]

/-- Outcomes that agree up to places are alike. -/
theorem Outcome.alike_of_cleared {o o' : Outcome} (h : o.cleared = o'.cleared) : o.alike o' := by
  -- the kind of an outcome is left by clearing, so only values and errors are to be compared
  cases o with
  | value v =>
    cases o' with
    | value w => exact Value.shows_of_cleared (Outcome.value.inj h)
    | _ => cases h
  | left v =>
    cases o' with
    | left w => exact Value.shows_of_cleared (Outcome.left.inj h)
    | _ => cases h
  | failed e =>
    cases o' with
    | failed e' => exact EvalError.alike_of_cleared (Outcome.failed.inj h)
    | _ => cases h

/-! ## §3 The same programs behave alike -/

/-- The programs cannot be told apart from outside, places in errors apart. -/
structure Program.Alike (a b : Program) : Prop where
  /-- From new sessions with the same sink, runs of any length either both go on, or both end with
  the same output and in the same way. -/
  runs : ∀ (steps : Nat) (out : Sink),
    Option.Rel (fun r r' => r.2.out = r'.2.out ∧ r.1.alike r'.1)
      ((Session.start out).run steps a) ((Session.start out).run steps b)
  /-- The same listing is written, and completed or not for the same reason. -/
  listings : ∀ sink : Sink,
    (Assembly.write a.toNode sink).1 = (Assembly.write b.toNode sink).1 ∧
      Assembly.OutputError.alike (Assembly.write a.toNode sink).2 (Assembly.write b.toNode sink).2

/-- Runs of programs that agree up to places write the same and end alike, at any length. -/
theorem Session.run_alike_of_cleared {a b : Program}
    (h : Node.clearedAll a.stmts = Node.clearedAll b.stmts) (steps : Nat) (out : Sink) :
    Option.Rel (fun r r' => r.2.out = r'.2.out ∧ r.1.alike r'.1)
      ((start out).run steps a) ((start out).run steps b) := by
  -- both runs become the run of the program without places once their places are removed
  have hruns := (run_cleared steps a (start out)).symm.trans
    (h ▸ run_cleared steps b (start out))
  cases hra : (start out).run steps a with
  | none =>
    cases hrb : (start out).run steps b with
    | none => exact .none
    | some r' =>
      rw [hra, hrb] at hruns
      cases hruns
  | some r =>
    cases hrb : (start out).run steps b with
    | none =>
      rw [hra, hrb] at hruns
      cases hruns
    | some r' =>
      rw [hra, hrb, Option.map_some, Option.map_some, Option.some.injEq, Prod.mk.injEq] at hruns
      obtain ⟨houtcome, hsession⟩ := hruns
      have hout : r.2.cleared.out = r'.2.cleared.out := congrArg Session.out hsession
      exact .some ⟨hout, Outcome.alike_of_cleared houtcome⟩

/-- Listings of trees that agree up to places are the same bytes on every sink. -/
theorem Assembly.write_alike_of_cleared {x y : Node} (h : x.cleared = y.cleared) (sink : Sink) :
    (write x sink).1 = (write y sink).1 ∧
      OutputError.alike (write x sink).2 (write y sink).2 := by
  have hemit : (emit x).cleared = (emit y).cleared := by
    rw [← emit_cleared, ← emit_cleared, h]
  have hemission := congrFun hemit .top
  simp only [Emit.cleared, Emission.mk.injEq] at hemission
  obtain ⟨hcode, hresult⟩ := hemission
  unfold write emitTop
  simp only [hcode]
  cases hx : (emit x .top).result with
  | error e =>
    cases hy : (emit y .top).result with
    | ok r => rw [hx, hy] at hresult; cases hresult
    | error e' =>
      rw [hx, hy] at hresult
      simp only [Except.mapError, EmitError.cleared, Except.error.injEq, EmitError.mk.injEq]
        at hresult
      refine ⟨rfl, e.fault.message, rfl, ?_⟩
      rw [hresult.1]
      rfl
  | ok r =>
    cases hy : (emit y .top).result with
    | error e' => rw [hx, hy] at hresult; cases hresult
    | ok r' =>
      -- the buffers are the same, and so is what becomes of them
      refine ⟨rfl, ?_⟩
      simp only
      split
      · exact rfl
      · trivial

/-- The same programs behave alike, unless a literal is the negative zero. -/
theorem alike_of_same (a b : Program) (hsame : a.toNode.same b.toNode = true)
    (ha : a.toNode.zerosPositive = true) (hb : b.toNode.zerosPositive = true) : a.Alike b := by
  have hnode := Node.cleared_eq_of_same a.toNode b.toNode hsame ha hb
  constructor
  · intro steps out
    apply Session.run_alike_of_cleared
    exact Node.clearedAll_eq_of_sameAll a.stmts b.stmts hsame ha hb
  · intro sink
    exact Assembly.write_alike_of_cleared hnode sink

/-- A function called and then a division by zero, written on one line and on three. -/
theorem alike_of_same_division :
    let a : Program :=
      ⟨[ .function "f" ["x"] [.giveBack (.ident "x" ⟨22, 1, 23⟩) ⟨15, 1, 16⟩] ⟨13, 1, 14⟩ ⟨0, 1, 1⟩,
         .call "print" [.call "f" [.number 2 ⟨34, 1, 35⟩] ⟨32, 1, 33⟩] ⟨26, 1, 27⟩,
         .binary .divide (.number 1 ⟨39, 1, 40⟩) (.number 0 ⟨41, 1, 42⟩) ⟨40, 1, 41⟩ ], .start⟩
    let b : Program :=
      ⟨[ .function "f" ["x"] [.giveBack (.ident "x" ⟨22, 1, 23⟩) ⟨15, 1, 16⟩] ⟨13, 1, 14⟩ ⟨0, 1, 1⟩,
         .call "print" [.call "f" [.number 2 ⟨34, 2, 9⟩] ⟨32, 2, 7⟩] ⟨26, 2, 1⟩,
         .binary .divide (.number 1 ⟨39, 3, 1⟩) (.number 0 ⟨41, 3, 3⟩) ⟨40, 3, 2⟩ ], .start⟩
    a.toNode.same b.toNode = true ∧ a.toNode.zerosPositive = true ∧
      b.toNode.zerosPositive = true ∧ a.Alike b := by
  intro a b
  have hsame : a.toNode.same b.toNode = true := rfl
  have ha : a.toNode.zerosPositive = true := rfl
  have hb : b.toNode.zerosPositive = true := rfl
  exact ⟨hsame, ha, hb, alike_of_same a b hsame ha hb⟩

end Scriptlet
