import Mathlib
import Scriptlet.Proofs.Lockstep

/-!
# The marks of the two back ends

A program that consists of its entry point can be run by the evaluator, and by the processor that
executes its code. Both leave the same marks, as long as no step of the run is disputed between
values and words. Each kind of dispute makes a difference: where the truth of a check is not that of
its word, where a value and its word are compared or divided differently, and where a name does not
find what was stored last under it, there are programs whose marks differ.

## Contents

- §1 runs of an entry point
- §2 marks of the code
- §3 the same marks
- §4 different marks
-/

namespace Scriptlet

open Assembly (Library Processor Context Layout Line emit emitTop placed Runs Compiled Shaped
  prologue epilogue slotAt opened)

/-! ## §1 Runs of an entry point -/

/-- The start of an entry point that is all of a program. -/
def Config.entrance (stmts : List Node) (loc : Location) (out : Sink) : Config :=
  let (f, s) := Config.defineFunction "main" [] stmts Store.global (Session.start out)
  .enter f [] loc [] { s with entry := some f }

section

variable {steps : Nat} {stmts : List Node} {loc loc' : Location} {out : Sink} {final : Session}

/-- A run of the entry point is one from its entrance. -/
theorem run_entrance {r : Outcome × Session}
    (h : Session.run steps ⟨[.main stmts loc], loc'⟩ (.start out) = some r) :
    Config.run steps (.entrance stmts loc' out) = some r := by
  -- defining the entry point takes two steps
  cases steps with
  | zero => cases h
  | succ steps =>
    cases steps with
    | zero => cases h
    | succ steps => exact h

/-- The entrance begins the statements, in a scope of their own. -/
theorem entrance_eq (stmts : List Node) (loc : Location) (out : Sink) :
    ∃ (scope : Nat) (s : Session),
      Config.entrance stmts loc out = .resume .nil stmts scope [.call] s ∧ s.out = out := by
  obtain ⟨scope, s, hsequence, hout⟩ : ∃ (scope : Nat) (s : Session),
      Config.entrance stmts loc out = .sequence stmts scope [.call] s ∧ s.out = out :=
    ⟨_, _, rfl, rfl⟩
  exact ⟨scope, s, hsequence.trans (Config.sequence_eq_resume ..), hout⟩

/-- A function that ends leaves what it has written. -/
theorem Ends.contents {latest : Latest} {v : Value} {s : Session}
    (h : Ends latest ⟨.deliver v, [.call], s⟩ steps final) : final.out = s.out := by
  obtain ⟨k, -, hreturn⟩ := h.next rfl
  obtain ⟨u, hu⟩ := hreturn.value
  cases k with
  | zero => cases hu
  | succ k =>
    cases hu
    rfl

/-- **A run leaves the marks of the program over words.** -/
theorem performAll_of_run (hcommon : Node.allCommon stmts = true) {v : Value}
    (hrun : Session.run steps ⟨[.main stmts loc], loc'⟩ (.start out) = some (.value v, final))
    (hbounded : Config.throughout Config.bounded steps (fun _ => none)
      (.entrance stmts loc' out) = true)
    (hundisputed : Config.throughout Config.undisputed steps (fun _ => none)
      (.entrance stmts loc' out) = true) (slots : Slots) :
    ∃ bound p, Node.performAll? bound slots stmts = some p ∧
      final.out.contents = out.contents ++ p.marks := by
  obtain ⟨scope, s, hentrance, hout⟩ := entrance_eq stmts loc' out
  have hends : Ends (fun _ => none) (.resume .nil stmts scope [.call] s) steps final := by
    rw [← hentrance]
    exact ⟨⟨v, run_entrance hrun⟩, hbounded, hundisputed⟩
  have hmeans : Latest.Means (fun _ => none) slots := by
    intro name u hu
    cases hu
  -- the statements are followed from the empty store, of which nothing is known
  obtain ⟨bound, p, hp, honward⟩ := Node.allFollowed_of_allCommon stmts hcommon hmeans hends
  obtain ⟨-, k, -, u, latest, s', -, hcontents, hrest⟩ := honward
  refine ⟨bound, p, hp, ?_⟩
  rw [hrest.contents, hcontents, hout]

end

/-! ## §2 Marks of the code -/

/-- Arithmetic is plain. -/
theorem Node.isPlain_of_isArithmetic : ∀ x : Node, x.isArithmetic = true → x.isPlain false = true
  | .number _ _, _ => rfl
  | .ident _ _, _ => rfl
  | .unary _ x _, hx => Node.isPlain_of_isArithmetic x hx
  | .binary op x y _, hx => by
    rw [Node.isArithmetic, Bool.and_eq_true, Bool.and_eq_true] at hx
    rw [Node.isPlain, Node.isPlain_of_isArithmetic x hx.1.2, Node.isPlain_of_isArithmetic y hx.2]
    rfl

mutual

/-- What both back ends have in common is plain. -/
theorem Node.isPlain_of_isCommon : ∀ x : Node, x.isCommon = true → x.isPlain true = true
  -- what is common to both has neither calls nor powers nor strings
  | .missing, _ => rfl
  | .number _ _, _ => rfl
  | .ident _ _, _ => rfl
  | .unary _ x _, hx => Node.isPlain_of_isArithmetic x hx
  | .binary op x y loc, hx => Node.isPlain_of_isArithmetic (.binary op x y loc) hx
  | .block xs _, hx => Node.allPlain_of_allCommon xs hx
  | .choice cond yes no _, hx => by
    rw [Node.isCommon, Bool.and_eq_true, Bool.and_eq_true] at hx
    rw [Node.isPlain, Node.isPlain_of_isArithmetic cond hx.1.1, Node.isPlain_of_isCommon yes hx.1.2,
      Node.isPlain_of_isCommon no hx.2]
    rfl
  | .loop cond body _, hx => by
    rw [Node.isCommon, Bool.and_eq_true] at hx
    rw [Node.isPlain, Node.isPlain_of_isArithmetic cond hx.1, Node.isPlain_of_isCommon body hx.2]
    rfl
  | .declare _ x _, hx => Node.isPlain_of_isArithmetic x hx
  | .assign _ x _, hx => Node.isPlain_of_isArithmetic x hx
  | .assert x _, hx => Node.isPlain_of_isArithmetic x hx

/-- The same for lists of statements. -/
theorem Node.allPlain_of_allCommon : ∀ xs : List Node, Node.allCommon xs = true →
    Node.allPlain true xs = true
  | [], _ => rfl
  | x :: xs, hxs => by
    rw [Node.allCommon, Bool.and_eq_true] at hxs
    rw [Node.allPlain, Node.isPlain_of_isCommon x hxs.1, Node.allPlain_of_allCommon xs hxs.2]
    rfl

end

section

variable {stmts : List Node} {loc loc' : Location} {c' : Context} {code : List Line}

/-- The code of a program that consists of its entry point is the code of the entry point. -/
theorem gives_entrance
    (h : emitTop (Program.toNode ⟨[.main stmts loc], loc'⟩) = ⟨code, .ok ((), c')⟩) :
    ∃ c, (emit (.main stmts loc)).Gives .top code () c := by
  rw [emitTop, Program.toNode, Assembly.emit_block, Assembly.emitAll] at h
  obtain ⟨a, c, hmain, b, hrest, rfl⟩ := Assembly.Emit.gives_seq.mp h
  cases hrest
  rw [List.append_nil]
  exact ⟨_, hmain⟩

/-- The layout of the frame. -/
abbrev frameOf (stmts : List Node) : Layout := Layout.ofMain.reserveAll stmts

/-- What memory holds for the variables before the statements are executed. -/
def slotsBefore (stmts : List Node) (m : Processor) : Slots := fun name =>
  ((frameOf stmts).offset? name).elim 0 fun off => m.memory (slotAt (m.regs .sp - 8) off)

/-- The code of an entry point without calls prints the marks of its statements over words. -/
theorem prints_of_performAll (lib : Library) {m : Processor} {bound : Nat} {p : Progress}
    (hplain : Node.allPlain true stmts = true)
    (hemit : emitTop (Program.toNode ⟨[.main stmts loc], loc'⟩) = ⟨code, .ok ((), c')⟩)
    (hp : Node.performAll? bound (slotsBefore stmts m) stmts = some p)
    (hal : (m.regs .sp).toNat % 4 = 0)
    (hroom : 8 + (frameOf stmts).size + 8 * Node.depthAll stmts ≤ (m.regs .sp).toNat) :
    ∃ m', Runs lib code ⟨.ahead code, m⟩ ⟨.caller (m.regs .lr), m'⟩ ∧
      m'.printed = m.printed ++ p.marks := by
  obtain ⟨c, hgives⟩ := gives_entrance hemit
  obtain ⟨body, _, hbody, hcode⟩ := Assembly.gives_main hgives
  have hshaped : Shaped (frameOf stmts) (.block stmts loc) := by
    apply Assembly.shaped_of_allPlain hplain
    intro _ name hmem
    exact (Layout.offset?_reserveAll _ name stmts).mpr (Or.inr hmem)
  obtain ⟨_, -, hcompiled⟩ := hshaped _ _ _ hbody
  have hnodup : (placed code).Nodup := by
    have hplaced : placed code = placed body := by
      simp [hcode, Assembly.placed_prologue, epilogue]
    rw [hplaced]
    exact hcompiled.numbered.nodup
  have hslots : ∀ name off, (frameOf stmts).offset? name = some off →
      m.memory (slotAt (m.regs .sp - 8) off) = slotsBefore stmts m name := by
    intro name off hoff
    rw [slotsBefore, hoff]
    rfl
  -- the frame holds what memory held before, so any memory will do
  obtain ⟨t, hruns, harrives⟩ := Assembly.runs_main hcompiled (Layout.tidy_ofMain.reserveAll stmts)
    hcode hnodup hp hal hroom hslots
  cases harrives with
  | behind hresult => cases hresult
  | @back m' w hresult hfollows hr0 hsp hfp =>
    cases hresult
    rw [Assembly.opened_fp, Assembly.opened_saved_lr] at hruns
    exact ⟨m', hruns, hfollows.printed⟩

end

/-! ## §3 The same marks -/

/-- **The code of a program leaves the marks of its run**, if no step of the run is disputed.

The program consists of its entry point, whose statements are expressions without powers,
declarations, assignments, blocks, choices, loops and checks. Its run ends without a failure, all
numbers found on the way are integers in the range of signed words, and it has code. Disputed are
checks of other numbers than zero and one, comparisons of a truth value with the number of the same
word for equality, divisions with negative operands, and names that find something else than the
value stored last under them. The processor may hold anything and needs room on its stack. -/
theorem code_leaves_marks_of_run (lib : Library) (steps : Nat) (stmts : List Node)
    (loc loc' : Location) (out : Sink) (v : Value) (final : Session) (code : List Line)
    (c' : Context) (m : Processor) (hcommon : Node.allCommon stmts = true)
    (hrun : Session.run steps ⟨[.main stmts loc], loc'⟩ (.start out) = some (.value v, final))
    (hbounded : Config.throughout Config.bounded steps (fun _ => none)
      (.entrance stmts loc' out) = true)
    (hundisputed : Config.throughout Config.undisputed steps (fun _ => none)
      (.entrance stmts loc' out) = true)
    (hemit : emitTop (Program.toNode ⟨[.main stmts loc], loc'⟩) = ⟨code, .ok ((), c')⟩)
    (hal : (m.regs .sp).toNat % 4 = 0)
    (hroom : 8 + (frameOf stmts).size + 8 * Node.depthAll stmts ≤ (m.regs .sp).toNat) :
    ∃ (marks : Text) (m' : Processor), final.out.contents = out.contents ++ marks ∧
      Runs lib code ⟨.ahead code, m⟩ ⟨.caller (m.regs .lr), m'⟩ ∧
      m'.printed = m.printed ++ marks := by
  obtain ⟨bound, p, hp, hcontents⟩ :=
    performAll_of_run hcommon hrun hbounded hundisputed (slotsBefore stmts m)
  obtain ⟨m', hruns, hprinted⟩ :=
    prints_of_performAll lib (Node.allPlain_of_allCommon stmts hcommon) hemit hp hal hroom
  exact ⟨p.marks, m', hcontents, hruns, hprinted⟩

/-- A sum that a loop adds up and checks, with a variable of a block and quotients on the way. -/
def addition : List Node :=
  let number (x : Float) : Node := .number x .nowhere
  let n : Node := .ident "n" .nowhere
  let sum : Node := .ident "sum" .nowhere
  [ .declare "n" (number 3) .nowhere,
    .declare "sum" (number 0) .nowhere,
    .loop (.binary .greater n (number 0) .nowhere)
      (.block
        [ .declare "rest" (.binary .modulo n (number 2) .nowhere) .nowhere,
          .choice (.ident "rest" .nowhere)
            (.assign "sum" (.binary .add sum n .nowhere) .nowhere) .missing .nowhere,
          .assign "n" (.binary .subtract n (number 1) .nowhere) .nowhere ] .nowhere) .nowhere,
    .assert (.binary .equal (.binary .divide sum (number 2) .nowhere) (number 2) .nowhere) .nowhere,
    .assert (.binary .less sum (.unary .negate sum .nowhere) .nowhere) .nowhere ]

/-- What has been written by a run that ended with a value. -/
def writtenBy? : Option (Outcome × Session) → Option Text
  | some (.value _, s) => some s.out.contents
  | _ => none

theorem exists_of_writtenBy? {r : Option (Outcome × Session)} {t : Text}
    (h : writtenBy? r = some t) : ∃ v s, r = some (.value v, s) ∧ s.out.contents = t := by
  unfold writtenBy? at h
  split at h
  · exact ⟨_, _, rfl, Option.some.inj h⟩
  · cases h

theorem exists_of_isOk {e : Assembly.Emission Unit} (h : e.result.isOk = true) :
    ∃ c, e = ⟨e.code, .ok ((), c)⟩ := by
  obtain ⟨code, result⟩ := e
  cases result with
  | ok a => exact ⟨a.2, rfl⟩
  | error fault => cases h

theorem code_leaves_marks_of_run_addition :
    let code := (emitTop (Program.toNode ⟨[.main addition .nowhere], .nowhere⟩)).code
    ∃ m', Runs Assembly.quiet code ⟨.ahead code, Assembly.fresh 0 96⟩ ⟨.caller 0, m'⟩ ∧
      m'.printed = ".F" := by
  intro code
  have hwritten : writtenBy? (Session.run 139 ⟨[.main addition .nowhere], .nowhere⟩
      (.start .unlimited)) = some ".F" := by
    decide +kernel
  obtain ⟨v, final, hrun, hcontents⟩ := exists_of_writtenBy? hwritten
  obtain ⟨c', hemit⟩ := exists_of_isOk
    (e := emitTop (Program.toNode ⟨[.main addition .nowhere], .nowhere⟩)) (by decide +kernel)
  obtain ⟨marks, m', hmarks, hruns, hprinted⟩ :=
    code_leaves_marks_of_run Assembly.quiet 139 addition .nowhere .nowhere .unlimited v final code c'
      (Assembly.fresh 0 96) (by decide +kernel) hrun (by decide +kernel) (by decide +kernel) hemit
      (by decide +kernel) (by decide +kernel)
  rw [hcontents] at hmarks
  refine ⟨m', hruns, ?_⟩
  rw [hprinted, hmarks]
  rfl

/-! ## §4 Different marks -/

/-- The run of a program ends without a failure, with integers in range all the way, and writes other
marks than its code prints. -/
def MarksDiffer (stmts : List Node) : Prop :=
  Node.allCommon stmts = true ∧
    ∃ (steps : Nat) (v : Value) (final : Session) (code : List Line) (c' : Context) (m' : Processor),
      Session.run steps ⟨[.main stmts .nowhere], .nowhere⟩ (.start .unlimited)
        = some (.value v, final) ∧
      Config.throughout Config.bounded steps (fun _ => none)
        (.entrance stmts .nowhere .unlimited) = true ∧
      emitTop (Program.toNode ⟨[.main stmts .nowhere], .nowhere⟩) = ⟨code, .ok ((), c')⟩ ∧
      Runs Assembly.quiet code ⟨.ahead code, Assembly.fresh 0 96⟩ ⟨.caller 0, m'⟩ ∧
      m'.printed ≠ final.out.contents

/-- Decides whether the marks differ, from what is written within some steps and what the program
over words marks within some rounds. -/
def marksDiffer? (steps bound : Nat) (stmts : List Node) : Bool :=
  Node.allCommon stmts &&
    Config.throughout Config.bounded steps (fun _ => none) (.entrance stmts .nowhere .unlimited) &&
    (emitTop (Program.toNode ⟨[.main stmts .nowhere], .nowhere⟩)).result.isOk &&
    decide (8 + (frameOf stmts).size + 8 * Node.depthAll stmts ≤ 96) &&
    match writtenBy? (Session.run steps ⟨[.main stmts .nowhere], .nowhere⟩ (.start .unlimited)),
      Node.performAll? bound (slotsBefore stmts (Assembly.fresh 0 96)) stmts with
    | some written, some p => p.marks != written
    | _, _ => false

/-- The check finds programs whose marks differ. -/
theorem marksDiffer_of_check {steps bound : Nat} {stmts : List Node}
    (h : marksDiffer? steps bound stmts = true) : MarksDiffer stmts := by
  unfold marksDiffer? at h
  simp only [Bool.and_eq_true, decide_eq_true_iff] at h
  -- the run and the reference are evaluated, and their marks compared
  obtain ⟨⟨⟨⟨hcommon, hbounded⟩, hemit⟩, hroom⟩, hmarks⟩ := h
  split at hmarks
  · next t p hwritten hp =>
    obtain ⟨v, final, hrun, rfl⟩ := exists_of_writtenBy? hwritten
    obtain ⟨c', hemit⟩ := exists_of_isOk hemit
    obtain ⟨m', hruns, hprinted⟩ := prints_of_performAll Assembly.quiet
      (Node.allPlain_of_allCommon stmts hcommon) hemit hp (by decide) hroom
    exact ⟨hcommon, steps, v, final, _, c', m', hrun, hbounded, hemit, hruns,
      hprinted ▸ bne_iff_ne.mp hmarks⟩
  · cases hmarks

/-- Programs with one disputed step each. -/
def disputed : List (List Node) :=
  let number (x : Float) : Node := .number x .nowhere
  let negative (x : Float) : Node := .unary .negate (number x) .nowhere
  let binary (op : BinaryOp) (x y : Node) : Node := .binary op x y .nowhere
  let declare (name : Text) (x : Float) : Node := .declare name (number x) .nowhere
  let check (x : Node) : Node := .assert x .nowhere
  [ -- a check of another number than zero and one
    [check (number 2)],
    -- a truth value and its number
    [check (binary .equal (number 1) (.unary .not (number 0) .nowhere))],
    [check (binary .notEqual (number 1) (.unary .not (number 0) .nowhere))],
    -- divisions of a negative number
    [check (binary .equal (binary .divide (negative 4) (number 2)) (negative 2))],
    [check (binary .equal (binary .modulo (negative 1) (number 2)) (negative 1))],
    -- a variable that another one of the same name hid for a while
    [declare "x" 1, .block [declare "x" 0] .nowhere, check (.ident "x" .nowhere)],
    -- a name that the language binds, and a variable of that name that was never stored
    [ .choice (number 0) (.block [declare "true" 0] .nowhere) .missing .nowhere,
      check (.ident "true" .nowhere) ] ]

/-- **Each kind of disputed step makes a difference.** -/
theorem disputed_marksDiffer : disputed.Forall MarksDiffer := by
  have hall : ∀ stmts ∈ disputed, marksDiffer? 60 1 stmts = true := by decide +kernel
  rw [List.forall_iff_forall_mem]
  intro stmts hmem
  exact marksDiffer_of_check (hall stmts hmem)

end Scriptlet
