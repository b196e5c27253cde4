import Scriptlet.Proofs.Composition
import Scriptlet.Proofs.Descent
import Scriptlet.Proofs.Stability

/-!
# The grammar always ends

The rules of the grammar are guarded: a statement may begin with an expression, an expression with a
power, a power with an operand, and an operand begins with a terminal. So the machine of the grammar
comes to a stand on every stream, and what it stands at is what the grammar makes of the stream.

## Contents

- §1 guarded lists, brackets and marks
- §2 guarded productions
- §3 the main result
-/

namespace Scriptlet

namespace Grammar

open Combinator Descent

/-- Guarded by the ranks of the rules. -/
abbrev Guards {α : Type} (k : Nat) (reads : Bool) (c : Part α) : Prop :=
  Guarded Rule.rank 4 k reads c

variable {α : Type} {k : Nat} {c : Part α}

/-! ## §1 Guarded lists, brackets and marks -/

/-- Whoever refuses the end reads a terminal. -/
theorem guards_terminal {w : Wanted} (hw : ∀ text loc, w.accepts ⟨.ending, text, loc⟩ = false) :
    Guards k true (.terminal w) := by
  refine .terminal fun x hx hend => ?_
  obtain ⟨kind, text, loc⟩ := x
  obtain rfl : kind = .ending := hend
  rw [hw text loc] at hx
  cases hx

theorem guards_punct (text : Text) : Guards k true (punct text) := guards_terminal fun _ _ => rfl

theorem guards_keyword (word : Text) : Guards k true (keyword word) :=
  guards_terminal fun _ _ => rfl

theorem guards_ident : Guards k true ident := guards_terminal fun _ _ => rfl

theorem guards_anyOf (texts : List Text) : Guards k true (anyOf texts) := by
  induction texts with
  | nil => exact .nothing
  | cons text texts ih => exact .orElse (guards_punct text) ih

theorem guards_optional (hc : Guards k false c) (a : α) : Guards k false (c.optional a) :=
  .orElse hc (.orElse (.constant a) .nothing)

theorem guards_commaList (hc : Guards 4 true c) : Guards 4 false (commaList c) := by
  refine guards_optional (.weaken (.behind hc fun first => ?_)) []
  refine .bind (.many (.behind (guards_punct ",") fun _ => .weaken hc)) fun rest => ?_
  exact .constant (first :: rest)

/-- Behind the first bracket all rules may be called. -/
theorem guards_between (opening closing : Text) (hc : Guards 4 false c) :
    Guards k true (between opening c closing) := by
  refine .behind (guards_punct opening) fun _ => .bind hc fun a => ?_
  exact .bind (.weaken (guards_punct closing)) fun _ => .constant a

/-! ## §2 Guarded productions -/

/-- Behind a terminal any rule may be called. -/
theorem guards_rule (r : Rule) : Guards 4 true (.rule r : Part Node) := .rule r.rank_le

/-- What begins with an operand calls what the operand calls. -/
theorem guards_leftChain {operand : Part Node} (hk : k ≤ 4) (hoperand : Guards k true operand)
    (ops : List Text) : Guards k true (Part.leftChain operand ops) := by
  have hlater : Guards 4 true operand := hoperand.mono hk
  refine .behind hoperand fun first => .bind (.many (.behind (guards_anyOf ops) fun op => ?_)) ?_
  · exact .bind (.weaken hlater) fun right => .constant (op, right)
  · exact fun rest => .constant _

theorem guards_group : Guards k true Part.group :=
  guards_between "(" ")" (.weaken (guards_rule .expression))

theorem guards_atom : Guards k true Part.atom := by
  -- the alternatives in the order of the grammar: all but a group begin with a terminal
  have hargs : Guards 4 true (between "(" (commaList (.rule .expression)) ")" : Part (List Node)) :=
    guards_between "(" ")" (guards_commaList (guards_rule .expression))
  have hcall : Guards k true Part.call :=
    .behind guards_ident fun callee => .bind (.weaken hargs) fun args => .constant _
  have hname : Guards k true Part.identifier := .behind guards_ident fun t => .constant _
  have hnumber : Guards k true Part.number :=
    .behind (guards_terminal fun _ _ => rfl) fun t => .constant _
  have hstring : Guards k true Part.string :=
    .behind (guards_terminal fun _ _ => rfl) fun t => .constant _
  exact .orElse hcall (.orElse hname (.orElse hnumber (.orElse hstring
    (.orElse guards_group .nothing))))

theorem guards_unary : Guards k true Part.unary := by
  have hleading : ∀ symbol op, Guards k true (Part.leadingOp symbol op) := fun symbol op =>
    .behind (guards_punct symbol) fun t =>
      .bind (.weaken (guards_rule .unary)) fun operand => .constant _
  have hplus : Guards k true (do let _ ← punct "+"; .rule Rule.unary : Part Node) :=
    .behind (guards_punct "+") fun _ => .weaken (guards_rule .unary)
  exact .orElse (hleading _ _) (.orElse (hleading _ _) (.orElse hplus
    (.orElse guards_atom .nothing)))

/-- A power begins with an operand. -/
theorem guards_power : Guards 1 true Part.power := by
  refine .behind (.rule (by decide)) fun base => guards_optional (.weaken ?_) base
  exact .behind (guards_punct "**") fun t =>
    .bind (.weaken (guards_rule .power)) fun exponent => .constant _

/-- An expression begins with a power. -/
theorem guards_expression : Guards 2 true Part.expression := by
  have hpower : Guards 2 true (.rule .power : Part Node) := .rule (by decide)
  have hchain : ∀ {operand : Part Node} (ops : List Text), Guards 2 true operand →
      Guards 2 true (Part.leftChain operand ops) := fun ops h => guards_leftChain (by decide) h ops
  exact hchain _ (hchain _ (hchain _ (hchain _ (hchain _ hpower))))

/-- The semicolon or the end of the source adds nothing to what a statement reads. -/
theorem guards_terminated {x : Part Node} {reads : Bool} (hx : Guards k reads x) :
    Guards k reads (Part.terminated x) := by
  have hend : ∀ {k : Nat} (y : Node),
      Guards k false (do let _ ← Part.terminator; return y : Part Node) := fun y =>
    .bind (.orElse (.weaken (guards_punct ";")) (.orElse .ending .nothing)) fun _ => .constant y
  cases reads with
  | true => exact .behind hx fun y => hend y
  | false => exact .bind hx fun y => hend y

theorem guards_braces : Guards k true Part.braces :=
  .behind (guards_punct "\x7b") fun t => .bind (.many (guards_rule .statement)) fun stmts =>
    .bind (.weaken (guards_punct "\x7d")) fun _ => .constant (stmts, t.loc)

theorem guards_functionStmt : Guards k true Part.functionStmt := by
  refine .behind (guards_keyword "function") fun t => .bind (.weaken guards_ident) fun name => ?_
  refine .bind (.weaken (guards_between "(" ")" (guards_commaList guards_ident))) fun params => ?_
  refine .bind (.weaken guards_braces) fun block => ?_
  -- the name decides what is built and not what is read
  dsimp only
  split <;> exact .constant _

theorem guards_ifStmt : Guards k true Part.ifStmt := by
  refine .behind (guards_keyword "if") fun t => .bind (.weaken guards_group) fun cond => ?_
  refine .bind (.weaken (guards_rule .statement)) fun yes => .bind ?_ fun no => .constant _
  refine guards_optional (.weaken (.behind (guards_keyword "else") fun _ => ?_)) _
  exact .weaken (guards_rule .statement)

theorem guards_whileStmt : Guards k true Part.whileStmt :=
  .behind (guards_keyword "while") fun _ => .bind (.weaken guards_group) fun _ =>
    .bind (.weaken (guards_rule .statement)) fun _ => .constant _

theorem guards_binding {sign : Part Terminal} (hsign : Guards 4 true sign)
    (build : Terminal → Terminal → Node → Node) : Guards k true (Part.binding sign build) :=
  .behind guards_ident fun _ => .bind (.weaken hsign) fun _ =>
    guards_terminated (.bind (.weaken (guards_rule .expression)) fun _ => .constant _)

/-- A statement may begin with an expression. -/
theorem guards_statement : Guards 3 true Part.statement := by
  -- only an expression begins with a rule, and that one has a lower rank
  have hreturn : Guards 3 true Part.returnStmt :=
    .behind (guards_keyword "return") fun t => guards_terminated <|
      .bind (guards_optional (.weaken (guards_rule .expression)) _) fun result => .constant _
  have hvar : Guards 3 true Part.varStmt :=
    .behind (.orElse (guards_keyword "var") (.orElse (guards_keyword "let") .nothing)) fun t =>
      .weaken (guards_binding (guards_punct "=") _)
  have hassign : Guards 3 true Part.assignStmt := guards_binding (guards_anyOf _) _
  have hblock : Guards 3 true Part.blockStmt := .behind guards_braces fun block => .constant _
  have hexpression : Guards 3 true (Part.terminated (.rule .expression)) :=
    guards_terminated (.rule (by decide))
  exact .orElse hreturn (.orElse guards_functionStmt (.orElse guards_ifStmt
    (.orElse guards_whileStmt (.orElse hvar (.orElse hassign (.orElse hblock
      (.orElse hexpression .nothing)))))))

/-- Before it reads, a rule calls only rules of lower rank. -/
theorem ranked_table : Ranked table Rule.rank 4 where
  rank_pos := Rule.rank_pos
  guarded := by
    intro r c hc
    obtain rfl : production r = c := Option.some.inj hc
    cases r with
    | expression => exact ⟨2, by decide, guards_expression⟩
    | statement => exact ⟨3, by decide, guards_statement⟩
    | unary => exact ⟨0, by decide, guards_unary⟩
    | power => exact ⟨1, by decide, guards_power⟩

/-- The statements of a program, and then the end of the source. -/
theorem guards_program : Guards 4 false Part.program.whole :=
  .bind (.many (guards_rule .statement)) fun stmts => .bind .ending fun _ => .constant stmts

/-! ## §3 The main result -/

/-- The machine before it reads a program. -/
def beginning : State Rule (fun _ => Node) (List Node) := ⟨.run Part.program.whole 0 .nil, .empty⟩

/-- The program of an outcome, or the error that the trace reports. -/
def answer (s : Stream) (r : Descent.Outcome (List Node)) (t : Trace) : Except ParseError Program :=
  match r with
  | some (stmts, _) => .ok ⟨stmts, .nowhere⟩
  | none => .error (t.error s)

/-- The outcome of a run over a whole stream is the answer of the grammar. -/
theorem parseStream_eq_answer {s : Stream} {r : Descent.Outcome (List Node)} {t : Trace}
    (h : Part.program.whole.parser (table.unfold (unfoldings s)) s 0 .empty = (r.reply, t)) :
    parseStream s = answer s r t := by
  have hwhole : (do
      let stmts ← program (unfoldings s)
      let _ ← Parser.ending
      return stmts : Parser (List Node)) s 0 .empty = (r.reply, t) := by
    -- the whole of the grammar is its statements and the end behind them
    rw [← parser_program]
    exact h
  unfold parseStream Parser.run
  dsimp only
  rw [hwhole]
  cases r <;> rfl

/-- **The grammar always ends.** On every stream the machine comes to a stand, with an outcome that
nothing waits for. In every state on the way, between two calls of one rule that are in progress at
least one terminal was read, and so it was in every round of a repetition that comes back with a
value. Where the end of the source is its only end, the outcome is what the grammar makes of the
stream. -/
theorem grammar_ends (s : Stream) :
    (∃ (steps : Nat) (r : Descent.Outcome (List Node)) (t : Trace),
      after table s steps beginning = some ⟨.back r .nil, t⟩ ∧
      step table s (⟨.back r .nil, t⟩ : State Rule (fun _ => Node) (List Node)) = none ∧
      (s.SingleEnd → parseStream s = answer s r t)) ∧
    ∀ steps x, after table s steps beginning = some x →
      (x.calls.Pairwise fun inner outer => inner.1 = outer.1 → outer.2 < inner.2) ∧
      x.control.Gains := by
  -- four rules may be called at each position, the end included
  have hn : 4 * (s.items.size + 1) ≤ unfoldings s := by
    unfold unfoldings
    omega
  obtain ⟨steps, r, t, hsteps, hsound, hparser⟩ :=
    exists_outcome ranked_table guards_program hn .empty
  refine ⟨⟨steps, r, t, hsteps, rfl, fun hs => parseStream_eq_answer (hparser hs)⟩, ?_⟩
  exact fun steps x hx => ⟨(hsound steps x hx).apart, (hsound steps x hx).gains⟩

/-- A name and the same name in a bracket that is not closed. -/
def unclosed : Stream :=
  ⟨#[⟨.ident, "a", ⟨0, 1, 1⟩⟩, ⟨.operator, "*", ⟨1, 1, 2⟩⟩, ⟨.punct, "(", ⟨2, 1, 3⟩⟩,
    ⟨.ident, "a", ⟨3, 1, 4⟩⟩], ⟨4, 1, 5⟩⟩

/-- While the name in the bracket is looked at, three rules are in progress for the second time. -/
theorem grammar_ends_unclosed :
    unclosed.SingleEnd ∧
      (∃ (steps : Nat) (r : Descent.Outcome (List Node)) (t : Trace),
        after table unclosed steps beginning = some ⟨.back r .nil, t⟩ ∧
        parseStream unclosed = answer unclosed r t) ∧
      ∃ x, after table unclosed 184 beginning = some x ∧
        x.calls = [(.unary, 3), (.power, 3), (.expression, 3), (.unary, 2), (.power, 2),
          (.expression, 0), (.statement, 0)] ∧
        (x.calls.Pairwise fun inner outer => inner.1 = outer.1 → outer.2 < inner.2) ∧
        x.control.Gains := by
  have hend : unclosed.SingleEnd := by
    unfold Stream.SingleEnd
    decide
  have hcalls : (after table unclosed 184 beginning).map State.calls =
      some [(.unary, 3), (.power, 3), (.expression, 3), (.unary, 2), (.power, 2),
        (.expression, 0), (.statement, 0)] := by
    decide +kernel
  obtain ⟨x, hx, hstack⟩ := Option.map_eq_some_iff.mp hcalls
  obtain ⟨⟨steps, r, t, hsteps, -, hanswer⟩, hsound⟩ := grammar_ends unclosed
  exact ⟨hend, ⟨steps, r, t, hsteps, hanswer hend⟩, x, hx, hstack, hsound 184 x hx⟩

end Grammar

end Scriptlet
