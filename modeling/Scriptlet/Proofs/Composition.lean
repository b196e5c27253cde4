import Scriptlet.Proofs.Continuation
import Scriptlet.Proofs.Productions

/-!
# Parsers that are made of combinators

Forms are combinators whose rules have texts for names, and the rules of the grammar are combinators
too, so the contract of the combinators holds of both. A source that does not parse is then reported
where the furthest refusal of its watched run was.

## Contents

- §1 runs over whole streams
- §2 forms
- §3 the grammar
-/

namespace Scriptlet

/-! ## §1 Runs over whole streams -/

section Whole

variable {ι : Type} {τ : ι → Type} {α : Type}

/-- The combinator, and then the end of the source. -/
def Combinator.whole (c : Combinator ι τ α) : Combinator ι τ α :=
  .bind c fun a => .bind (.terminal .ending) fun _ => .constant a

/-- What a watched run over a whole stream ends with. -/
def verdict (s : Stream) (seen : Return α × List Event) : Except ParseError α :=
  match seen.1 with
  | .accepted a _ => .ok a
  | .refused _ => .error ((Trace.of seen.2).error s)
  | .unfinished => .error ⟨.unfinished, s.ending⟩

/-- The error of a run is about the refusals of the watched run. -/
theorem run_eq_verdict (rules : RuleTable ι τ) (c : Combinator ι τ α) {s : Stream}
    (hs : s.SingleEnd) (n : Nat) :
    (c.parser (rules.unfold n)).run s = verdict s (c.whole.watch (rules.watch n) s 0) := by
  have hrun := (Tracks.combinator hs (Tracks.rule hs rules n) c.whole 0 (Nat.zero_le _)).run []
  -- the run of the whole form, read off at its start
  have hwhole : (do
      let a ← c.parser (rules.unfold n)
      let _ ← Parser.ending
      return a : Parser α) s 0 .empty = _ := hrun
  unfold Parser.run verdict
  dsimp only
  rw [hwhole, List.nil_append]
  cases (c.whole.watch (rules.watch n) s 0).1 <;> rfl

/-- An error is at a terminal of the source or at its end. -/
theorem furthest_le_of_watch (rules : RuleTable ι τ) (c : Combinator ι τ α) {s : Stream}
    (hs : s.SingleEnd) (n : Nat) :
    (Trace.of (c.watch (rules.watch n) s 0).2).furthest ≤ s.items.size := by
  have hinside := (Tracks.combinator hs (Tracks.rule hs rules n) c 0 (Nat.zero_le _)).inside
  rcases (Trace.reports_of (c.watch (rules.watch n) s 0).2).furthest_mem with ⟨-, hzero⟩ | ⟨what, h⟩
  · rw [hzero]
    exact Nat.zero_le _
  · exact hinside _ (mem_refusals.mp h)

end Whole

/-! ## §2 Forms -/

namespace Form

mutual

/-- A form as a combinator; its rules have texts for names. -/
def combinator : Form → Combinator Text (fun _ => Yield) Yield
  | .ending => .map textOfTerminal (.terminal .ending)
  | .ident => .map textOfTerminal (.terminal .ident)
  | .punct text => .map textOfTerminal (.terminal (.punct text))
  | .keyword word => .map textOfTerminal (.terminal (.keyword word))
  | .token kind what => .map textOfTerminal (.terminal (.token kind what))
  | .constant value => .constant (.text value)
  | .refuse what => .refuse what
  | .both p q => .both p.combinator q.combinator
  | .pair p q => .bind p.combinator fun a => .bind q.combinator fun b => .constant (.list [a, b])
  | .twice p =>
    .bind p.combinator fun a => .bind (.terminal (.punct a.textOf)) fun _ => .constant a
  | .firstOf ps => .firstOf (combinators ps)
  | .tagged tag p => .bind p.combinator fun a => .constant (.list [.text tag, a])
  | .many p => .bind (.many p.combinator) fun items => .constant (.list items)
  | .optional p => .optional p.combinator .nothing
  | .rule name => .rule name

/-- Forms as combinators. -/
def combinators : List Form → List (Combinator Text (fun _ => Yield) Yield)
  | [] => []
  | p :: ps => p.combinator :: combinators ps

end

mutual

/-- A form and its combinator mean the same parser. -/
theorem parser_combinator (rules : Text → Parser Yield) (p : Form) :
    p.combinator.parser rules = p.parser rules := by
  -- a form and its combinator are built in parallel, so only the parts differ
  cases p with
  | both p q =>
    have hp := parser_combinator rules p
    have hq := parser_combinator rules q
    show Parser.bind (p.combinator.parser rules) (fun _ => q.combinator.parser rules) = _
    rw [hp, hq]
    rfl
  | pair p q =>
    have hp := parser_combinator rules p
    have hq := parser_combinator rules q
    show Parser.bind (p.combinator.parser rules) (fun a =>
      Parser.bind (q.combinator.parser rules) fun b => Parser.constant (Yield.list [a, b])) = _
    rw [hp, hq]
    rfl
  | twice p =>
    have hp := parser_combinator rules p
    show Parser.bind (p.combinator.parser rules) (fun a =>
      Parser.bind (Parser.punct a.textOf) fun _ => Parser.constant a) = _
    rw [hp]
    rfl
  | firstOf ps =>
    have hps := parsers_combinators rules ps
    show (Combinator.firstOf (combinators ps)).parser rules = _
    rw [Combinator.parser_firstOf, hps]
    rfl
  | tagged tag p =>
    have hp := parser_combinator rules p
    show Parser.bind (p.combinator.parser rules)
      (fun a => Parser.constant (Yield.list [.text tag, a])) = _
    rw [hp]
    rfl
  | many p =>
    have hp := parser_combinator rules p
    show Parser.bind (Parser.many (p.combinator.parser rules))
      (fun items => Parser.constant (Yield.list items)) = _
    rw [hp]
    rfl
  | optional p =>
    have hp := parser_combinator rules p
    show (Combinator.optional p.combinator .nothing).parser rules = _
    rw [Combinator.parser_optional, hp]
    rfl
  | _ => rfl

/-- Forms and their combinators mean the same parsers. -/
theorem parsers_combinators (rules : Text → Parser Yield) (ps : List Form) :
    (combinators ps).map (·.parser rules) = parsers rules ps := by
  cases ps with
  | nil => rfl
  | cons p ps =>
    have hp := parser_combinator rules p
    have hps := parsers_combinators rules ps
    show p.combinator.parser rules :: (combinators ps).map (·.parser rules) = _
    rw [hp, hps]
    rfl

end

/-- Definitions as a table of rules. -/
def table (defs : Definitions) : RuleTable Text fun _ => Yield :=
  ⟨id, fun name => (defs.lookup name).map combinator⟩

theorem unfold_table (defs : Definitions) (n : Nat) : (table defs).unfold n = unfold defs n := by
  induction n with
  | zero => rfl
  | succ n ih =>
    funext name
    have htable : (table defs).body name = (defs.lookup name).map combinator := rfl
    unfold RuleTable.unfold unfold
    rw [htable, ih]
    cases defs.lookup name with
    | none => rfl
    | some p => exact parser_combinator _ p

/-- A form is run like its combinator. -/
theorem run_eq (defs : Definitions) (p : Form) {s : Stream} (hs : s.SingleEnd) :
    run defs p s = verdict s
      (p.combinator.whole.watch ((table defs).watch ((defs.length + 2) * (s.items.size + 2)))
        s 0) := by
  rw [← run_eq_verdict (table defs) p.combinator hs, unfold_table, parser_combinator]
  rfl

end Form

/-! ## §3 The grammar -/

namespace Grammar

/-- The terminals of a source end once. -/
theorem singleEnd_of_scanTerminals {source : Text} {s : Stream}
    (h : scanTerminals source = .ok s) : s.SingleEnd :=
  fun x hx => (proper_of_scanTerminals h x (Array.mem_toList_iff.mpr hx)).kind

/-- What becomes of a stream is the verdict on a watched run of the productions. -/
theorem parseStream_eq_verdict {s : Stream} (hs : s.SingleEnd) :
    parseStream s =
      (verdict s (Part.program.whole.watch (table.watch (unfoldings s)) s 0)).map
        fun stmts => ⟨stmts, .nowhere⟩ := by
  rw [← run_eq_verdict table Part.program hs, parser_program]
  unfold parseStream
  cases (program (unfoldings s)).run s <;> rfl

/-- A source that does not parse is reported where the furthest refusal of that run was. -/
theorem parse_eq_verdict {source : Text} {s : Stream} (h : scanTerminals source = .ok s) :
    parse source =
      (verdict s (Part.program.whole.watch (table.watch (unfoldings s)) s 0)).map
        fun stmts => ⟨stmts, .nowhere⟩ := by
  have hparse : parse source = parseStream s := by
    unfold parse
    rw [h]
    rfl
  rw [hparse, parseStream_eq_verdict (singleEnd_of_scanTerminals h)]

end Grammar

end Scriptlet
