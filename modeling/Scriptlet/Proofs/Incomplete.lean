import Scriptlet.Proofs.Completion

/-!
# Incomplete sources

A source is reported as incomplete where the grammar expected more at its end. For a source that
ends in a line end, and in which no comment or string literal is open, the report is exact: an
incomplete source is the start of a program, and no text makes one of a source that fails otherwise.

In one direction the terminals of the source are completed by symbols, which are then written behind
it. In the other, a parse that never met the end of its terminals fails in the same way however many
terminals follow.

## Contents

- §1 what the parse of a stream reports
- §2 longer streams
- §3 completed sources
- §4 when a source is incomplete
-/

namespace Scriptlet

open scoped Computability

/-! ## §1 What the parse of a stream reports -/

namespace Parser

variable {α : Type} {s : Stream} {pos : Nat}

/-- A repetition ends with what has been read. -/
theorem manyUpTo_ne_failed (p : Parser α) (count : Nat) (t : Trace) :
    (manyUpTo p count s pos t).1 ≠ .failed := by
  induction count generalizing pos t with
  | zero => simp [manyUpTo, constant]
  | succ count ih =>
    rw [manyUpTo_onward]
    obtain ⟨reply, t₁⟩ := p s pos t
    -- a round that fails ends the repetition where it began
    cases reply with
    | done a fin =>
      simp only [onward]
      split
      · simp
      · have hmore : (manyUpTo p count s fin t₁).1 ≠ .failed := ih t₁
        generalize manyUpTo p count s fin t₁ = out at hmore
        obtain ⟨reply, t₂⟩ := out
        cases reply with
        | failed => exact absurd rfl hmore
        | done | unfinished => simp
    | failed => simp [onward]
    | unfinished => simp [onward]

/-- A parser that stops at the end has read the whole stream; one that stops before it is refused
the end there. -/
theorem run_of_done {p : Parser α} {a : α} {fin : Nat} {t : Trace}
    (hproper : ∀ x ∈ s.items.toList, x.Proper) (hrun : p s 0 .empty = (.done a fin, t))
    (hfin : fin ≤ s.items.size) : p.run s =
      if fin = s.items.size then .ok a else .error ((t.note fin "end of input").error s) := by
  have hwhole : (p >>= fun a => ending >>= fun _ => Pure.pure a) s 0 .empty
      = (ending >>= fun _ => (Pure.pure a : Parser α)) s fin t := by
    rw [bind_onward, hrun]
    rfl
  simp only [Parser.run]
  -- the parser has stopped before the end, or at it
  rw [hwhole, bind_onward]
  rcases Nat.lt_or_eq_of_le hfin with hlt | rfl
  · rw [if_neg (Nat.ne_of_lt hlt), ending_of_lt hproper hlt]
    rfl
  · have hpeek := Stream.peek_of_le (s := s) (Nat.le_refl _)
    rw [if_pos rfl]
    simp only [ending, satisfy, hpeek, onward]
    rfl

end Parser

namespace Stream

variable {s : Stream}

theorem Extends.refl (hproper : ∀ x ∈ s.items.toList, x.Proper) : s.Extends s :=
  ⟨⟨#[], by simp⟩, hproper⟩

end Stream

/-- The trace reports an incomplete source if it was the end that was refused furthest. -/
theorem Trace.isIncomplete_error {s : Stream} (hproper : ∀ x ∈ s.items.toList, x.Proper)
    (t : Trace) : (t.error s).fault.isIncomplete = true ↔ s.items.size ≤ t.furthest := by
  rcases Nat.lt_or_ge t.furthest s.items.size with hlt | hge
  · simp [Trace.error, Stream.kind_peek hproper hlt, ParseFault.isIncomplete, hlt]
  · simp [Trace.error, Stream.peek_of_le hge, ParseFault.isIncomplete, hge]

namespace Grammar

open Scriptlet.Parser

variable {s s' : Stream} {e : ParseError}

/-- The parse of a stream reads statements up to some place, which has to be the end. -/
theorem parseStream_cases (hproper : ∀ x ∈ s.items.toList, x.Proper) :
    ∃ stmts fin t, program (unfoldings s) s 0 .empty = (.done stmts fin, t) ∧
      fin ≤ s.items.size ∧
      parseStream s = if fin = s.items.size then .ok ⟨stmts, .nowhere⟩
        else .error ((t.note fin "end of input").error s) := by
  have hfirm := program_firm (Stream.Extends.refl hproper) .empty
  have hmany : (program (unfoldings s) s 0 .empty).1 ≠ .failed :=
    manyUpTo_ne_failed (unfold (unfoldings s) .statement) (s.items.size + 1) .empty
  cases hout : program (unfoldings s) s 0 .empty with
  | mk reply t =>
  -- a repetition neither fails nor runs out, since each round reads a terminal
  rw [hout] at hfirm hmany
  cases reply with
  | unfinished => exact absurd rfl hfirm.finishes
  | failed => exact absurd rfl hmany
  | done stmts fin =>
    have hfin := (hfirm.stops stmts fin rfl).2
    refine ⟨stmts, fin, t, rfl, hfin, ?_⟩
    rw [parseStream, run_of_done hproper hout hfin]
    split <;> rfl

/-- **The unfoldings of the rules are enough**: no source fails because they are used up. -/
theorem parse_ne_unfinished {source : Text} (h : Grammar.parse source = .error e) :
    e.fault ≠ .unfinished := by
  cases hscan : scanTerminals source with
  | error fault =>
    rw [Grammar.parse, hscan] at h
    cases h
    exact ParseFault.noConfusion
  | ok s =>
    -- the parse succeeds, or fails with what was refused at the place it stopped
    rw [Grammar.parse_eq hscan] at h
    obtain ⟨stmts, fin, t, _, _, hparse⟩ := parseStream_cases (proper_of_scanTerminals hscan)
    rw [h] at hparse
    split at hparse
    · cases hparse
    · cases hparse
      exact ParseFault.noConfusion

/-! ## §2 Longer streams -/

/-- **What fails before the end fails for good**: if the end was not expected to go on, the same
error is reported with any terminals behind it. -/
theorem parseStream_extends_error (hs : s.Extends s')
    (hproper : ∀ x ∈ s'.items.toList, x.Proper) (h : parseStream s = .error e)
    (he : e.fault.isIncomplete = false) : parseStream s' = .error e := by
  obtain ⟨stmts, fin, t, hrun, hfin, hparse⟩ := parseStream_cases hs.proper
  rw [h] at hparse
  split at hparse
  · cases hparse
  · next hne =>
    cases hparse
    -- the end was not met, neither by the statements nor behind them
    have hlt : (t.note fin "end of input").furthest < s.items.size := by
      refine Nat.not_le.mp fun hle => ?_
      rw [(Trace.isIncomplete_error hs.proper _).mpr hle] at he
      cases he
    have hsame := (program_firm hs .empty).same
    rw [hrun] at hsame
    have hrun' := hsame (Trace.note_lt_iff.mp hlt).1
    have hsize := hs.size_le
    have hfails := run_of_done hproper hrun' (by omega)
    rw [if_neg (by omega)] at hfails
    rw [parseStream, hfails]
    simp only [Trace.error, hs.peek_eq hlt]
    rfl

/-! ## §3 Completed sources -/

/-- **What fails at the end can be completed**: with some symbols behind them the terminals are
statements. -/
theorem exists_completion (hproper : ∀ x ∈ s.items.toList, x.Proper)
    (h : parseStream s = .error e) (he : e.fault.isIncomplete = true) :
    ∃ ys : List Symbol, (∀ y ∈ ys, y.Writable) ∧ s.left 0 ++ ys ∈ stated∗ := by
  obtain ⟨stmts, fin, t, hrun, hfin, hparse⟩ := parseStream_cases hproper
  rw [h] at hparse
  split at hparse
  · cases hparse
  · next hne =>
    cases hparse
    have hmet := (Trace.isIncomplete_error hproper _).mp he
    rw [Trace.furthest_note] at hmet
    -- the end was met by the statements, since they stop before it
    have hlt : Trace.empty.furthest < s.items.size := by
      show 0 < s.items.size
      omega
    rcases (program_viable hproper (unfoldings s)).run 0 (Nat.zero_le _) .empty hlt with
      hopen | ⟨hbefore, _⟩
    · exact hopen
    · rw [hrun] at hbefore
      simp only at hbefore
      omega

theorem mem_readable {xs : List Symbol} (h : xs ∈ stated∗) : ∀ x ∈ xs, x.readable = true := by
  obtain ⟨parts, hparts, rfl⟩ := mem_statements h
  intro x hx
  obtain ⟨a, ha, hx⟩ := List.mem_flatMap.mp hx
  exact (hparts a ha).readable x hx

/-- The symbols, written behind the source, complete it to a program. -/
theorem parse_completed {source : Text} {ys : List Symbol}
    (hline : source.getLast? = some Text.newline) (hscan : scanTerminals source = .ok s)
    (hys : ∀ y ∈ ys, y.Writable) (h : s.left 0 ++ ys ∈ stated∗) :
    ∃ p, Grammar.parse (source ++ spaced ys) = .ok p := by
  have hreadable : ∀ y ∈ ys, y.readable = true := fun y hy =>
    mem_readable h y (List.mem_append_right _ hy)
  -- behind the terminals of the source stand those of the symbols
  obtain ⟨items, fin, hmore, hitems⟩ := scans_of_spells (spells_spaced hys) hreadable s.ending
  have hglyphs : (spaced ys).glyphs = glyphsOf (spacedChars ys) := by
    rw [spaced_eq_ofChars, Text.glyphs_ofChars]
  have hlong := scanTerminals_append hline hscan (spaced ys)
  rw [hglyphs, hmore] at hlong
  have hleft : Stream.left ⟨s.items ++ items.toArray, fin⟩ 0 = s.left 0 ++ ys := by
    simp [Stream.left, ← hitems]
  obtain ⟨parts, hparts, heq⟩ := mem_statements h
  obtain ⟨p, hp, _⟩ := parseStream_of_stated (hleft.trans heq) hparts
  exact ⟨p, (Grammar.parse_eq hlong).trans hp⟩

end Grammar

/-! ## §4 When a source is incomplete -/

/-- **The report of an incomplete source is exact.** A source that ends in a line end, has no open
comment or string literal and does not parse is reported as incomplete if and only if it is the
start of a source that does. -/
theorem isIncomplete_iff_continues {source : Text} {e : ParseError}
    (hline : source.getLast? = some Text.newline)
    (hclosed : ∀ fault, scanTerminals source = .error fault →
      fault.fault ≠ .openComment ∧ fault.fault ≠ .openString)
    (h : Grammar.parse source = .error e) :
    e.fault.isIncomplete = true ↔ ∃ t p, Grammar.parse (source ++ t) = .ok p := by
  cases hscan : scanTerminals source with
  | error fault =>
    obtain ⟨hcomment, hstring⟩ := hclosed fault hscan
    rw [Grammar.parse, hscan] at h
    cases h
    constructor
    · intro he
      -- only open comments and literals make a source incomplete that has no terminals
      obtain ⟨fault, loc⟩ := fault
      cases fault with
      | invalidInput => cases he
      | openComment => exact absurd rfl hcomment
      | openString => exact absurd rfl hstring
    · rintro ⟨t, p, hp⟩
      obtain ⟨fault', hfault'⟩ := scanTerminals_append_error hline hscan hcomment hstring t
      rw [Grammar.parse, hfault'] at hp
      cases hp
  | ok s =>
    have hproper := proper_of_scanTerminals hscan
    have hparse : Grammar.parseStream s = .error e := by
      rw [Grammar.parse, hscan] at h
      exact h
    constructor
    · intro he
      obtain ⟨ys, hys, hmem⟩ := Grammar.exists_completion hproper hparse he
      exact ⟨spaced ys, Grammar.parse_completed hline hscan hys hmem⟩
    · rintro ⟨t, p, hp⟩
      by_contra he
      obtain ⟨s', hs', hp'⟩ := bind_eq_ok.mp hp
      have hscan' := mapError_eq_ok.mp hs'
      have hmore := scanTerminals_append hline hscan t
      rw [hscan'] at hmore
      -- the terminals of the source stand at the head of those of the longer one
      have hs : s.Extends s' := by
        cases hread : scanFrom s.ending 0 t.glyphs with
        | error fault =>
          rw [hread] at hmore
          cases hmore
        | ok read =>
          rw [hread] at hmore
          cases hmore
          exact ⟨⟨_, rfl⟩, hproper⟩
      have hfails := Grammar.parseStream_extends_error hs (proper_of_scanTerminals hscan') hparse
        (by simpa using he)
      rw [hfails] at hp'
      cases hp'

/-- An open brace can be closed by more text, and a parenthesis closed too early can not be mended. -/
theorem isIncomplete_iff_continues_braces :
    (∃ t p, Grammar.parse (("while (x) \x7b y += '\x7b';\n" : Text) ++ t) = .ok p) ∧
      ¬ ∃ t p, Grammar.parse (("while (x)) \x7b y += 1;\n" : Text) ++ t) = .ok p := by
  constructor
  · let source : Text := "while (x) \x7b y += '\x7b';\n"
    have hscan : (scanTerminals source).isOk = true := by decide +kernel
    have hreport : (match Grammar.parse source with
      | .error e => e.fault.isIncomplete
      | .ok _ => false) = true := by decide +kernel
    split at hreport
    · next e h =>
      refine (isIncomplete_iff_continues (by decide) (fun fault hfault => ?_) h).mp hreport
      rw [hfault] at hscan
      cases hscan
    · cases hreport
  · let source : Text := "while (x)) \x7b y += 1;\n"
    have hscan : (scanTerminals source).isOk = true := by decide +kernel
    have hreport : (match Grammar.parse source with
      | .error e => e.fault.isIncomplete
      | .ok _ => true) = false := by decide +kernel
    split at hreport
    · next e h =>
      refine mt (isIncomplete_iff_continues (by decide) (fun fault hfault => ?_) h).mpr ?_
      · rw [hfault] at hscan
        cases hscan
      · simp [hreport]
    · cases hreport

end Scriptlet
