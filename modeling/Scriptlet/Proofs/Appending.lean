import Scriptlet.Forest.Reduce
import Scriptlet.Proofs.Comments
import Scriptlet.Proofs.Continuation
import Scriptlet.Proofs.Folding
import Scriptlet.Proofs.Tokens

/-!
# Tokens and groups of sources that go on

Where a source ends in a line end and has tokens together with more text behind it, it has tokens by
itself, and they come first. The only exception is that it ends inside a comment or a literal. The
same holds of groups, and the exception is a delimiter that is not closed.

A line end completes what the scanner has pending, unless it belongs to a comment that goes on
because the line end is escaped. That comment ends with a line end of its own or with the source,
and either completes what is pending.

## Contents

- §1 marks
- §2 comments
- §3 scanning on
- §4 tokens
- §5 levels and groups
-/

namespace Scriptlet

/-! ## §1 Marks -/

/-- The marks of a text come before those of what is behind it, unless the text ends with a
backslash. -/
theorem Mark.prefix_of_ofGlyphs {loc : Location} {gs hs : List Glyph} {marks : List Mark}
    (h : Mark.ofGlyphs loc (gs ++ hs) = .ok marks) :
    (∃ short, Mark.ofGlyphs loc gs = .ok short ∧ short <+: marks) ∨
      ∃ fin, Mark.ofGlyphs loc gs = .error ⟨.openEscape, fin⟩ := by
  -- a backslash at the end takes its glyph from the text behind, which is the one way to differ
  fun_induction Mark.ofGlyphs loc gs generalizing marks with
  | case1 => exact .inl ⟨[], rfl, List.nil_prefix⟩
  | case2 | case4 => cases h
  | case3 loc => exact .inr ⟨loc, rfl⟩
  | case5 loc next c rest =>
    rename_i ih
    rw [List.cons_append, List.cons_append, Mark.ofGlyphs] at h
    obtain ⟨more, hmore, heq⟩ := bind_eq_ok.mp h
    cases heq
    rcases ih hmore with ⟨short, hshort, hprefix⟩ | ⟨fin, hfin⟩
    · exact .inl ⟨_, bind_eq_ok.mpr ⟨short, hshort, rfl⟩, List.cons_prefix_cons.mpr ⟨rfl, hprefix⟩⟩
    · rw [hfin]
      exact .inr ⟨fin, rfl⟩
  | case6 loc c rest hslash ih =>
    rw [List.cons_append, Mark.ofGlyphs] at h
    · obtain ⟨more, hmore, heq⟩ := bind_eq_ok.mp h
      cases heq
      rcases ih hmore with ⟨short, hshort, hprefix⟩ | ⟨fin, hfin⟩
      · exact .inl
          ⟨_, bind_eq_ok.mpr ⟨short, hshort, rfl⟩, List.cons_prefix_cons.mpr ⟨rfl, hprefix⟩⟩
      · rw [hfin]
        exact .inr ⟨fin, rfl⟩
    · exact hslash

/-- The last mark of a line is its line end, which may be escaped. -/
theorem Mark.ends_of_ofGlyphs {loc : Location} {gs : List Glyph} {marks : List Mark}
    (h : Mark.ofGlyphs loc (gs ++ [.char '\n']) = .ok marks) :
    ∃ before m, marks = before ++ [m] ∧ m.char = '\n' := by
  obtain ⟨hraw, -⟩ := Mark.raw_of_ofGlyphs h
  rcases List.eq_nil_or_concat marks with rfl | ⟨before, m, rfl⟩
  · simp at hraw
  · refine ⟨before, m, by simp, ?_⟩
    -- the character of a mark is the last glyph it was read from
    have hm : m.raw.getLast? = some m.char := by
      unfold Mark.raw
      split <;> rfl
    have hlast := congrArg List.getLast? hraw
    simp [List.getLast?_append, hm] at hlast
    exact hlast.symm

/-! ## §2 Comments -/

/-- Inside a comment that runs to the end of its line, nothing is kept up to the line end. -/
theorem stripComments_line {marks kept : List Mark} (h : stripComments .line marks = .ok kept) :
    kept = [] ∨ ∃ m rest, kept = m :: rest ∧ m.isPlain '\n' = true := by
  induction marks generalizing kept with
  | nil =>
    cases h
    exact .inl rfl
  | cons m marks ih =>
    obtain ⟨more, hmore, rfl⟩ := stripComments_cons h
    cases hm : m.isPlain '\n' with
    | true =>
      refine .inr ⟨m, more, ?_, hm⟩
      simp [CommentMode.step, hm]
    | false =>
      -- any mark but a plain line end is dropped, and the comment goes on
      have hstep : CommentMode.line.step m = (.line, []) := by simp [CommentMode.step, hm]
      rw [hstep] at hmore ⊢
      exact ih hmore

/-- What is kept of marks that end with a line end, and of more marks behind them: the line end is
kept, or the comment it belongs to goes on to another one or to the end. -/
def LineKept (kept extra : List Mark) : Prop :=
  (∃ before m, kept = before ++ [m] ∧ m.char = '\n') ∨ extra = [] ∨
    ∃ m rest, extra = m :: rest ∧ m.isPlain '\n' = true

theorem LineKept.cons {ms kept extra : List Mark} (h : LineKept kept extra) :
    LineKept (ms ++ kept) extra := by
  rcases h with ⟨before, m, rfl, hm⟩ | hextra
  · exact .inl ⟨ms ++ before, m, by simp, hm⟩
  · exact .inr hextra

theorem CommentMode.stepCode_newline {m : Mark} (hm : m.char = '\n') :
    stepCode m = (.code, [m]) := by
  obtain ⟨c, escaped, loc⟩ := m
  cases hm
  cases escaped <;> rfl

/-- A line end is kept, or it is escaped and belongs to a comment of the line, or a block comment is
open behind it. -/
theorem CommentMode.step_newline (mode : CommentMode) {m : Mark} (hm : m.char = '\n') :
    (∃ before, (mode.step m).2 = before ++ [m] ∧ (mode.step m).1.finish = .ok []) ∨
      mode.step m = (.line, []) ∨ ∃ at_, (mode.step m).1.finish = .error ⟨.openComment, at_⟩ := by
  have hslash : m.isPlain '/' = false := by simp [Mark.isPlain, hm]
  have hstar : m.isPlain '*' = false := by simp [Mark.isPlain, hm]
  -- only in a line comment can the line end be escaped, and only a block comment outlives it
  cases mode with
  | code =>
    exact .inl
      ⟨[], by simp [step, stepCode_newline hm], by simp [step, stepCode_newline hm, finish]⟩
  | slash s =>
    exact .inl ⟨[s], by simp [step, hslash, hstar, stepCode_newline hm],
      by simp [step, hslash, hstar, stepCode_newline hm, finish]⟩
  | quoted q =>
    refine .inl ⟨[], by simp [step], ?_⟩
    simp only [step]
    split <;> rfl
  | line =>
    cases hplain : m.isPlain '\n' with
    | true => exact .inl ⟨[], by simp [step, hplain], by simp [step, hplain, finish]⟩
    | false => exact .inr (.inl (by simp [step, hplain]))
  | block at_ => exact .inr (.inr ⟨at_, by simp [step, hstar, finish]⟩)
  | blockStar at_ => exact .inr (.inr ⟨at_, by simp [step, hslash, hstar, finish]⟩)

section

variable {mode : CommentMode} {m : Mark} {marks kept : List Mark} {e : LexError}

theorem stripComments_of_step (h : stripComments (mode.step m).1 marks = .ok kept) :
    stripComments mode (m :: marks) = .ok ((mode.step m).2 ++ kept) :=
  bind_eq_ok.mpr ⟨kept, h, rfl⟩

theorem stripComments_error_of_step (h : stripComments (mode.step m).1 marks = .error e) :
    stripComments mode (m :: marks) = .error e := by
  rw [stripComments]
  simp only [h]
  rfl

end

/-- What is kept of a line comes before what is kept of what is behind it, unless a block comment is
open at its end. -/
theorem prefix_of_stripComments {mode : CommentMode} {before marks kept : List Mark} {m : Mark}
    (hm : m.char = '\n') (h : stripComments mode (before ++ m :: marks) = .ok kept) :
    (∃ short extra, stripComments mode (before ++ [m]) = .ok short ∧ kept = short ++ extra ∧
      LineKept short extra) ∨
      ∃ at_, stripComments mode (before ++ [m]) = .error ⟨.openComment, at_⟩ := by
  induction before generalizing mode kept with
  | nil =>
    obtain ⟨more, hmore, rfl⟩ := stripComments_cons h
    rw [List.nil_append]
    -- the line end may complete what is kept, be dropped with its comment, or be inside a block
    rcases mode.step_newline hm with ⟨start, hstart, hfinish⟩ | hline | ⟨at_, hopen⟩
    · have hshort := stripComments_of_step (show stripComments _ [] = _ from hfinish)
      rw [hstart, List.append_nil] at hshort
      exact .inl ⟨_, more, hshort, by rw [hstart], .inl ⟨start, m, rfl, hm⟩⟩
    · have hend : stripComments (mode.step m).1 [] = .ok [] := by
        rw [hline]
        rfl
      have hshort := stripComments_of_step hend
      rw [hline] at hmore hshort ⊢
      exact .inl ⟨[], more, hshort, rfl, .inr (stripComments_line hmore)⟩
    · exact .inr ⟨at_, stripComments_error_of_step hopen⟩
  | cons x before ih =>
    obtain ⟨more, hmore, rfl⟩ := stripComments_cons h
    rcases ih hmore with ⟨short, extra, hshort, rfl, hkept⟩ | ⟨at_, hopen⟩
    · exact .inl ⟨_, extra, stripComments_of_step hshort, (List.append_assoc _ _ _).symm,
        hkept.cons⟩
    · exact .inr ⟨at_, stripComments_error_of_step hopen⟩

/-! ## §3 Scanning on -/

namespace Scan

/-- The scanner has only added to what is done. -/
def Adds (s s' : Scan) : Prop := ∃ new, s'.done = new ++ s.done

theorem Adds.refl (s : Scan) : s.Adds s := ⟨[], rfl⟩

theorem Adds.trans {s s' s'' : Scan} (h : s.Adds s') (h' : s'.Adds s'') : s.Adds s'' := by
  obtain ⟨new, hnew⟩ := h
  obtain ⟨newer, hnewer⟩ := h'
  exact ⟨newer ++ new, by rw [hnewer, hnew, List.append_assoc]⟩

theorem adds_flush {s s' : Scan} (h : s.flush = .ok s') : s.Adds s' := by
  unfold flush at h
  split at h
  · cases h
    exact .refl s
  · cases h
    exact .refl s
  · cases h
    exact ⟨[_], rfl⟩
  · cases h
    exact ⟨[_], rfl⟩
  -- a run of operators may complete several lexemes, newest first
  · obtain ⟨ops, _, heq⟩ := bind_eq_ok.mp h
    cases heq
    exact ⟨ops.reverse, rfl⟩

theorem adds_flushTo {s s' : Scan} {p : Pending} (h : s.flushTo p = .ok s') : s.Adds s' := by
  obtain ⟨flushed, hflush, heq⟩ := bind_eq_ok.mp h
  cases heq
  obtain ⟨new, hnew⟩ := adds_flush hflush
  exact ⟨new, hnew⟩

theorem adds_stepCode {s s' : Scan} {m : Mark} (h : s.stepCode m = .ok s') : s.Adds s' := by
  cases codeStep_of_stepCode h with
  | continues => exact ⟨[], rfl⟩
  | begins _ _ hto => exact adds_flushTo hto
  | delimiter _ hflush =>
    -- what was pending is complete, and the delimiter is complete itself
    obtain ⟨new, hnew⟩ := adds_flush hflush
    exact ⟨_ :: new, by rw [hnew, List.cons_append]⟩
  | blank _ hflush => exact adds_flush hflush

theorem adds_step {s s' : Scan} {m : Mark} (h : s.step m = .ok s') : s.Adds s' := by
  unfold step at h
  split at h
  · split at h
    · cases h
      exact ⟨[_], rfl⟩
    · cases h
      exact ⟨[], rfl⟩
  · exact adds_stepCode h

theorem adds_foldlM {s s' : Scan} {marks : List Mark} (h : marks.foldlM step s = .ok s') :
    s.Adds s' := by
  induction marks generalizing s with
  | nil =>
    cases h
    exact .refl _
  | cons m marks ih =>
    obtain ⟨mid, hmid, h⟩ := bind_eq_ok.mp h
    exact (adds_step hmid).trans (ih h)

/-- Outside string literals a line end completes what is pending. -/
theorem stepCode_newline {s s' : Scan} {m : Mark} (hm : m.char = '\n')
    (h : s.stepCode m = .ok s') : s.flush = .ok s' := by
  obtain ⟨c, escaped, loc⟩ := m
  cases hm
  cases escaped with
  | true => cases h
  | false => exact h

/-- Behind a line end nothing is pending, unless it is a string literal that goes on. -/
theorem pending_of_step_newline {s s' : Scan} {m : Mark} (hm : m.char = '\n')
    (h : s.step m = .ok s') :
    s'.pending = .nothing ∨ ∃ q cs loc, s'.pending = .string q cs loc := by
  unfold step at h
  split at h
  · split at h
    · cases h
      exact .inl rfl
    · cases h
      exact .inr ⟨_, _, _, rfl⟩
  · next hcode =>
    -- flushing at the line end came down to flushing what was pending before it
    rcases pending_of_flush (stepCode_newline hm h) with hnone | ⟨q, cs, loc, hstring⟩
    · exact .inl hnone
    · exact absurd hstring (hcode q cs loc)

theorem prefix_of_finish {s : Scan} {placed : List Placed} (h : s.finish = .ok placed) :
    s.done.reverse <+: placed := by
  unfold finish at h
  split at h
  · cases h
  · obtain ⟨flushed, hflush, heq⟩ := bind_eq_ok.mp h
    cases heq
    obtain ⟨new, hnew⟩ := adds_flush hflush
    exact ⟨new.reverse, by rw [hnew, List.reverse_append]⟩

theorem Adds.prefix_reverse {s s' : Scan} (h : s.Adds s') : s.done.reverse <+: s'.done.reverse := by
  obtain ⟨new, hnew⟩ := h
  exact ⟨new.reverse, by rw [hnew, List.reverse_append]⟩

/-- What is complete where a line ends comes before what is complete behind it, unless a string
literal is open. -/
theorem prefix_of_scanMarks {kept extra : List Mark} {placed : List Placed}
    (hline : LineKept kept extra) (h : scanMarks (kept ++ extra) = .ok placed) :
    (∃ short, scanMarks kept = .ok short ∧ short <+: placed) ∨
      ∃ loc, scanMarks kept = .error ⟨.openString, loc⟩ := by
  obtain ⟨fin, hfin, hplaced⟩ := bind_eq_ok.mp h
  rw [List.foldlM_append] at hfin
  obtain ⟨mid, hmid, hbehind⟩ := bind_eq_ok.mp hfin
  have hscan : scanMarks kept = mid.finish := by
    rw [scanMarks, hmid]
    rfl
  rw [hscan]
  by_cases hstring : ∃ q cs loc, mid.pending = .string q cs loc
  · obtain ⟨q, cs, loc, hpending⟩ := hstring
    exact .inr ⟨loc, by rw [finish, hpending]⟩
  have hcode : ∀ q cs loc, mid.pending ≠ .string q cs loc :=
    fun q cs loc hpending => hstring ⟨q, cs, loc, hpending⟩
  left
  rcases hline with ⟨before, m, rfl, hm⟩ | rfl | ⟨m, rest, rfl, hm⟩
  · -- the line end has left nothing pending
    rw [List.foldlM_append] at hmid
    obtain ⟨last, _, hlast⟩ := bind_eq_ok.mp hmid
    obtain ⟨_, hlast, heq⟩ := bind_eq_ok.mp hlast
    cases heq
    have hnone := (pending_of_step_newline hm hlast).resolve_right hstring
    have hflush : mid.flush = .ok mid := by rw [flush, hnone]
    refine ⟨mid.done.reverse, by rw [finish_eq hcode, hflush]; rfl, ?_⟩
    exact (adds_foldlM hbehind).prefix_reverse.trans (prefix_of_finish hplaced)
  · cases hbehind
    exact ⟨placed, hplaced, List.prefix_refl _⟩
  · -- another line end completes what is pending
    obtain ⟨next, hnext, hrest⟩ := bind_eq_ok.mp hbehind
    obtain ⟨_, hchar⟩ : m.escaped = false ∧ m.char = '\n' := by simpa [Mark.isPlain] using hm
    rw [step_eq hcode] at hnext
    have hflush := stepCode_newline hchar hnext
    refine ⟨next.done.reverse, by rw [finish_eq hcode, hflush]; rfl, ?_⟩
    exact (adds_foldlM hrest).prefix_reverse.trans (prefix_of_finish hplaced)

end Scan

/-! ## §4 Tokens -/

theorem markLeading_append (afterOperand : Bool) (ps qs : List Placed) :
    ∃ flag, markLeading afterOperand (ps ++ qs) =
      markLeading afterOperand ps ++ markLeading flag qs := by
  induction ps generalizing afterOperand with
  | nil => exact ⟨afterOperand, by rw [markLeading, List.nil_append, List.nil_append]⟩
  | cons p ps ih =>
    obtain ⟨x, loc⟩ := p
    cases x with
    -- only an operator asks what stands before it, and the flag behind it is known
    | operator op fixity =>
      obtain ⟨flag, hflag⟩ := ih _
      exact ⟨flag, by rw [List.cons_append, markLeading, hflag, markLeading, List.cons_append]⟩
    | _ =>
      obtain ⟨flag, hflag⟩ := ih _
      exact ⟨flag, congrArg (_ :: ·) hflag⟩

theorem numberFrom_append (i : Nat) (ps qs : List Placed) :
    numberFrom i (ps ++ qs) = numberFrom i ps ++ numberFrom (i + ps.length) qs := by
  induction ps generalizing i with
  | nil => rfl
  | cons p ps ih =>
    rw [List.cons_append, numberFrom, ih, numberFrom, List.cons_append, List.length_cons]
    congr 3
    omega

/-- **The tokens of a line come first.** Where a source that ends in a line end has tokens together
with more text, it has tokens by itself and they come first, unless more text could be what it
lacks. -/
theorem prefix_of_tokenize {source more : Text} {tokens : List Token}
    (hline : source.getLast? = some Text.newline) (h : tokenize (source ++ more) = .ok tokens) :
    (∃ short, tokenize source = .ok short ∧ short <+: tokens) ∨
      ∃ e, tokenize source = .error e ∧ e.fault.isIncomplete = true := by
  obtain ⟨marks, hmarks, h⟩ := bind_eq_ok.mp h
  obtain ⟨kept, hkept, h⟩ := bind_eq_ok.mp h
  obtain ⟨placed, hplaced, heq⟩ := bind_eq_ok.mp h
  cases heq
  obtain ⟨gs, hgs⟩ := exists_line hline
  have hsource : source.glyphs = gs ++ [.char '\n'] := by
    have hnone := hgs []
    rwa [List.append_nil] at hnone
  rw [Mark.ofText, glyphs_append hline] at hmarks
  -- each stage of the short source has come first in what the stage has of the long one
  rcases Mark.prefix_of_ofGlyphs hmarks with ⟨_, hshort, behind, rfl⟩ | ⟨loc, hopen⟩
  · have hends := hshort
    rw [hsource] at hends
    obtain ⟨before, m, rfl, hm⟩ := Mark.ends_of_ofGlyphs hends
    rw [List.append_assoc, List.singleton_append] at hkept
    have hofText : Mark.ofText source = .ok (before ++ [m]) := hshort
    rcases prefix_of_stripComments hm hkept with ⟨short, extra, hstrip, rfl, hkeeps⟩ | ⟨loc, hopen⟩
    · rcases Scan.prefix_of_scanMarks hkeeps hplaced with ⟨first, hscan, next, rfl⟩ | ⟨loc, hopen⟩
      · left
        refine ⟨_, bind_eq_ok.mpr
          ⟨_, hofText, bind_eq_ok.mpr ⟨short, hstrip, bind_eq_ok.mpr ⟨first, hscan, rfl⟩⟩⟩, ?_⟩
        obtain ⟨flag, hflag⟩ := markLeading_append false first next
        rw [hflag, numberFrom_append]
        exact List.prefix_append _ _
      · exact .inr ⟨⟨.openString, loc⟩, by
          simp [tokenize, bind, Except.bind, hofText, hstrip, hopen], rfl⟩
    · exact .inr ⟨⟨.openComment, loc⟩, by
        simp [tokenize, bind, Except.bind, hofText, hopen], rfl⟩
  · have hofText : Mark.ofText source = .error ⟨.openEscape, loc⟩ := hopen
    exact .inr ⟨⟨.openEscape, loc⟩, by rw [tokenize, hofText]; rfl, rfl⟩

/-- **Lines keep their tokens.** A source that ends in a line end has the same tokens, in all they
say, whatever follows it, as long as it has any with what follows. And where it has none for a
reason that more text cannot take away, it has none with more text. -/
theorem tokenize_append_line (source more : Text)
    (hline : source.getLast? = some Text.newline) :
    (∀ short tokens, tokenize source = .ok short → tokenize (source ++ more) = .ok tokens →
        short <+: tokens) ∧
      ∀ e, tokenize source = .error e → e.fault.isIncomplete = false →
        ∃ e', tokenize (source ++ more) = .error e' := by
  constructor
  · intro short tokens hshort hlong
    -- the two readings of the line agree, so its tokens are the first of the longer row
    rcases prefix_of_tokenize hline hlong with ⟨short', hshort', hprefix⟩ | ⟨e, he, -⟩
    · obtain rfl : short = short' := Except.ok.inj (hshort.symm.trans hshort')
      exact hprefix
    · rw [hshort] at he
      cases he
  · intro e he hclosed
    cases hlong : tokenize (source ++ more) with
    | error e' => exact ⟨e', rfl⟩
    | ok tokens =>
      rcases prefix_of_tokenize hline hlong with ⟨short, hshort, -⟩ | ⟨e', he', hopen⟩
      · rw [hshort] at he
        cases he
      · obtain rfl : e = e' := Except.error.inj (he.symm.trans he')
        rw [hclosed] at hopen
        cases hopen

/-- An escaped line end that belongs to a comment takes the next line into the comment, and the
tokens stay. An escaped line end outside comments and literals is refused whatever follows. -/
theorem tokenize_append_line_escaped :
    let source : Text := "x // one \\\n"
    let stray : Text := "x \\\n"
    (∃ short tokens, tokenize source = .ok short ∧ tokenize (source ++ "y\n+ 2") = .ok tokens ∧
        short <+: tokens) ∧
      ∃ e e', tokenize stray = .error e ∧ tokenize (stray ++ "y") = .error e' := by
  intro source stray
  obtain ⟨short, hshort⟩ := exists_eq_ok (show (tokenize source).isOk = true by decide +kernel)
  obtain ⟨tokens, htokens⟩ :=
    exists_eq_ok (show (tokenize (source ++ "y\n+ 2")).isOk = true by decide +kernel)
  have hstray : tokenize stray = .error ⟨.strayEscape '\n', ⟨2, 1, 3⟩⟩ := by decide +kernel
  obtain ⟨e', he'⟩ := (tokenize_append_line stray "y" (by decide)).2 _ hstray rfl
  exact ⟨⟨short, tokens, hshort, htokens,
    (tokenize_append_line source _ (by decide)).1 short tokens hshort htokens⟩, _, e', hstray, he'⟩

/-! ## §5 Levels and groups -/

/-- Where delimiters pair up together with what is behind, they pair up by themselves or some of
them are open. -/
theorem prefix_of_levelsFrom {stack : List Opened} {opens closes : Nat} {ts us : List Token}
    {levelled : List Token} (h : levelsFrom stack opens closes (ts ++ us) = .ok levelled) :
    (∃ short behind opens' closes', levelsFrom stack opens closes ts = .ok short ∧
        levelsFrom [] opens' closes' us = .ok behind ∧ levelled = short ++ behind) ∨
      ∃ e, levelsFrom stack opens closes ts = .error e ∧ e.cause.isIncomplete = true := by
  induction ts generalizing stack opens closes levelled with
  | nil =>
    cases stack with
    | nil => exact .inl ⟨[], levelled, opens, closes, rfl, h, rfl⟩
    | cons top stack => exact .inr ⟨_, rfl, rfl⟩
  | cons t ts ih =>
    rw [List.cons_append] at h
    rcases levelsFrom_cons stack opens closes t with ⟨stack', hpasses⟩ | ⟨e, -, hstep⟩
    · -- one token more in front does to both what it does to either
      obtain ⟨opens', closes', hstep⟩ := levelsFrom_of_passesTo hpasses opens closes
      rw [hstep] at h ⊢
      obtain ⟨more, hmore, rfl⟩ := exists_of_map_eq_ok h
      rcases ih hmore with ⟨short, behind, opens'', closes'', hshort, hbehind, rfl⟩ | ⟨e, he, hinc⟩
      · exact .inl ⟨_, behind, opens'', closes'', by rw [hshort]; rfl, hbehind, rfl⟩
      · exact .inr ⟨e, by rw [he]; rfl, hinc⟩
    · rw [hstep] at h
      cases h

theorem Nests.append {depth : Nat} {ts us : List Token} {forest forest' : List Tree}
    (h : Nests depth ts forest) (h' : Nests depth us forest') :
    Nests depth (ts ++ us) (forest ++ forest') := by
  induction h with
  | nil => exact h'
  | plain ht hlevel _ ih => exact .plain ht hlevel (ih h')
  | pair ho holevel hc hclevel hinner _ _ ih =>
    rw [List.cons_append, List.append_assoc, List.cons_append]
    exact .pair ho holevel hc hclevel hinner (ih h')

/-- **The groups of tokens come first**, unless a delimiter is open behind the tokens. -/
theorem prefix_of_foldGroups {ts us : List Token} {groups : List Tree}
    (h : foldGroups (ts ++ us) = .ok groups) :
    (∃ short, foldGroups ts = .ok short ∧ short <+: groups) ∨
      ∃ e, foldGroups ts = .error e ∧ e.cause.isIncomplete = true := by
  obtain ⟨all, hall, heq⟩ := bind_eq_ok.mp h
  cases heq
  rcases prefix_of_levelsFrom hall with
    ⟨levelled, behind, opens, closes, hts, hus, rfl⟩ | ⟨e, he, hinc⟩
  · obtain ⟨short, hnests⟩ := nests_of_assignLevels hts
    -- the delimiters behind pair up among themselves, since the first part left none open
    obtain ⟨next, hbehind⟩ : ∃ next, Nests 0 behind next := by
      cases closes_of_levelsFrom hus with
      | done h => exact ⟨_, h⟩
    refine .inl ⟨short, ?_, ?_⟩
    · exact bind_eq_ok.mpr ⟨levelled, hts, congrArg Except.ok hnests.group_eq⟩
    · rw [(hnests.append hbehind).group_eq]
      exact List.prefix_append _ _
  · refine .inr ⟨e, ?_, hinc⟩
    rw [foldGroups, assignLevels, he]
    rfl

end Scriptlet
