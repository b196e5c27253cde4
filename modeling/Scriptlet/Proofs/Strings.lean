import Scriptlet.Proofs.Comments
import Scriptlet.Proofs.Reduced
import Scriptlet.Proofs.Scanning

/-!
# The strings of comment removal are those of the scanner

Comment removal and scanning both keep track of quotes, one over all marks of a source and the other
over those that stay. `Abreast` says that they agree: after the marks of which the scanner has read
what stays, both are inside a string literal opened by the same quote, or neither is. Every string
is then made of the marks between two quotes of the source, and all of these marks stay.

A slash is held back until the next mark shows whether it opens a comment, so the invariant is about
the marks known to stay, and a slash that is held comes last.

## Contents

- §1 removal over a part of the source
- §2 string literals of the source
- §3 the scanner outside string literals
- §4 both side by side
- §5 the strings of a source
-/

namespace Scriptlet

/-! ## §1 Removal over a part of the source -/

namespace CommentMode

/-- The quote of the string literal that the removal is in. -/
def quote? : CommentMode → Option Char
  | .quoted q => some q
  | _ => none

/-- The next mark is read as code. -/
def readsCode : CommentMode → Bool
  | .code | .slash _ => true
  | _ => false

/-- The mode behind the marks at the start of a source, and those of them known to stay. -/
def walk (read : List Mark) : CommentMode × List Mark :=
  read.foldl (fun p m => ((p.1.step m).1, p.2 ++ (p.1.step m).2)) (.code, [])

/-- The mode behind the marks at the start of a source. -/
def after (read : List Mark) : CommentMode := (walk read).1

/-- The marks at the start of a source that are known to stay. -/
def stays (read : List Mark) : List Mark := (walk read).2

/-- What is left of the marks at the start of a source if it ends there. -/
def left (read : List Mark) : List Mark := stays read ++ (after read).held

variable {read : List Mark}

@[simp] theorem after_append (read : List Mark) (m : Mark) :
    after (read ++ [m]) = ((after read).step m).1 := by
  simp [after, walk, List.foldl_append]

@[simp] theorem stays_append (read : List Mark) (m : Mark) :
    stays (read ++ [m]) = stays read ++ ((after read).step m).2 := by
  simp [after, stays, walk, List.foldl_append]

/-- A mark that is read as code stays or is held, and so does what was held before. -/
theorem left_append_of_kept {m : Mark}
    (h : ((after read).step m).2 ++ ((after read).step m).1.held = (after read).held ++ [m]) :
    left (read ++ [m]) = left read ++ [m] := by
  rw [left, left, stays_append, after_append, List.append_assoc, h, List.append_assoc]

/-- A slash that opens no comment stays, and the mark behind it is read as code. -/
theorem step_slash {s m : Mark} (hslash : m.isPlain '/' = false) (hstar : m.isPlain '*' = false) :
    (slash s).step m = ((stepCode m).1, s :: (stepCode m).2) := by
  simp [step, hslash, hstar]

/-- A mark is left behind the others, or nothing new is left. -/
theorem left_append (read : List Mark) (m : Mark) :
    left (read ++ [m]) = left read ++ [m] ∨ left (read ++ [m]) <+: left read := by
  have hdrop : ((after read).step m).2 ++ ((after read).step m).1.held = [] →
      left (read ++ [m]) <+: left read := by
    intro h
    rw [left, left, stays_append, after_append, List.append_assoc, h, List.append_nil]
    exact List.prefix_append _ _
  -- in each mode, by what the mark does there
  cases hmode : after read with
  | code =>
    refine .inl (left_append_of_kept ?_)
    rw [hmode]
    exact stepCode_keeps m
  | slash s =>
    cases hslash : m.isPlain '/' with
    | true => exact .inr (hdrop (by simp [hmode, step, hslash, held]))
    | false =>
      cases hstar : m.isPlain '*' with
      | true => exact .inr (hdrop (by simp [hmode, step, hslash, hstar, held]))
      | false =>
        refine .inl (left_append_of_kept ?_)
        rw [hmode, step_slash hslash hstar]
        exact congrArg (s :: ·) (stepCode_keeps m)
  | quoted q =>
    refine .inl (left_append_of_kept ?_)
    cases hquote : m.isPlain q <;> simp [hmode, step, hquote, held]
  | line =>
    cases hend : m.isPlain '\n' with
    | true => exact .inl (left_append_of_kept (by simp [hmode, step, hend, held]))
    | false => exact .inr (hdrop (by simp [hmode, step, hend, held]))
  | block opened =>
    refine .inr (hdrop ?_)
    cases hstar : m.isPlain '*' <;> simp [hmode, step, hstar, held]
  | blockStar opened =>
    refine .inr (hdrop ?_)
    cases hslash : m.isPlain '/' <;> cases hstar : m.isPlain '*' <;>
      simp [hmode, step, hslash, hstar, held]

/-- What is left of a source at its end. -/
theorem left_of_stripComments {rest more : List Mark}
    (h : stripComments (after read) rest = .ok more) : left (read ++ rest) = stays read ++ more := by
  induction rest generalizing read more with
  | nil =>
    rw [List.append_nil, left]
    unfold stripComments at h
    cases hmode : after read <;> rw [hmode] at h <;> cases h <;> rfl
  | cons m rest ih =>
    -- the mark is read in the mode that was reached, and the rest behind it
    obtain ⟨more', hmore, rfl⟩ := stripComments_cons h
    rw [← after_append] at hmore
    have hleft := ih hmore
    rwa [List.append_assoc, stays_append, List.append_assoc] at hleft

theorem left_eq {marks kept : List Mark} (h : stripComments .code marks = .ok kept) :
    left marks = kept :=
  @left_of_stripComments [] marks kept h

/-- Whatever is left up to some mark was left when that mark had just been read. -/
theorem exists_read {pre : List Mark} (h : pre <+: left read) :
    ∃ before, before <+: read ∧ left before = pre ∧ before.getLast? = pre.getLast? := by
  induction read using List.reverseRecOn with
  | nil =>
    cases List.prefix_nil.mp h
    exact ⟨[], List.prefix_refl _, rfl, rfl⟩
  | append_singleton read m ih =>
    have hshorter : pre <+: left read →
        ∃ before, before <+: read ++ [m] ∧ left before = pre ∧
          before.getLast? = pre.getLast? := by
      intro hpre
      obtain ⟨before, hbefore, hleft, hlast⟩ := ih hpre
      exact ⟨before, hbefore.trans (List.prefix_append _ _), hleft, hlast⟩
    -- either the mark is the last of those wanted, or they were all left before it
    rcases left_append read m with hkept | hdropped
    · rw [hkept] at h
      rcases List.prefix_concat_iff.mp h with rfl | hpre
      · exact ⟨read ++ [m], List.prefix_refl _, hkept, by simp⟩
      · exact hshorter hpre
    · exact hshorter (h.trans hdropped)

theorem isPlain_of_stepCode {s m : Mark} (h : (stepCode m).1 = .slash s) :
    s.isPlain '/' = true := by
  unfold stepCode at h
  split at h
  · cases h
  · split at h
    · rename_i hslash
      cases h
      exact hslash
    · cases h

/-- What is held back is a plain slash. -/
theorem isPlain_of_step {mode : CommentMode} {s m : Mark} (h : (mode.step m).1 = .slash s) :
    s.isPlain '/' = true := by
  unfold step at h
  -- only code holds a slash back, and behind a slash it may be another one
  split at h
  · exact isPlain_of_stepCode h
  · split at h
    · cases h
    · split at h
      · cases h
      · exact isPlain_of_stepCode h
  · split at h <;> cases h
  · split at h <;> cases h
  · split at h <;> cases h
  · split at h
    · cases h
    · split at h <;> cases h

theorem isPlain_of_after {s : Mark} (h : after read = .slash s) : s.isPlain '/' = true := by
  rcases List.eq_nil_or_concat read with rfl | ⟨read, m, rfl⟩
  · cases h
  · rw [List.concat_eq_append, after_append] at h
    exact isPlain_of_step h

end CommentMode

/-! ## §2 String literals of the source -/

open CommentMode (after stays left)

/-- The marks at the start of a source end inside a string literal: in code stands the quote that
opens it, and none of the marks behind closes it. All these marks are left by the removal. -/
structure Inside (read : List Mark) (opening : Mark) (body : List Mark) : Prop where
  mode : after read = .quoted opening.char
  opens : opening.isQuote = true
  unclosed : ∀ m ∈ body, m.isPlain opening.char = false
  source : ∃ outside, (after outside).readsCode = true ∧ read = outside ++ opening :: body ∧
    left read = left outside ++ opening :: body

/-- The marks at the start of a source contain a string literal with its closing quote, and the
string is what the marks between the quotes stand for. -/
structure Contains (read : List Mark) (value : Text) (opening : Mark) (body : List Mark) : Prop where
  value : value = Text.ofChars (body.map Mark.decoded)
  closed : ∃ inner closing, inner ++ [closing] <+: read ∧ Inside inner opening body ∧
    closing.isPlain opening.char = true ∧ left (inner ++ [closing]) = left inner ++ [closing]

theorem Contains.mono {read read' body : List Mark} {value : Text} {opening : Mark}
    (h : Contains read value opening body) (hread : read <+: read') :
    Contains read' value opening body := by
  obtain ⟨inner, closing, hinner, hrest⟩ := h.closed
  exact ⟨h.value, inner, closing, hinner.trans hread, hrest⟩

/-! ## §3 The scanner outside string literals -/

theorem Mark.markClass_of_isQuote {m : Mark} (h : m.isQuote = true) : m.markClass = .quote := by
  unfold isQuote isQuoteChar at h
  simp only [Bool.and_eq_true, Bool.or_eq_true, beq_iff_eq, Bool.not_eq_true'] at h
  obtain ⟨he, (hc | hc) | hc⟩ := h <;> simp only [markClass, he, hc] <;> decide

theorem Mark.isQuote_of_isPlain {m : Mark} {c : Char} (h : m.isPlain c = true)
    (hc : isQuoteChar c = false) : m.isQuote = false := by
  simp only [isPlain, Bool.and_eq_true, beq_iff_eq] at h
  rw [isQuote, h.2, hc, Bool.and_false]

namespace Scan

/-- The quote of the string literal that the scanner is in. -/
def quote? (s : Scan) : Option Char :=
  match s.pending with
  | .string q _ _ => some q
  | _ => none

/-- The strings read so far with the places they start at, newest first. -/
def strings (s : Scan) : List (Text × Location) :=
  s.done.filterMap fun p =>
    match p.1 with
    | .string value _ => some (value, p.2)
    | _ => none

variable {s s' : Scan} {m : Mark} {p : Pending}

theorem outsideString_iff : s.OutsideString ↔ s.quote? = none := by
  unfold OutsideString quote?
  constructor
  · intro h
    split
    · rename_i q cs loc hp
      exact absurd hp (h q cs loc)
    · rfl
  · intro h q cs loc hp
    rw [hp] at h
    cases h

theorem strings_cons {x : Lexeme} (hx : x.kind ≠ .string) (loc : Location) (done : List Placed)
    (p : Pending) : strings ⟨(x, loc) :: done, p⟩ = strings ⟨done, p⟩ := by
  cases x with
  | string value => exact absurd rfl hx
  | _ => rfl

theorem strings_append {new : List Placed} (h : ∀ x ∈ new, x.1.kind ≠ .string)
    (done : List Placed) (p : Pending) : strings ⟨new ++ done, p⟩ = strings ⟨done, p⟩ := by
  induction new with
  | nil => rfl
  | cons x new ih =>
    obtain ⟨hx, hnew⟩ := List.forall_mem_cons.mp h
    rw [List.cons_append, strings_cons hx x.2, ih hnew]

theorem kind_of_splitOperators {passed : Nat} {marks : List Mark} {ops : List Placed}
    (h : splitOperators passed marks = .ok ops) : ∀ x ∈ ops, x.1.kind ≠ .string := by
  induction marks generalizing passed ops with
  | nil => cases passed <;> cases h <;> simp
  | cons m marks ih =>
    cases passed with
    | succ passed => exact ih h
    | zero =>
      rw [splitOperators] at h
      split at h
      · cases h
      -- operators are no strings
      · obtain ⟨more, hmore, heq⟩ := bind_eq_ok.mp h
        cases heq
        exact List.forall_mem_cons.mpr ⟨by simp [Lexeme.kind], ih hmore⟩

/-- Completing what is pending outside string literals adds no string. -/
theorem strings_flush (hcode : s.OutsideString) (h : s.flush = .ok s') :
    s'.pending = .nothing ∧ s'.strings = s.strings := by
  obtain ⟨done, pending⟩ := s
  -- each kind but a literal is completed as what it is
  cases pending with
  | nothing =>
    cases h
    exact ⟨rfl, rfl⟩
  | word cs loc =>
    cases h
    exact ⟨rfl, strings_cons (by simp [Lexeme.kind_ofWord]) loc done _⟩
  | number cs pointed loc =>
    cases h
    exact ⟨rfl, rfl⟩
  | operators marks =>
    obtain ⟨ops, hops, heq⟩ := bind_eq_ok.mp h
    cases heq
    have hkinds := kind_of_splitOperators hops
    exact ⟨rfl, strings_append (fun x hx => hkinds x (List.mem_reverse.mp hx)) done _⟩
  | string q cs loc => exact absurd rfl (hcode q cs loc)

theorem strings_flushTo (hcode : s.OutsideString) (h : s.flushTo p = .ok s') :
    s'.pending = p ∧ s'.strings = s.strings := by
  obtain ⟨flushed, hflush, heq⟩ := bind_eq_ok.mp h
  cases heq
  exact ⟨rfl, (strings_flush hcode hflush).2⟩

/-- In code, a quote opens a string literal. -/
theorem stepCode_quote (hcode : s.OutsideString) (hm : m.isQuote = true)
    (h : s.stepCode m = .ok s') :
    s'.pending = .string m.char [] m.loc ∧ s'.strings = s.strings := by
  unfold stepCode at h
  rw [Mark.markClass_of_isQuote hm] at h
  exact strings_flushTo hcode h

theorem outside_of_flushTo (hcode : s.OutsideString) (h : s.flushTo p = .ok s')
    (hp : ∀ q cs loc, p ≠ .string q cs loc) : s'.OutsideString ∧ s'.strings = s.strings := by
  obtain ⟨hpending, hstrings⟩ := strings_flushTo hcode h
  exact ⟨fun q cs loc hq => hp q cs loc (hpending.symm.trans hq), hstrings⟩

/-- In code, no other mark opens one, and none completes a string. -/
theorem stepCode_code (hcode : s.OutsideString) (hm : m.isQuote = false)
    (h : s.stepCode m = .ok s') : s'.OutsideString ∧ s'.strings = s.strings := by
  cases codeStep_of_stepCode h with
  | continues hp =>
    refine ⟨fun q cs loc hq => ?_, rfl⟩
    obtain ⟨done, pending⟩ := s
    cases hp <;> cases hq
  | begins _ hp hto =>
    refine outside_of_flushTo hcode hto fun q cs loc hq => ?_
    cases hp with
    -- no class but that of quotes opens a literal
    | string hclass =>
      rw [Mark.isQuote_of_markClass hclass] at hm
      cases hm
    | _ => cases hq
  | delimiter _ hflush =>
    obtain ⟨hpending, hstrings⟩ := strings_flush hcode hflush
    refine ⟨fun q cs loc hp => ?_, ?_⟩
    · simp only [hpending] at hp
      cases hp
    · rw [← hstrings]
      exact strings_cons (by simp [Lexeme.kind]) _ _ _
  | blank _ hflush =>
    obtain ⟨hpending, hstrings⟩ := strings_flush hcode hflush
    refine ⟨fun q cs loc hp => ?_, hstrings⟩
    rw [hpending] at hp
    cases hp

end Scan

/-! ## §4 Both side by side -/

/-- The scanner, which read what stays of the marks at the start of a source, is in the same string
literal as the removal of comments, and its strings are literals of the source. -/
structure Abreast (read : List Mark) (s : Scan) : Prop where
  quote : s.quote? = (after read).quote?
  pending : ∀ q cs loc, s.pending = .string q cs loc →
    ∃ opening body, Inside read opening body ∧ q = opening.char ∧ loc = opening.loc ∧
      cs.reverse = body.map Mark.decoded
  strings : ∀ value loc, (value, loc) ∈ s.strings →
    ∃ opening body, Contains read value opening body ∧ loc = opening.loc

namespace Abreast

variable {read : List Mark} {s s' : Scan} {m : Mark}

theorem start : Abreast [] .start :=
  ⟨rfl, fun _ _ _ hp => (by cases hp), fun _ _ hmem => (by cases hmem)⟩

theorem outside (h : Abreast read s) (hmode : (after read).quote? = none) : s.OutsideString :=
  Scan.outsideString_iff.mpr (h.quote.trans hmode)

/-- Outside of string literals the scanner and the removal may go on by themselves. -/
theorem pass {read' : List Mark} (h : Abreast read s) (hread : read <+: read')
    (hmode : (after read').quote? = none) (hout : s'.OutsideString)
    (hstrings : s'.strings = s.strings) : Abreast read' s' := by
  refine ⟨(Scan.outsideString_iff.mp hout).trans hmode.symm,
    fun q cs loc hp => absurd hp (hout q cs loc), fun value loc hmem => ?_⟩
  rw [hstrings] at hmem
  obtain ⟨opening, body, hcontains, hloc⟩ := h.strings value loc hmem
  exact ⟨opening, body, hcontains.mono hread, hloc⟩

/-- A quote in code opens the same literal for both. -/
theorem opens (h : Abreast read s) (hcode : (after read).readsCode = true)
    (hout : s.OutsideString) (hm : m.isQuote = true) (hstep : s.step m = .ok s')
    (hmode : after (read ++ [m]) = .quoted m.char) (hleft : left (read ++ [m]) = left read ++ [m]) :
    Abreast (read ++ [m]) s' := by
  rw [Scan.step_eq hout] at hstep
  obtain ⟨hpending, hstrings⟩ := Scan.stepCode_quote hout hm hstep
  -- the quote is the opening mark, with nothing of the literal read yet
  refine ⟨?_, fun q cs loc hp => ?_, fun value loc hmem => ?_⟩
  · rw [hmode, Scan.quote?, hpending]
    rfl
  · cases hpending.symm.trans hp
    exact ⟨m, [], ⟨hmode, hm, by simp, read, hcode, rfl, hleft⟩, rfl, rfl, rfl⟩
  · rw [hstrings] at hmem
    obtain ⟨opening, body, hcontains, hloc⟩ := h.strings value loc hmem
    exact ⟨opening, body, hcontains.mono (List.prefix_append _ _), hloc⟩

/-- A mark that is read as code, if it is no slash, is read as such by the scanner. -/
theorem code (h : Abreast read s) (hcode : (after read).readsCode = true)
    (hout : s.OutsideString) (hmode : after (read ++ [m]) = (CommentMode.stepCode m).1)
    (hleft : left (read ++ [m]) = left read ++ [m])
    (hscan : (CommentMode.stepCode m).2.foldlM Scan.step s = .ok s') :
    Abreast (read ++ [m]) s' := by
  have hgrows : read <+: read ++ [m] := List.prefix_append _ _
  unfold CommentMode.stepCode at hmode hscan
  cases hquote : m.isQuote with
  | true =>
    rw [if_pos hquote] at hmode hscan
    obtain ⟨t, ht, heq⟩ := bind_eq_ok.mp hscan
    cases heq
    exact h.opens hcode hout hquote ht hmode hleft
  | false =>
    rw [if_neg (by simp [hquote])] at hmode hscan
    cases hslash : m.isPlain '/' with
    | true =>
      -- the slash is held back
      rw [if_pos hslash] at hmode hscan
      cases hscan
      exact h.pass hgrows (by rw [hmode]; rfl) hout rfl
    | false =>
      rw [if_neg (by simp [hslash])] at hmode hscan
      obtain ⟨t, ht, heq⟩ := bind_eq_ok.mp hscan
      cases heq
      rw [Scan.step_eq hout] at ht
      obtain ⟨hout', hstrings⟩ := Scan.stepCode_code hout hquote ht
      exact h.pass hgrows (by rw [hmode]; rfl) hout' hstrings

/-- A slash that opened no comment is read by the scanner. -/
theorem slash (h : Abreast read s) (hmode : after read = .slash m) (hstep : s.step m = .ok s') :
    Abreast read s' := by
  have hnone : (after read).quote? = none := by rw [hmode]; rfl
  have hout := h.outside hnone
  have hquote := Mark.isQuote_of_isPlain (CommentMode.isPlain_of_after hmode) rfl
  rw [Scan.step_eq hout] at hstep
  obtain ⟨hout', hstrings⟩ := Scan.stepCode_code hout hquote hstep
  exact h.pass (List.prefix_refl _) hnone hout' hstrings

/-- Inside a string literal both read every mark, and the quote closes it for both. -/
theorem quoted {q : Char} (h : Abreast read s) (hmode : after read = .quoted q)
    (hstep : s.step m = .ok s') : Abreast (read ++ [m]) s' := by
  obtain ⟨done, pending⟩ := s
  have hquote := h.quote
  rw [hmode] at hquote
  cases pending with
  | string q' cs loc =>
    cases hquote
    obtain ⟨opening, body, hinside, rfl, rfl, hcs⟩ := h.pending _ cs loc rfl
    have hleft : left (read ++ [m]) = left read ++ [m] := by
      apply CommentMode.left_append_of_kept
      rw [hmode]
      cases hplain : m.isPlain opening.char <;> simp [CommentMode.step, hplain, CommentMode.held]
    have hbefore : ∀ value loc, (value, loc) ∈ Scan.strings ⟨done, .nothing⟩ →
        ∃ opening body, Contains (read ++ [m]) value opening body ∧ loc = opening.loc := by
      intro value loc hmem
      obtain ⟨opening', body', hcontains, hloc⟩ := h.strings value loc hmem
      exact ⟨opening', body', hcontains.mono (List.prefix_append _ _), hloc⟩
    simp only [Scan.step] at hstep
    cases hplain : m.isPlain opening.char with
    | true =>
      have hafter : after (read ++ [m]) = .code := by
        simp [hmode, CommentMode.step, hplain]
      rw [if_pos hplain] at hstep
      cases hstep
      refine ⟨by rw [hafter]; rfl, fun _ _ _ hp => (by cases hp), fun value loc hmem => ?_⟩
      rcases List.mem_cons.mp hmem with heq | hmem
      · cases heq
        refine ⟨opening, body, ⟨?_, read, m, List.prefix_refl _, hinside, hplain, hleft⟩, rfl⟩
        rw [hcs]
      · exact hbefore value loc hmem
    | false =>
      have hafter : after (read ++ [m]) = .quoted opening.char := by
        simp [hmode, CommentMode.step, hplain]
      rw [if_neg (by simp [hplain])] at hstep
      cases hstep
      refine ⟨by rw [hafter]; rfl, fun q cs loc hp => ?_, hbefore⟩
      cases hp
      obtain ⟨outside, hcode, hread, hleftRead⟩ := hinside.source
      refine ⟨opening, body ++ [m], ⟨hafter, hinside.opens, ?_, outside, hcode, ?_, ?_⟩,
        rfl, rfl, by simp [hcs]⟩
      · intro m' hm'
        rcases List.mem_append.mp hm' with hm' | hm'
        · exact hinside.unclosed m' hm'
        · rw [List.mem_singleton.mp hm', hplain]
      · rw [hread, List.append_assoc, List.cons_append]
      · rw [hleft, hleftRead, List.append_assoc, List.cons_append]
  | _ => cases hquote

/-- What the removal drops outside of string literals, the scanner does not see. -/
theorem dropped (h : Abreast read s) (hout : (after read).quote? = none)
    (hout' : (after (read ++ [m])).quote? = none) (hnone : ((after read).step m).2 = [])
    (hscan : ((after read).step m).2.foldlM Scan.step s = .ok s') : Abreast (read ++ [m]) s' := by
  rw [hnone] at hscan
  cases hscan
  exact h.pass (List.prefix_append _ _) hout' (h.outside hout) rfl

/-- A slash that opens no comment is read before the mark behind it. -/
theorem behindSlash {opening : Mark} (h : Abreast read s) (hmode : after read = .slash opening)
    (hslash : m.isPlain '/' = false) (hstar : m.isPlain '*' = false)
    (hscan : (opening :: (CommentMode.stepCode m).2).foldlM Scan.step s = .ok s') :
    Abreast (read ++ [m]) s' := by
  obtain ⟨t, ht, hscan⟩ := bind_eq_ok.mp hscan
  have hopened := h.slash hmode ht
  refine hopened.code (by rw [hmode]; rfl) (hopened.outside (by rw [hmode]; rfl)) ?_
    (CommentMode.left_append_of_kept ?_) hscan
  · rw [CommentMode.after_append, hmode, CommentMode.step_slash hslash hstar]
  · rw [hmode, CommentMode.step_slash hslash hstar]
    exact congrArg (opening :: ·) (CommentMode.stepCode_keeps m)

/-- The line end behind a line comment stays. -/
theorem lineEnd (h : Abreast read s) (hmode : after read = .line) (hend : m.isPlain '\n' = true)
    (hstep : s.step m = .ok s') : Abreast (read ++ [m]) s' := by
  have hout := h.outside (by rw [hmode]; rfl)
  rw [Scan.step_eq hout] at hstep
  obtain ⟨hout', hstrings⟩ := Scan.stepCode_code hout (Mark.isQuote_of_isPlain hend rfl) hstep
  refine h.pass (List.prefix_append _ _) ?_ hout' hstrings
  simp [hmode, CommentMode.step, hend, CommentMode.quote?]

/-- The scanner reads what stays of one more mark. -/
theorem step (h : Abreast read s)
    (hscan : ((after read).step m).2.foldlM Scan.step s = .ok s') : Abreast (read ++ [m]) s' := by
  -- the mode says which marks are kept, and the scanner reads just those
  cases hmode : after read with
  | code =>
    rw [hmode] at hscan
    refine h.code (by rw [hmode]; rfl) (h.outside (by rw [hmode]; rfl)) ?_
      (CommentMode.left_append_of_kept ?_) hscan
    · rw [CommentMode.after_append, hmode]
      rfl
    · rw [hmode]
      exact CommentMode.stepCode_keeps m
  | slash opening =>
    cases hslash : m.isPlain '/' with
    | true =>
      refine h.dropped (by rw [hmode]; rfl) ?_ ?_ hscan <;>
        simp [hmode, CommentMode.step, hslash, CommentMode.quote?]
    | false =>
      cases hstar : m.isPlain '*' with
      | true =>
        refine h.dropped (by rw [hmode]; rfl) ?_ ?_ hscan <;>
          simp [hmode, CommentMode.step, hslash, hstar, CommentMode.quote?]
      | false =>
        rw [hmode, CommentMode.step_slash hslash hstar] at hscan
        exact h.behindSlash hmode hslash hstar hscan
  | quoted q =>
    rw [hmode] at hscan
    obtain ⟨t, ht, heq⟩ := bind_eq_ok.mp hscan
    cases heq
    exact h.quoted hmode ht
  | line =>
    cases hend : m.isPlain '\n' with
    | true =>
      have hkept : (after read).step m = (.code, [m]) := by simp [hmode, CommentMode.step, hend]
      rw [hkept] at hscan
      obtain ⟨t, ht, heq⟩ := bind_eq_ok.mp hscan
      cases heq
      exact h.lineEnd hmode hend ht
    | false =>
      refine h.dropped (by rw [hmode]; rfl) ?_ ?_ hscan <;>
        simp [hmode, CommentMode.step, hend, CommentMode.quote?]
  | block opened =>
    refine h.dropped (by rw [hmode]; rfl) ?_ (by rw [hmode]; rfl) hscan
    rw [CommentMode.after_append, hmode]
    cases hstar : m.isPlain '*' <;> simp [CommentMode.step, hstar, CommentMode.quote?]
  | blockStar opened =>
    refine h.dropped (by rw [hmode]; rfl) ?_ ?_ hscan
    · rw [CommentMode.after_append, hmode]
      cases hslash : m.isPlain '/' <;> cases hstar : m.isPlain '*' <;>
        simp [CommentMode.step, hslash, hstar, CommentMode.quote?]
    · rw [hmode]
      cases hslash : m.isPlain '/' <;> simp [CommentMode.step, hslash]

end Abreast

/-- The scanner keeps abreast of the removal of comments. -/
theorem abreast_of_stays {read : List Mark} {s : Scan}
    (h : (stays read).foldlM Scan.step .start = .ok s) : Abreast read s := by
  induction read using List.reverseRecOn generalizing s with
  | nil =>
    cases h
    exact .start
  | append_singleton read m ih =>
    rw [CommentMode.stays_append, List.foldlM_append] at h
    obtain ⟨t, ht, hscan⟩ := bind_eq_ok.mp h
    exact (ih ht).step hscan

theorem abreast_of_left {read : List Mark} {s : Scan}
    (h : (left read).foldlM Scan.step .start = .ok s) : Abreast read s := by
  unfold left at h
  rw [List.foldlM_append] at h
  obtain ⟨t, ht, hheld⟩ := bind_eq_ok.mp h
  have habreast := abreast_of_stays ht
  -- a slash that is held has not been read by the scanner yet
  cases hmode : after read with
  | slash opening =>
    rw [hmode] at hheld
    obtain ⟨u, hu, heq⟩ := bind_eq_ok.mp hheld
    cases heq
    exact habreast.slash hmode hu
  | _ =>
    rw [hmode] at hheld
    cases hheld
    exact habreast

/-- **The scanner and the removal of comments see the same strings.** Whatever the scanner has read
of what the removal left, that was left when the last of these marks had just been read, and at that
time both were in the same string literal. There the removal keeps every mark and leaves the literal
only at its quote, and all strings are made of the marks between two quotes of the source. -/
theorem same_strings (marks kept pre : List Mark) (s : Scan)
    (hstrip : stripComments .code marks = .ok kept) (hpart : pre <+: kept)
    (hscan : pre.foldlM Scan.step .start = .ok s) :
    (∃ read, read <+: marks ∧ left read = pre ∧ read.getLast? = pre.getLast?) ∧
      ∀ read, left read = pre →
        Abreast read s ∧
        ∀ q, s.quote? = some q → ∀ m,
          (after read).step m = (if m.isPlain q then .code else .quoted q, [m]) := by
  have hleft : left marks = kept := CommentMode.left_eq hstrip
  refine ⟨CommentMode.exists_read (hleft ▸ hpart), fun read hread => ?_⟩
  have habreast : Abreast read s := abreast_of_left (hread ▸ hscan)
  -- a literal open for the scanner is open for the removal as well
  refine ⟨habreast, fun q hq m => ?_⟩
  have hmode : (after read).quote? = some q := habreast.quote.symm.trans hq
  cases hafter : after read with
  | quoted q' =>
    rw [hafter] at hmode
    cases hmode
    rfl
  | _ =>
    rw [hafter] at hmode
    cases hmode

/-- Comments with quotes, strings with the signs of comments, and an escaped quote. The scanner stops
inside the second string. -/
theorem same_strings_mixed :
    let source : Text := "a = \"/* b\" /* \"c */ + 'x // \\' y'; // z\"\n"
    ∃ marks kept s, Mark.ofText source = .ok marks ∧ stripComments .code marks = .ok kept ∧
      kept.take 21 <+: kept ∧ (kept.take 21).foldlM Scan.step .start = .ok s ∧
      s.quote? = some '\'' ∧ s.strings = [(Text.ofString "/* b", ⟨4, 1, 5⟩)] ∧
      (∃ read, read <+: marks ∧ left read = kept.take 21 ∧
        read.getLast? = (kept.take 21).getLast?) ∧
      ∀ read, left read = kept.take 21 →
        Abreast read s ∧
        ∀ q, s.quote? = some q → ∀ m,
          (after read).step m = (if m.isPlain q then .code else .quoted q, [m]) := by
  intro source
  have hrun : (do
      let marks ← Mark.ofText source
      let kept ← stripComments .code marks
      let s ← (kept.take 21).foldlM Scan.step .start
      return (s.quote?, s.strings)) = .ok (some '\'', [(Text.ofString "/* b", ⟨4, 1, 5⟩)]) := by
    decide +kernel
  obtain ⟨marks, hmarks, hrest⟩ := bind_eq_ok.mp hrun
  obtain ⟨kept, hkept, hrest⟩ := bind_eq_ok.mp hrest
  obtain ⟨s, hs, hend⟩ := bind_eq_ok.mp hrest
  obtain ⟨hquote, hstrings⟩ := Prod.mk.inj (Except.ok.inj hend)
  have hpart : kept.take 21 <+: kept := List.take_prefix 21 kept
  exact ⟨marks, kept, s, hmarks, hkept, hpart, hs, hquote, hstrings,
    same_strings marks kept (kept.take 21) s hkept hpart hs⟩

/-! ## §5 The strings of a source -/

theorem mem_strings {s : Scan} {value : Text} {null : Bool} {loc : Location}
    (h : (Lexeme.string value null, loc) ∈ s.done) : (value, loc) ∈ s.strings :=
  List.mem_filterMap.mpr ⟨_, h, rfl⟩

/-- At the end of a source no string is added. -/
theorem mem_strings_of_finish {s : Scan} {placed : List Placed} (h : s.finish = .ok placed)
    {value : Text} {null : Bool} {loc : Location}
    (hmem : (Lexeme.string value null, loc) ∈ placed) : (value, loc) ∈ s.strings := by
  -- a literal that is open makes the end an error, so nothing is pending but code
  by_cases hout : s.OutsideString
  · rw [Scan.finish_eq hout] at h
    obtain ⟨flushed, hflush, heq⟩ := bind_eq_ok.mp h
    cases heq
    rw [← (Scan.strings_flush hout hflush).2]
    exact mem_strings (List.mem_reverse.mp hmem)
  · unfold Scan.finish at h
    split at h
    · cases h
    · rename_i hpending
      exact absurd hpending hout

theorem mem_of_markLeading {afterOperand : Bool} {placed : List Placed} {value : Text}
    {null : Bool} {loc : Location}
    (h : (Lexeme.string value null, loc) ∈ markLeading afterOperand placed) :
    (Lexeme.string value null, loc) ∈ placed := by
  induction placed generalizing afterOperand with
  | nil => cases h
  | cons p placed ih =>
    -- marking replaces operators alone
    obtain ⟨x, loc'⟩ := p
    cases x with
    | operator op fixity =>
      rcases List.mem_cons.mp h with heq | hmem
      · cases heq
      · exact List.mem_cons_of_mem _ (ih hmem)
    | _ =>
      rcases List.mem_cons.mp h with heq | hmem
      · exact heq ▸ List.mem_cons_self
      · exact List.mem_cons_of_mem _ (ih hmem)

theorem mem_of_numberFrom {i : Nat} {placed : List Placed} {t : Token}
    (h : t ∈ numberFrom i placed) : (t.lexeme, t.loc) ∈ placed := by
  induction placed generalizing i with
  | nil => cases h
  | cons p placed ih =>
    rcases List.mem_cons.mp h with rfl | hmem
    · exact List.mem_cons_self
    · exact List.mem_cons_of_mem _ (ih hmem)

/-- Every string of a source is what the marks between two quotes of the source stand for. -/
theorem strings_of_tokenize {source : Text} {tokens : List Token}
    (h : tokenize source = .ok tokens) :
    ∃ marks, Mark.ofText source = .ok marks ∧ ∀ t ∈ tokens, ∀ value null,
      t.lexeme = .string value null →
      ∃ opening body, Contains marks value opening body ∧ t.loc = opening.loc := by
  obtain ⟨marks, hmarks, h⟩ := bind_eq_ok.mp h
  obtain ⟨kept, hkept, h⟩ := bind_eq_ok.mp h
  obtain ⟨placed, hplaced, heq⟩ := bind_eq_ok.mp h
  cases heq
  obtain ⟨s, hs, hfinish⟩ := bind_eq_ok.mp hplaced
  have hleft : left marks = kept := CommentMode.left_eq hkept
  have habreast : Abreast marks s := abreast_of_left (hleft ▸ hs)
  refine ⟨marks, hmarks, fun t ht value null hvalue => habreast.strings value t.loc ?_⟩
  -- each string was in the scan when the marks ended, and marking and numbering keep it
  have hmem := mem_of_numberFrom ht
  rw [hvalue] at hmem
  exact mem_strings_of_finish hfinish (mem_of_markLeading hmem)

end Scriptlet
