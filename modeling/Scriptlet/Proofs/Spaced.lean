import Scriptlet.Proofs.Phrases
import Scriptlet.Proofs.Terminals
import Scriptlet.Proofs.Tokens

/-!
# Symbols written with spaces between them

A list of symbols is written with one space between neighbours and strings in double quotes, with a
backslash before quotes and backslashes. Both scanners read such a text back: it spells its symbols,
and its tokens have their lexemes. For the tokenizer that is shown character by character, from
nothing pending before a symbol to nothing pending behind it.

## Contents

- §1 written symbols
- §2 what is written is spelled
- §3 reading characters
- §4 reading symbols
- §5 reading texts
-/

namespace Scriptlet

/-! ## §1 Written symbols -/

/-- A character inside double quotes. -/
def escape (c : Char) : List Char := if c = '"' ∨ c = '\\' then ['\\', c] else [c]

namespace Symbol

/-- The characters of a symbol. -/
def chars : Symbol → List Char
  | .word t | .number t | .mark t => t.chars
  | .string v => '"' :: (v.chars.flatMap escape ++ ['"'])
  | .ending => []

/-- A symbol that sources can have. -/
inductive Writable : Symbol → Prop where
  | word (w : List Char) (h : IsWord w) : Writable (.word (Text.ofChars w))
  | number (w : List Char) (h : Numeral w) : Writable (.number (Text.ofChars w))
  | string (v : Text) (h : v.isUtf8 = true) : Writable (.string v)
  | operator (op : Operator) : Writable (.mark op.spelling)
  | delimiter (f : Family) (s : Side) : Writable (.mark (Text.ofChar (f.char s)))

/-- The texts of operators and delimiters. -/
def marks : List Text :=
  Operator.table.map Operator.spelling ++
    Family.all.flatMap fun f => [Text.ofChar (f.char .left), Text.ofChar (f.char .right)]

theorem Writable.mark {t : Text} (h : t ∈ marks) : Writable (.mark t) := by
  rcases List.mem_append.mp h with h | h
  · obtain ⟨op, _, rfl⟩ := List.mem_map.mp h
    exact .operator op
  · obtain ⟨f, _, h⟩ := List.mem_flatMap.mp h
    rcases List.mem_pair.mp h with rfl | rfl
    · exact .delimiter f .left
    · exact .delimiter f .right

theorem Writable.text {t : Text} (hutf : t.isUtf8 = true) (h : IsWord t.chars) :
    Writable (.word t) := by
  rw [← Text.ofChars_chars hutf]
  exact .word t.chars h

theorem Writable.reserved (k : Keyword) : Writable (.word k.spelling) := by
  cases k <;> exact .text (by decide) (by decide)

end Symbol

/-- The characters of the symbols with one space between neighbours. -/
def spacedChars : List Symbol → List Char
  | [] => []
  | [x] => x.chars
  | x :: rest => x.chars ++ ' ' :: spacedChars rest

/-- The symbols as a text with one space between neighbours. -/
def spaced (xs : List Symbol) : Text := Text.words (xs.map fun x => Text.ofChars x.chars)

theorem spacedChars_cons_cons (x y : Symbol) (xs : List Symbol) :
    spacedChars (x :: y :: xs) = x.chars ++ ' ' :: spacedChars (y :: xs) := rfl

theorem spaced_eq_ofChars (xs : List Symbol) : spaced xs = Text.ofChars (spacedChars xs) := by
  unfold spaced Text.words
  induction xs with
  | nil => rfl
  | cons x xs ih =>
    cases xs with
    | nil => rfl
    | cons y xs =>
      rw [spacedChars_cons_cons, Text.ofChars_append, Text.ofChars_cons, ← ih, ← List.append_assoc]
      rfl

theorem chars_ofChar (c : Char) : (Text.ofChar c).chars = [c] := by
  have h := Text.chars_ofChars [c]
  rwa [Text.ofChars_cons, Text.ofChars_nil, List.append_nil] at h

theorem Operator.chars_spelling (op : Operator) : op.spelling.chars = op.chars :=
  Text.chars_ofChars op.chars

/-! ## §2 What is written is spelled -/

/-- Escaped characters stand for the characters. -/
theorem quoted_escape (cs : List Char) : Quoted '"' (cs.flatMap escape) cs := by
  induction cs with
  | nil => exact .nil
  | cons c cs ih =>
    rw [List.flatMap_cons, escape]
    split
    · next hc =>
      -- only quotes and backslashes are escaped, and both stand for themselves
      have hsame : escapedChar c = c := by
        rcases hc with rfl | rfl <;> rfl
      have h := Quoted.escaped c _ _ ih
      rwa [hsame] at h
    · next hc =>
      obtain ⟨hquote, hslash⟩ := not_or.mp hc
      exact .plain c _ _ hquote hslash ih

theorem Operator.leading?_chars (op : Operator) : leading? op.chars = some op := by
  cases op <;> decide

/-- A symbol is spelled by its characters if white space or nothing follows. -/
theorem spells_symbol {x : Symbol} {cs : List Char} {xs : List Symbol} (hx : x.Writable)
    (hcs : ∀ c, cs.head? = some c → c = ' ') (h : Spells cs xs) :
    Spells (x.chars ++ cs) (x :: xs) := by
  cases hx with
  -- what follows starts with a space, so no lexeme can be carried on
  | word w hw =>
    rw [Symbol.chars, Text.chars_ofChars]
    refine .word w cs xs hw (fun c hc => ?_) h
    rw [hcs c hc]
    decide
  | number w hw =>
    rw [Symbol.chars, Text.chars_ofChars]
    refine .number w cs xs hw (fun c hc => ?_) h
    rw [hcs c hc]
    exact ⟨by decide, fun hpoint => absurd hpoint (by decide)⟩
  | string v hv =>
    have hspells := Spells.string '"' _ _ cs xs (by decide) (quoted_escape v.chars) h
    rw [Text.ofChars_chars hv] at hspells
    simpa [Symbol.chars] using hspells
  | operator op =>
    rw [Symbol.chars, Operator.chars_spelling]
    refine .operator op cs xs ?_ (fun _ c hc => ?_) h
    · rw [leading?_append fun c hc => by rw [hcs c hc]; decide]
      exact op.leading?_chars
    · rw [hcs c hc]
      decide
  | delimiter f s =>
    rw [Symbol.chars, chars_ofChar]
    exact .delimiter f s cs xs h

theorem spells_spaced {xs : List Symbol} (h : ∀ x ∈ xs, x.Writable) :
    Spells (spacedChars xs) xs := by
  induction xs with
  | nil => exact .nil
  | cons x xs ih =>
    -- the space between two symbols is read as white space of its own
    obtain ⟨hx, hxs⟩ := List.forall_mem_cons.mp h
    cases xs with
    | nil =>
      have hlast : Spells (x.chars ++ []) [x] := spells_symbol hx (by simp) .nil
      rwa [List.append_nil] at hlast
    | cons y xs =>
      rw [spacedChars_cons_cons]
      exact spells_symbol hx (by simp) (.blank ' ' _ _ (by decide) (ih hxs))

/-! ## §3 Reading characters -/

/-- Reading the characters at the place takes the scanner from one state to another and leads to
another place, and no comment starts on the way. -/
def Goes (loc : Location) (s : Scan) (cs : List Char) (loc' : Location) (s' : Scan) : Prop :=
  ∃ ms, (∀ rest, Mark.ofGlyphs loc (glyphsOf cs ++ rest)
        = (Mark.ofGlyphs loc' rest).map (ms ++ ·)) ∧
    ms.foldlM Scan.step s = .ok s' ∧
    ∀ more, Uncommented s'.pending.mode more → Uncommented s.pending.mode (ms ++ more)

/-- A mark that is kept leaves the text without comments. -/
theorem Uncommented.cons {mode : CommentMode} {m : Mark} {marks : List Mark}
    (h : Uncommented (mode.step m).1 marks)
    (hkept : (mode.step m).2 ++ (mode.step m).1.held = mode.held ++ [m]) :
    Uncommented mode (m :: marks) := by
  have hstep : stripComments mode (m :: marks) = (do
      let more ← stripComments (mode.step m).1 marks
      return (mode.step m).2 ++ more) := rfl
  rw [Uncommented, hstep, h, List.append_cons, ← hkept, List.append_assoc]
  rfl

namespace Goes

variable {loc loc' loc'' : Location} {s s' s'' : Scan} {c : Char} {cs ds : List Char}

theorem refl : Goes loc s [] loc s := by
  refine ⟨[], fun rest => ?_, rfl, fun _ h => h⟩
  cases h : Mark.ofGlyphs loc rest <;> simp [Except.map, h]

theorem trans (h : Goes loc s cs loc' s') (h' : Goes loc' s' ds loc'' s'') :
    Goes loc s (cs ++ ds) loc'' s'' := by
  obtain ⟨ms, hmarks, hfold, hfree⟩ := h
  obtain ⟨ms', hmarks', hfold', hfree'⟩ := h'
  refine ⟨ms ++ ms', fun rest => ?_, ?_, fun more hmore => ?_⟩
  · rw [glyphsOf, List.map_append, List.append_assoc, hmarks, hmarks']
    cases Mark.ofGlyphs loc'' rest <;> simp [Except.map]
  · rw [List.foldlM_append, hfold]
    exact hfold'
  · rw [List.append_assoc]
    exact hfree _ (hfree' more hmore)

/-- One mark. -/
theorem of_mark {m : Mark} (hmarks : ∀ rest, Mark.ofGlyphs loc (glyphsOf cs ++ rest)
      = (Mark.ofGlyphs loc' rest).map ([m] ++ ·)) (hstep : s.step m = .ok s')
    (hmode : (s.pending.mode.step m).1 = s'.pending.mode)
    (hkept : (s.pending.mode.step m).2 ++ s'.pending.mode.held = s.pending.mode.held ++ [m]) :
    Goes loc s cs loc' s' := by
  refine ⟨[m], hmarks, ?_, fun more hmore => ?_⟩
  · rw [List.foldlM_cons, hstep]
    rfl
  · rw [← hmode] at hmore hkept
    exact hmore.cons hkept

/-- One character that is not escaped. -/
theorem plain (hc : c ≠ '\\') (hstep : s.step ⟨c, false, loc⟩ = .ok s')
    (hmode : (s.pending.mode.step ⟨c, false, loc⟩).1 = s'.pending.mode)
    (hkept : (s.pending.mode.step ⟨c, false, loc⟩).2 ++ s'.pending.mode.held
      = s.pending.mode.held ++ [⟨c, false, loc⟩]) :
    Goes loc s [c] (loc.after (.char c)) s' := by
  refine of_mark (fun rest => ?_) hstep hmode hkept
  rw [glyphsOf, List.map_singleton, List.singleton_append, Mark.ofGlyphs]
  · cases Mark.ofGlyphs (loc.after (.char c)) rest <;> rfl
  · exact hc

/-- A backslash and the character behind it. -/
theorem escaped (hstep : s.step ⟨c, true, loc⟩ = .ok s')
    (hmode : (s.pending.mode.step ⟨c, true, loc⟩).1 = s'.pending.mode)
    (hkept : (s.pending.mode.step ⟨c, true, loc⟩).2 ++ s'.pending.mode.held
      = s.pending.mode.held ++ [⟨c, true, loc⟩]) :
    Goes loc s ['\\', c] ((loc.after (.char '\\')).after (.char c)) s' := by
  refine of_mark (fun rest => ?_) hstep hmode hkept
  rw [glyphsOf, List.map_cons, List.map_singleton, List.cons_append, List.singleton_append,
    Mark.ofGlyphs]
  cases Mark.ofGlyphs ((loc.after (.char '\\')).after (.char c)) rest <;> rfl

/-- A character that neither opens a string nor may open a comment. -/
theorem code (hc : c ≠ '\\') (hquote : Mark.isQuoteChar c = false) (hslash : c ≠ '/')
    (hs : s.pending.mode = .code) (hs' : s'.pending.mode = .code)
    (hstep : s.step ⟨c, false, loc⟩ = .ok s') : Goes loc s [c] (loc.after (.char c)) s' := by
  have hcode : CommentMode.stepCode ⟨c, false, loc⟩ = (.code, [⟨c, false, loc⟩]) := by
    simp [CommentMode.stepCode, Mark.isQuote, Mark.isPlain, hquote, hslash]
  refine plain hc hstep ?_ ?_
  · rw [hs, hs', CommentMode.step, hcode]
  · rw [hs, hs', CommentMode.step, hcode]
    rfl

end Goes

/-! ## §4 Reading symbols -/

section Symbols

variable {loc : Location} {c : Char}

theorem not_wordStart_of_digit (h : isDecimalDigit c = true) : isWordStart c = false := by
  refine Bool.eq_false_iff.mpr fun hstart => ?_
  rw [not_digit_of_wordStart hstart] at h
  cases h

theorem goes_of_wordChar {s s' : Scan} (hc : isWordChar c = true) (hs : s.pending.mode = .code)
    (hs' : s'.pending.mode = .code) (hstep : s.step ⟨c, false, loc⟩ = .ok s') :
    Goes loc s [c] (loc.after (.char c)) s' := by
  refine Goes.code ?_ (not_quote_of_wordChar hc) ?_ hs hs' hstep
  · rintro rfl
    cases hc
  · exact ne_of_wordChar (k := .operator) hc (by decide)

/-- The class of a character that is not escaped. -/
theorem markClass_wordStart (h : isWordStart c = true) :
    (Mark.mk c false loc).markClass = .letter := by
  simp [Mark.markClass, h]

theorem markClass_digit (h : isDecimalDigit c = true) :
    (Mark.mk c false loc).markClass = .digit := by
  simp [Mark.markClass, not_wordStart_of_digit h, h]

theorem markClass_operator (h : c ∈ operatorChars) :
    (Mark.mk c false loc).markClass = .operator := by
  have hsign : c ∈ SignClass.operator.members := h
  simp [Mark.markClass, SignClass.not_wordStart hsign, SignClass.not_digit hsign, h]

theorem markClass_delimiter (f : Family) (side : Side) :
    (Mark.mk (f.char side) false loc).markClass = .delimiter f side := by
  cases f <;> cases side <;> rfl

/-- The characters of a word behind the first one. -/
theorem goes_wordChars {more : List Char} (h : ∀ c ∈ more, isWordChar c = true)
    (done : List Placed) (w : List Char) (at_ loc : Location) :
    ∃ loc', Goes loc ⟨done, .word w at_⟩ more loc' ⟨done, .word (more.reverse ++ w) at_⟩ := by
  -- the word grows at its front, so the characters before are any
  induction more generalizing w loc with
  | nil => exact ⟨loc, .refl⟩
  | cons c more ih =>
    obtain ⟨hc, hmore⟩ := List.forall_mem_cons.mp h
    obtain ⟨loc', hgoes⟩ := ih hmore (c :: w) (loc.after (.char c))
    have hstep : (Scan.mk done (.word w at_)).step ⟨c, false, loc⟩
        = .ok ⟨done, .word (c :: w) at_⟩ := by
      rcases Bool.or_eq_true_iff.mp hc with hstart | hdigit
      · simp [Scan.step, Scan.stepCode, markClass_wordStart hstart]
      · simp [Scan.step, Scan.stepCode, markClass_digit hdigit]
    refine ⟨loc', ?_⟩
    rw [List.reverse_cons, List.append_assoc]
    exact (goes_of_wordChar hc rfl rfl hstep).trans hgoes

/-- The digits of a number behind the first one. -/
theorem goes_digits {more : List Char} {pointed : Bool} (h : ∀ c ∈ more, isDecimalDigit c = true)
    (done : List Placed) (w : List Char) (at_ loc : Location) :
    ∃ loc', Goes loc ⟨done, .number w pointed at_⟩ more loc'
      ⟨done, .number (more.reverse ++ w) pointed at_⟩ := by
  induction more generalizing w loc with
  | nil => exact ⟨loc, .refl⟩
  | cons c more ih =>
    obtain ⟨hc, hmore⟩ := List.forall_mem_cons.mp h
    obtain ⟨loc', hgoes⟩ := ih hmore (c :: w) (loc.after (.char c))
    have hstep : (Scan.mk done (.number w pointed at_)).step ⟨c, false, loc⟩
        = .ok ⟨done, .number (c :: w) pointed at_⟩ := by
      simp [Scan.step, Scan.stepCode, markClass_digit hc]
    refine ⟨loc', ?_⟩
    rw [List.reverse_cons, List.append_assoc]
    exact (goes_of_wordChar (by simp [isWordChar, hc]) rfl rfl hstep).trans hgoes

/-- Inside a string literal every character is read as itself. -/
theorem goes_quoted (done : List Placed) (cs value : List Char) (at_ loc : Location) :
    ∃ loc', Goes loc ⟨done, .string '"' value at_⟩ (cs.flatMap escape) loc'
      ⟨done, .string '"' (cs.reverse ++ value) at_⟩ := by
  induction cs generalizing value loc with
  | nil => exact ⟨loc, .refl⟩
  | cons c cs ih =>
    -- one character, escaped or not, and then the others
    have hone : ∃ loc', Goes loc ⟨done, .string '"' value at_⟩ (escape c) loc'
        ⟨done, .string '"' (c :: value) at_⟩ := by
      unfold escape
      split
      · next hc =>
        have hdecoded : (Mark.mk c true loc).decoded = c := by
          rcases hc with rfl | rfl <;> rfl
        refine ⟨_, Goes.escaped ?_ rfl rfl⟩
        simp [Scan.step, Mark.isPlain, hdecoded]
      · next hc =>
        obtain ⟨hquote, hslash⟩ := not_or.mp hc
        refine ⟨_, Goes.plain hslash ?_ ?_ ?_⟩
        · simp [Scan.step, Mark.isPlain, hquote, Mark.decoded]
        · simp [Pending.mode, CommentMode.step, Mark.isPlain, hquote]
        · simp [Pending.mode, CommentMode.step, CommentMode.held]
    obtain ⟨loc₁, hone⟩ := hone
    obtain ⟨loc', hgoes⟩ := ih (c :: value) loc₁
    refine ⟨loc', ?_⟩
    rw [List.flatMap_cons, List.reverse_cons, List.append_assoc]
    exact hone.trans hgoes

/-- A mark behind a run of operators that opens no comment is read like one behind code. -/
theorem step_mode_operators {m n : Mark} {ms : List Mark}
    (h : m.char = '/' → n.char ≠ '/' ∧ n.char ≠ '*') :
    (Pending.operators (m :: ms)).mode.step n = ((CommentMode.stepCode n).1,
      (Pending.operators (m :: ms)).mode.held ++ (CommentMode.stepCode n).2) := by
  -- only a plain slash at the end of the run waits for the next mark
  cases hslash : m.isPlain '/' with
  | true =>
    have hmode : (Pending.operators (m :: ms)).mode = .slash m := by simp [Pending.mode, hslash]
    obtain ⟨hne, hne'⟩ := h (by simpa using (Bool.and_eq_true_iff.mp hslash).2)
    rw [hmode]
    simp [CommentMode.step, Mark.isPlain, hne, hne', CommentMode.held]
  | false =>
    have hmode : (Pending.operators (m :: ms)).mode = .code := by simp [Pending.mode, hslash]
    rw [hmode]
    rfl

/-- The operator characters behind the first one, if no comment starts among them. -/
theorem goes_operators {more : List Char} (done : List Placed) (m : Mark) (ms : List Mark)
    (h : ∀ c ∈ more, c ∈ operatorChars) (hno : NoComment (m.char :: more)) (loc : Location) :
    ∃ (loc' : Location) (ns : List Mark), Goes loc ⟨done, .operators (m :: ms)⟩ more loc'
      ⟨done, .operators (ns.reverse ++ m :: ms)⟩ ∧ ns.map Mark.char = more := by
  induction more generalizing m ms loc with
  | nil => exact ⟨loc, [], .refl, rfl⟩
  | cons c more ih =>
    obtain ⟨hc, hmore⟩ := List.forall_mem_cons.mp h
    -- the last mark of the run decides whether the next one may open a comment
    obtain ⟨hpair, hno⟩ := List.isChain_cons_cons.mp hno
    obtain ⟨loc', ns, hgoes, hns⟩ :=
      ih ⟨c, false, loc⟩ (m :: ms) hmore hno (loc.after (.char c))
    refine ⟨loc', ⟨c, false, loc⟩ :: ns, ?_, by rw [List.map_cons, hns]⟩
    rw [List.reverse_cons, List.append_assoc]
    have hmode := mode_operators (m := ⟨c, false, loc⟩) hc (m :: ms)
    refine Goes.trans (Goes.plain ?_ ?_ ?_ ?_) hgoes
    · exact SignClass.ne_backslash (k := .operator) hc
    · simp [Scan.step, Scan.stepCode, markClass_operator hc]
    · rw [step_mode_operators hpair, hmode]
    · rw [step_mode_operators hpair, hmode, List.append_assoc, CommentMode.stepCode_keeps]

/-- The scanner is behind the lexemes, of which the last may be pending still. -/
structure Behind (ls : List Lexeme) (done : List Placed) (s : Scan) : Prop where
  closed : ∀ q value loc, s.pending ≠ .string q value loc
  flush : ∃ placed : List Placed, placed.map Prod.fst = ls ∧
    s.flush = .ok ⟨placed.reverse ++ done, .nothing⟩

namespace Behind

variable {x : Lexeme} {ls : List Lexeme} {done : List Placed} {s : Scan}

theorem nil : Behind [] done ⟨done, .nothing⟩ := ⟨by simp, [], rfl, rfl⟩

theorem one (loc : Location) (hclosed : ∀ q value loc, s.pending ≠ .string q value loc)
    (hflush : s.flush = .ok ⟨(x, loc) :: done, .nothing⟩) : Behind [x] done s :=
  ⟨hclosed, [(x, loc)], rfl, hflush⟩

theorem cons {loc : Location} (h : Behind ls ((x, loc) :: done) s) : Behind (x :: ls) done s := by
  obtain ⟨placed, rfl, hflush⟩ := h.flush
  exact ⟨h.closed, (x, loc) :: placed, rfl, by simpa using hflush⟩

/-- Behind one lexeme a space completes it. -/
theorem space (h : Behind [x] done s) (loc : Location) :
    ∃ at_, Goes loc s [' '] (loc.after (.char ' ')) ⟨(x, at_) :: done, .nothing⟩ := by
  obtain ⟨placed, hplaced, hflush⟩ := h.flush
  obtain ⟨⟨y, at_⟩, rfl, rfl⟩ := List.map_eq_singleton_iff.mp hplaced
  have hstep : s.step ⟨' ', false, loc⟩ = .ok ⟨(y, at_) :: done, .nothing⟩ := by
    unfold Scan.step
    split
    -- a space ends every pending lexeme but a literal, and none is open here
    · next hp => exact absurd hp (h.closed _ _ _)
    · exact hflush
  refine ⟨at_, Goes.plain (by decide) hstep ?_ ?_⟩
  · rcases Pending.mode_cases h.closed with hmode | ⟨m, hmode⟩ <;> rw [hmode] <;> rfl
  · rcases Pending.mode_cases h.closed with hmode | ⟨m, hmode⟩ <;> rw [hmode] <;> rfl

/-- At the end of the source what is pending is completed. -/
theorem finish (h : Behind ls [] s) :
    ∃ placed, placed.map Prod.fst = ls ∧ s.finish = .ok placed := by
  obtain ⟨placed, hplaced, hflush⟩ := h.flush
  refine ⟨placed, hplaced, ?_⟩
  unfold Scan.finish
  split
  · next hp => exact absurd hp (h.closed _ _ _)
  · rw [hflush]
    simp [bind, Except.bind, pure, Except.pure]

end Behind

/-- A single operator is split off whole. -/
theorem splitOperators_cons {op : Operator} {m : Mark} {more : List Mark}
    (h : (m :: more).map Mark.char = op.chars) :
    splitOperators 0 (m :: more) = .ok [(.operator op op.fixity, m.loc)] := by
  have hlength : op.chars.length - 1 = more.length := by
    rw [← h]
    simp
  rw [splitOperators, h, op.leading?_chars]
  simp only
  rw [splitOperators_passed, hlength, List.drop_length, splitOperators]
  rfl

theorem splitOperators_one {op : Operator} {ms : List Mark} (h : ms.map Mark.char = op.chars) :
    ∃ loc, splitOperators 0 ms = .ok [(.operator op op.fixity, loc)] := by
  obtain ⟨m, more, rfl⟩ : ∃ m more, ms = m :: more := by
    cases ms with
    | nil => exact absurd h.symm op.chars_ne_nil
    | cons m more => exact ⟨m, more, rfl⟩
  exact ⟨m.loc, splitOperators_cons h⟩

theorem Operator.noComment (op : Operator) : NoComment op.chars := by
  unfold NoComment
  cases op <;> decide

/-- Digits, where nothing is pending. -/
theorem goes_wholeNumber {ds : List Char} (hne : ds ≠ []) (hds : ∀ d ∈ ds, isDecimalDigit d = true)
    (done : List Placed) (loc : Location) :
    ∃ loc', Goes loc ⟨done, .nothing⟩ ds loc' ⟨done, .number ds.reverse false loc⟩ := by
  obtain ⟨d, more, rfl⟩ := List.exists_cons_of_ne_nil hne
  obtain ⟨hd, hmore⟩ := List.forall_mem_cons.mp hds
  have hstep : (Scan.mk done .nothing).step ⟨d, false, loc⟩
      = .ok ⟨done, .number [d] false loc⟩ := by
    simp only [Scan.step, Scan.stepCode, markClass_digit hd]
    rfl
  have hfirst := goes_of_wordChar (by simp [isWordChar, hd]) rfl rfl hstep
  obtain ⟨loc', hgoes⟩ := goes_digits hmore done [d] loc (loc.after (.char d))
  refine ⟨loc', ?_⟩
  rw [List.reverse_cons]
  exact hfirst.trans hgoes

theorem goes_number {w : List Char} (hw : Numeral w) (done : List Placed) (loc : Location) :
    ∃ loc' s, Goes loc ⟨done, .nothing⟩ (Symbol.number (Text.ofChars w)).chars loc' s ∧
      Behind [.number (Text.ofChars w)] done s := by
  rw [Symbol.chars, Text.chars_ofChars]
  cases hw with
  | whole _ hne hds =>
    obtain ⟨loc', hgoes⟩ := goes_wholeNumber hne hds done loc
    exact ⟨loc', _, hgoes, .one loc (by simp) (by simp [Scan.flush])⟩
  | pointed ds fs hne hds hfs =>
    obtain ⟨loc₁, hwhole⟩ := goes_wholeNumber hne hds done loc
    have hpoint : Goes loc₁ ⟨done, .number ds.reverse false loc⟩ ['.'] (loc₁.after (.char '.'))
        ⟨done, .number ('.' :: ds.reverse) true loc⟩ :=
      Goes.code (by decide) (by decide) (by decide) rfl rfl rfl
    -- the fraction goes on in the same number, which now has its point
    obtain ⟨loc', hfraction⟩ :=
      goes_digits hfs done ('.' :: ds.reverse) loc (loc₁.after (.char '.'))
    refine ⟨loc', ⟨done, .number (fs.reverse ++ '.' :: ds.reverse) true loc⟩, ?_,
      .one loc (by simp) (by simp [Scan.flush])⟩
    have hgoes := (hwhole.trans hpoint).trans hfraction
    rwa [List.append_assoc] at hgoes

theorem goes_word {w : List Char} (hw : IsWord w) (done : List Placed) (loc : Location) :
    ∃ loc' s, Goes loc ⟨done, .nothing⟩ w loc' s ∧
      Behind [Lexeme.ofWord (Text.ofChars w)] done s := by
  obtain ⟨c, more, rfl, hc, hmore⟩ := hw
  have hstep : (Scan.mk done .nothing).step ⟨c, false, loc⟩ = .ok ⟨done, .word [c] loc⟩ := by
    simp only [Scan.step, Scan.stepCode, markClass_wordStart hc]
    rfl
  have hfirst := goes_of_wordChar (by simp [isWordChar, hc]) rfl rfl hstep
  obtain ⟨loc', hgoes⟩ := goes_wordChars hmore done [c] loc (loc.after (.char c))
  exact ⟨loc', ⟨done, .word (more.reverse ++ [c]) loc⟩, hfirst.trans hgoes,
    .one loc (by simp) (by simp [Scan.flush])⟩

theorem goes_operator (op : Operator) (done : List Placed) (loc : Location) :
    ∃ loc' s, Goes loc ⟨done, .nothing⟩ op.chars loc' s ∧
      Behind [.operator op op.fixity] done s := by
  obtain ⟨c, more, hchars⟩ := List.exists_cons_of_ne_nil op.chars_ne_nil
  have hmem : ∀ d ∈ c :: more, d ∈ operatorChars := fun d hd =>
    Operator.mem_operatorChars (by rw [hchars]; exact hd)
  obtain ⟨hc, hmore⟩ := List.forall_mem_cons.mp hmem
  -- no operator has the start of a comment in it
  have hno : NoComment (c :: more) := hchars ▸ op.noComment
  have hmode := mode_operators (m := ⟨c, false, loc⟩) hc []
  have hfirst : Goes loc ⟨done, .nothing⟩ [c] (loc.after (.char c))
      ⟨done, .operators [⟨c, false, loc⟩]⟩ := by
    refine Goes.plain (SignClass.ne_backslash (k := .operator) hc) ?_ hmode.symm ?_
    · simp only [Scan.step, Scan.stepCode, markClass_operator hc]
      rfl
    · rw [hmode]
      exact CommentMode.stepCode_keeps _
  obtain ⟨loc', ns, hgoes, hns⟩ :=
    goes_operators done ⟨c, false, loc⟩ [] hmore hno (loc.after (.char c))
  have hall : (Mark.mk c false loc :: ns).map Mark.char = op.chars := by
    rw [List.map_cons, hns, hchars]
  obtain ⟨at_, hsplit⟩ := splitOperators_one hall
  refine ⟨loc', ⟨done, .operators (ns.reverse ++ [⟨c, false, loc⟩])⟩, ?_, .one at_ (by simp) ?_⟩
  · rw [hchars]
    exact hfirst.trans hgoes
  · simp [Scan.flush, hsplit]

/-- **One symbol**: read where nothing is pending, its characters give its lexeme. -/
theorem goes_symbol {x : Symbol} (hx : x.Writable) (done : List Placed) (loc : Location) :
    ∃ loc' s, Goes loc ⟨done, .nothing⟩ x.chars loc' s ∧ Behind [x.lexeme] done s := by
  cases hx with
  | word w hw =>
    rw [Symbol.chars, Text.chars_ofChars, Symbol.lexeme]
    exact goes_word hw done loc
  | number w hw => exact goes_number hw done loc
  | string v hv =>
    -- the opening quote, the escaped characters and the closing quote
    have hopen : Goes loc ⟨done, .nothing⟩ ['"'] (loc.after (.char '"'))
        ⟨done, .string '"' [] loc⟩ := Goes.plain (by decide) rfl rfl rfl
    obtain ⟨loc₁, hbody⟩ := goes_quoted done v.chars [] loc (loc.after (.char '"'))
    have hclose : Goes loc₁ ⟨done, .string '"' (v.chars.reverse ++ []) loc⟩ ['"']
        (loc₁.after (.char '"')) ⟨(.string v, loc) :: done, .nothing⟩ := by
      refine Goes.plain (by decide) ?_ rfl rfl
      have hnull : v.chars.reverse.isEmpty = v.isEmpty := by
        rw [List.isEmpty_reverse, ← Text.isEmpty_ofChars, Text.ofChars_chars hv]
      rw [List.append_nil, Scan.step]
      simp only
      rw [List.reverse_reverse, Text.ofChars_chars hv, hnull]
      rfl
    exact ⟨_, _, (hopen.trans hbody).trans hclose, .one loc (by simp) rfl⟩
  | operator op =>
    rw [Symbol.chars, Operator.chars_spelling, Symbol.lexeme_operator]
    exact goes_operator op done loc
  | delimiter f side =>
    have hmem := SignClass.char_mem_delimiter f side
    refine ⟨loc.after (.char (f.char side)), ⟨(.delimiter f side, loc) :: done, .nothing⟩, ?_,
      .one loc (by simp) ?_⟩
    · rw [Symbol.chars, chars_ofChar]
      refine Goes.code (SignClass.ne_backslash hmem) (SignClass.not_quote hmem (by decide))
        (fun hslash => ?_) rfl rfl ?_
      · exact SignClass.not_mem (l := .operator) hmem (by decide) (by rw [hslash]; decide)
      · simp only [Scan.step, Scan.stepCode, markClass_delimiter]
        rfl
    · rw [Symbol.lexeme_delimiter]
      rfl

end Symbols

/-! ## §5 Reading texts -/

/-- **A text of symbols** takes the scanner from nothing pending behind their lexemes. -/
theorem goes_spaced {xs : List Symbol} (h : ∀ x ∈ xs, x.Writable) (done : List Placed)
    (loc : Location) : ∃ loc' s, Goes loc ⟨done, .nothing⟩ (spacedChars xs) loc' s ∧
      Behind (xs.map Symbol.lexeme) done s := by
  induction xs generalizing done loc with
  | nil => exact ⟨loc, _, .refl, .nil⟩
  | cons x xs ih =>
    obtain ⟨hx, hxs⟩ := List.forall_mem_cons.mp h
    obtain ⟨loc₁, s₁, hgoes, hbehind⟩ := goes_symbol hx done loc
    -- a space is between two symbols, and none behind the last
    cases xs with
    | nil => exact ⟨loc₁, s₁, hgoes, hbehind⟩
    | cons y xs =>
      obtain ⟨at_, hspace⟩ := hbehind.space loc₁
      obtain ⟨loc', s', hgoes', hbehind'⟩ :=
        ih hxs ((x.lexeme, at_) :: done) (loc₁.after (.char ' '))
      exact ⟨loc', s', hgoes.trans (hspace.trans hgoes'), hbehind'.cons⟩

/-- **The tokens of a text of symbols** have the lexemes of the symbols, with the signs marked that
stand before an operand; and the text has no comment. -/
theorem tokenize_spaced {xs : List Symbol} (h : ∀ x ∈ xs, x.Writable) :
    ∃ marks tokens, Mark.ofText (spaced xs) = .ok marks ∧ stripComments .code marks = .ok marks ∧
      tokenize (spaced xs) = .ok tokens ∧
      tokens.map Token.lexeme = marked false (xs.map Symbol.lexeme) := by
  obtain ⟨loc', s, ⟨marks, hmarks, hfold, hfree⟩, hbehind⟩ := goes_spaced h [] .start
  obtain ⟨placed, hplaced, hfinish⟩ := hbehind.finish
  have htext : Mark.ofText (spaced xs) = .ok marks := by
    rw [Mark.ofText, spaced_eq_ofChars, Text.glyphs_ofChars]
    simpa [Mark.ofGlyphs, Except.map] using hmarks []
  -- at the end a slash that is held stays, since nothing follows it
  have hend : Uncommented s.pending.mode [] := by
    rcases Pending.mode_cases hbehind.closed with hmode | ⟨m, hmode⟩ <;> rw [hmode] <;> rfl
  have hstrip : stripComments .code marks = .ok marks := by
    simpa [Uncommented, Pending.mode, CommentMode.held] using hfree [] hend
  have hscan : scanMarks marks = .ok placed := by
    rw [scanMarks, Scan.start, hfold]
    exact hfinish
  refine ⟨marks, numberFrom 0 (markLeading false placed), htext, hstrip, ?_, ?_⟩
  · exact bind_eq_ok.mpr ⟨marks, htext, bind_eq_ok.mpr ⟨marks, hstrip,
      bind_eq_ok.mpr ⟨placed, hscan, rfl⟩⟩⟩
  · rw [numberFrom_lexemes, markLeading_lexemes, hplaced]

end Scriptlet
