import Scriptlet.Proofs.Reading
import Scriptlet.Proofs.Spelling

/-!
# What is spelled is scanned into terminals

At each place of a spelled text the first rule that matches is the one of the symbol that is spelled
there, and it matches exactly the characters of the symbol. So the terminals of the text have the
symbols that it spells, as long as they are symbols of the grammar.

## Contents

- §1 symbols of the grammar
- §2 runs of characters
- §3 rules that do not match
- §4 one symbol
- §5 scanning on
- §6 the contents of a literal
- §7 whole texts
-/

namespace Scriptlet

/-! ## §1 Symbols of the grammar -/

/-- The operators that the grammar does not know. -/
def foreignOperators : List Operator := [.ampersand, .bar, .caret, .question, .colon]

/-- The symbol can be scanned by the rules of the grammar. -/
def Symbol.readable : Symbol → Bool
  | .mark t => foreignOperators.all fun op => op.spelling != t
  | _ => true

/-! ## §2 Runs of characters -/

/-- The glyphs of characters. -/
abbrev glyphsOf (cs : List Char) : List Glyph := cs.map Glyph.char

/-- The text of the glyphs of characters. -/
theorem text_glyphsOf (cs : List Char) : Glyph.text (glyphsOf cs) = Text.ofChars cs := by
  rw [Glyph.text, glyphsOf, List.flatMap_map]
  rfl

theorem char_beq (c d : Char) : (Glyph.char c == Glyph.char d) = (c == d) := by
  rw [Bool.eq_iff_iff, beq_iff_eq, beq_iff_eq, Glyph.char.injEq]

/-- Prefixes are compared character by character. -/
theorem startsWithChars_glyphsOf (ds cs : List Char) :
    startsWithChars ds (glyphsOf cs) = ds.isPrefixOf cs := by
  unfold startsWithChars
  induction ds generalizing cs with
  | nil => rfl
  | cons d ds ih =>
    cases cs with
    | nil => rfl
    | cons c cs =>
      simp only [glyphsOf, List.map_cons, List.isPrefixOf_cons_cons, char_beq]
      exact congrArg _ (ih cs)

/-- A run of characters is empty when the first does not belong to it. -/
theorem runLength_eq_zero {p : Char → Bool} {cs : List Char}
    (h : ∀ c, cs.head? = some c → p c = false) : runLength p (glyphsOf cs) = 0 := by
  cases cs with
  | nil => rfl
  | cons c cs => simp [runLength, glyphsOf, h c rfl]

/-- A run is as long as the characters of the class are. -/
theorem runLength_append {p : Char → Bool} {w cs : List Char} (hw : ∀ c ∈ w, p c = true)
    (hstop : ∀ c, cs.head? = some c → p c = false) :
    runLength p (glyphsOf (w ++ cs)) = w.length := by
  induction w with
  | nil => exact runLength_eq_zero hstop
  | cons c w ih =>
    have hmore := ih fun d hd => hw d (List.mem_cons_of_mem _ hd)
    unfold runLength at hmore ⊢
    simp only [glyphsOf, List.cons_append, List.map_cons, List.takeWhile_cons, hw c (by simp),
      if_true, List.length_cons]
    exact congrArg (· + 1) hmore

/-! ## §3 Rules that do not match -/

/-- A comment starts with the characters. -/
def opensComment (cs : List Char) : Bool := ['/', '/'].isPrefixOf cs || ['/', '*'].isPrefixOf cs

/-- Only a slash opens a comment. -/
theorem opensComment_of_ne {c : Char} {cs : List Char} (h : c ≠ '/') :
    opensComment (c :: cs) = false := by
  have hc : ('/' == c) = false := beq_eq_false_iff_ne.mpr (Ne.symm h)
  simp only [opensComment, List.isPrefixOf_cons_cons, hc, Bool.false_and, Bool.or_self]

section

variable {c : Char} {cs : List Char}

-- each rule is opened by its own equation
attribute [local simp] ScanRule.length?

/-- The rule for blanks does not match before another character. -/
theorem space_none (h : isSpaceChar c = false) :
    ScanRule.space.length? (glyphsOf (c :: cs)) = none := by
  have hrun : runLength isSpaceChar (glyphsOf (c :: cs)) = 0 :=
    runLength_eq_zero fun d hd => by cases hd; exact h
  simp only [ScanRule.length?, hrun, beq_self_eq_true, if_true]

theorem comment_none (h : opensComment cs = false) :
    ScanRule.comment.length? (glyphsOf cs) = none := by
  obtain ⟨hline, hblock⟩ := Bool.or_eq_false_iff.mp h
  simp [commentLength?, startsWithChars_glyphsOf, hline, hblock]

/-- The rule for open comments does not match where no comment begins. -/
theorem openComment_none (h : opensComment cs = false) :
    ScanRule.openComment.length? (glyphsOf cs) = none := by
  obtain ⟨_, hblock⟩ := Bool.or_eq_false_iff.mp h
  simp [startsWithChars_glyphsOf, hblock]

theorem number_none (h : isDecimalDigit c = false) :
    (ScanRule.terminal .number).length? (glyphsOf (c :: cs)) = none := by
  have hrun : runLength isDecimalDigit (glyphsOf (c :: cs)) = 0 :=
    runLength_eq_zero fun d hd => by cases hd; exact h
  simp only [ScanRule.length?, numberLength?, hrun, beq_self_eq_true, if_true]

theorem openingQuote?_none (h : Mark.isQuoteChar c = false) :
    openingQuote? (glyphsOf (c :: cs)) = none := by
  simp [openingQuote?, glyphsOf, h]

theorem string_none (h : Mark.isQuoteChar c = false) :
    (ScanRule.terminal .string).length? (glyphsOf (c :: cs)) = none := by
  simp only [ScanRule.length?, openingQuote?_none h, Option.bind_none]

theorem openString_none (h : Mark.isQuoteChar c = false) :
    ScanRule.openString.length? (glyphsOf (c :: cs)) = none := by
  simp only [ScanRule.length?, openingQuote?_none h, Option.map_none]

theorem ident_none (h : isWordStart c = false) :
    (ScanRule.terminal .ident).length? (glyphsOf (c :: cs)) = none := by
  simp [identLength?, glyphsOf, h]

/-- Signs that no operator of the grammar starts with. -/
theorem operator_none (h : ∀ ds ∈ terminalOperators, ds.head? ≠ some c) :
    (ScanRule.terminal .operator).length? (glyphsOf (c :: cs)) = none := by
  have hne : ∀ ds ∈ terminalOperators, ds ≠ [] := by decide
  have hnone : terminalOperators.find? (fun ds => startsWithChars ds (glyphsOf (c :: cs)))
      = none := by
    -- an operator that fits would start with the character
    refine List.find?_eq_none.mpr fun ds hds hstarts => h ds hds ?_
    rw [startsWithChars_glyphsOf, List.isPrefixOf_iff_prefix] at hstarts
    obtain ⟨more, hmore⟩ := hstarts
    obtain ⟨d, ds, rfl⟩ := List.exists_cons_of_ne_nil (hne ds hds)
    rw [List.cons_append] at hmore
    rw [List.head?_cons, (List.cons.inj hmore).1]
  simp only [ScanRule.length?, hnone, Option.map_none]

end

/-! ## §4 One symbol -/

/-- A word is scanned up to the first character that is not of words. -/
theorem firstRule?_word {w cs : List Char} (hw : IsWord w)
    (hstop : ∀ c, cs.head? = some c → isWordChar c = false) :
    firstRule? (glyphsOf (w ++ cs)) = some (.terminal .ident, w.length) := by
  obtain ⟨c, more, rfl, hc, hmore⟩ := hw
  have hword : isWordChar c = true := by rw [isWordChar, hc, Bool.true_or]
  have hident : (ScanRule.terminal .ident).length? (glyphsOf (c :: (more ++ cs)))
      = some (c :: more).length := by
    have hrun : runLength (fun d => isWordStart d || isDecimalDigit d) (glyphsOf (more ++ cs))
        = more.length := runLength_append hmore hstop
    simp only [ScanRule.length?, identLength?, List.map_cons, hc, if_true, hrun,
      List.length_cons, Nat.add_comm]
  have hslash : opensComment (c :: (more ++ cs)) = false :=
    opensComment_of_ne (ne_of_wordChar (k := .operator) hword (by decide))
  have hquote := not_quote_of_wordChar hword
  -- the rules before the one for words fail at the first character
  rw [List.cons_append]
  simp only [firstRule?, scanRules, List.findSome?, space_none (not_blank_of_wordChar hword),
    comment_none hslash, openComment_none hslash, number_none (not_digit_of_wordStart hc),
    string_none hquote, openString_none hquote, hident, Option.map_none, Option.map_some]

/-- A numeral is as long as its digits and its point, when no more follow. -/
theorem numberLength?_numeral {w cs : List Char} (hw : Numeral w)
    (hstop : ∀ c, cs.head? = some c → isDecimalDigit c = false ∧ (c = '.' → '.' ∈ w)) :
    numberLength? (glyphsOf (w ++ cs)) = some w.length := by
  cases hw with
  | whole _ hne hds =>
    have hrun := runLength_append hds fun c hc => (hstop c hc).1
    have hsome : (w.length == 0) = false := by simpa using hne
    have hdrop : (glyphsOf (w ++ cs)).drop w.length = glyphsOf cs := by simp
    simp only [numberLength?, hrun, hsome, hdrop, Bool.false_eq_true, if_false]
    split
    · next rest heq =>
      -- a point right behind the digits would be part of the number
      have hpoint : cs.head? = some '.' := by
        cases cs with
        | nil => cases heq
        | cons c cs => cases (List.cons.inj heq).1; rfl
      cases hds '.' ((hstop '.' hpoint).2 rfl)
    · rfl
  | pointed ds fs hne hds hfs =>
    have hrun : runLength isDecimalDigit (glyphsOf (ds ++ ('.' :: fs ++ cs))) = ds.length :=
      runLength_append hds fun c hc => by cases hc; rfl
    have hmore := runLength_append hfs fun c hc => (hstop c hc).1
    have hsome : (ds.length == 0) = false := by simpa using hne
    have hdrop : (glyphsOf (ds ++ ('.' :: fs ++ cs))).drop ds.length
        = .char '.' :: glyphsOf (fs ++ cs) := by simp
    rw [List.append_assoc]
    simp only [numberLength?, hrun, hsome, hdrop, hmore, Bool.false_eq_true, if_false,
      List.length_append, List.length_cons]
    congr 1
    omega

/-- A numeral is scanned whole. -/
theorem firstRule?_number {w cs : List Char} (hw : Numeral w)
    (hstop : ∀ c, cs.head? = some c → isDecimalDigit c = false ∧ (c = '.' → '.' ∈ w)) :
    firstRule? (glyphsOf (w ++ cs)) = some (.terminal .number, w.length) := by
  have hnumber : (ScanRule.terminal .number).length? (glyphsOf (w ++ cs)) = some w.length :=
    numberLength?_numeral hw hstop
  -- the characters of a number start no blank, no comment and no word
  obtain ⟨d, more, rfl, hd⟩ := hw.head
  have hword : isWordChar d = true := by rw [isWordChar, hd, Bool.or_true]
  have hslash : opensComment (d :: (more ++ cs)) = false :=
    opensComment_of_ne (ne_of_wordChar (k := .operator) hword (by decide))
  rw [List.cons_append] at hnumber ⊢
  simp only [firstRule?, scanRules, List.findSome?, space_none (not_blank_of_wordChar hword),
    comment_none hslash, openComment_none hslash, hnumber, Option.map_none, Option.map_some]

/-- A literal ends with the first quote that no backslash shields. -/
theorem quoteEnd?_quoted {q : Char} {body value cs : List Char} (hq : q ≠ '\\')
    (h : Quoted q body value) :
    quoteEnd? q (glyphsOf (body ++ q :: cs)) = some (body.length + 1) := by
  -- each escape takes two characters, of which the second ends nothing
  induction h with
  | nil =>
    rw [quoteEnd?.eq_def]
    simp only [List.nil_append, List.map_cons, Glyph.is, beq_self_eq_true, if_true, List.length_nil]
  | plain c body value hquote hslash _ ih =>
    rw [quoteEnd?.eq_def]
    simp only [List.cons_append, List.map_cons, Glyph.is, char_beq,
      beq_eq_false_iff_ne.mpr hquote, beq_eq_false_iff_ne.mpr hslash, Bool.false_eq_true, if_false,
      ih, Option.map_some, List.length_cons]
  | escaped c body value _ ih =>
    rw [quoteEnd?.eq_def]
    simp only [List.cons_append, List.map_cons, Glyph.is, char_beq,
      beq_eq_false_iff_ne.mpr (Ne.symm hq), Bool.false_eq_true, if_false, beq_self_eq_true, if_true,
      ih, Option.map_some, List.length_cons]

/-- A quoted string is scanned from its quote to the same quote. -/
theorem firstRule?_string {q : Char} {body value cs : List Char} (hq : Mark.isQuoteChar q = true)
    (h : Quoted q body value) :
    firstRule? (glyphsOf (q :: (body ++ q :: cs)))
      = some (.terminal .string, (q :: (body ++ [q])).length) := by
  have hclass := SignClass.mem_quote.mp hq
  have hend : quoteEnd? q (glyphsOf (body ++ q :: cs)) = some (body.length + 1) :=
    quoteEnd?_quoted (SignClass.ne_backslash hclass) h
  have hstring : (ScanRule.terminal .string).length? (glyphsOf (q :: (body ++ q :: cs)))
      = some (q :: (body ++ [q])).length := by
    simp only [ScanRule.length?, openingQuote?, List.map_cons, hq, if_true, Option.bind_some,
      List.drop_succ_cons, List.drop_zero, hend, Option.map_some, List.length_cons,
      List.length_append, List.length_nil]
  -- a quote starts no blank, no comment and no number
  have hslash : opensComment (q :: (body ++ q :: cs)) = false :=
    opensComment_of_ne (by rintro rfl; revert hq; decide)
  simp only [firstRule?, scanRules, List.findSome?,
    space_none (SignClass.not_blank hclass (by decide)), comment_none hslash,
    openComment_none hslash, number_none (SignClass.not_digit hclass), hstring, Option.map_none,
    Option.map_some]

/-- The operators of the grammar are tried from long to short too. -/
theorem find?_terminalOperators {op : Operator} {cs : List Char}
    (h : Operator.leading? (op.chars ++ cs) = some op) (hmem : op.chars ∈ terminalOperators) :
    terminalOperators.find? (fun ds => startsWithChars ds (glyphsOf (op.chars ++ cs)))
      = some op.chars := by
  have hsorted : terminalOperators.Pairwise fun a b => b.length ≤ a.length := by decide
  have hknown : ∀ ds ∈ terminalOperators, ∃ other ∈ Operator.table, other.chars = ds := by decide
  have hself : op.chars <+: op.chars ++ cs := List.prefix_append _ _
  cases hfind : terminalOperators.find?
      (fun ds => startsWithChars ds (glyphsOf (op.chars ++ cs))) with
  | none =>
    have hnot := List.find?_eq_none.mp hfind op.chars hmem
    rw [startsWithChars_glyphsOf, List.isPrefixOf_iff_prefix] at hnot
    exact absurd hself hnot
  | some ds =>
    obtain ⟨hds, before, behind, hsplit, hbefore⟩ := List.find?_eq_some_iff_append.mp hfind
    rw [startsWithChars_glyphsOf, List.isPrefixOf_iff_prefix] at hds
    obtain ⟨other, _, rfl⟩ := hknown ds (by rw [hsplit]; simp)
    have hle := Operator.length_le_of_leading? h hds
    rw [hsplit] at hmem hsorted
    -- both lists go from long to short, so the one found first in each is the longest that fits
    have hge : op.chars.length ≤ other.chars.length := by
      rcases List.mem_append.mp hmem with hmem | hmem
      · have hnot := hbefore _ hmem
        rw [startsWithChars_glyphsOf, List.isPrefixOf_iff_prefix.mpr hself] at hnot
        cases hnot
      · rcases List.mem_cons.mp hmem with heq | hmem
        · exact Nat.le_of_eq (congrArg List.length heq)
        · exact (List.pairwise_cons.mp (List.pairwise_append.mp hsorted).2.1).1 _ hmem
    have hstart := List.prefix_of_prefix_length_le hds hself hle
    rw [hstart.eq_of_length (by omega)]

/-- An operator opens no comment, unless it is a slash before a slash or a star. -/
theorem opensComment_operator {op : Operator} {cs : List Char}
    (hcomment : op = .divide → ∀ c, cs.head? = some c → c ≠ '/' ∧ c ≠ '*') :
    opensComment (op.chars ++ cs) = false := by
  -- only the sign of division can be mistaken for the start of a comment
  by_cases hop : op = .divide
  · subst hop
    cases cs with
    | nil => rfl
    | cons c cs =>
      obtain ⟨hslash, hstar⟩ := hcomment rfl c rfl
      have h1 : ('/' == c) = false := beq_eq_false_iff_ne.mpr (Ne.symm hslash)
      have h2 : ('*' == c) = false := beq_eq_false_iff_ne.mpr (Ne.symm hstar)
      simp only [opensComment, Operator.chars, List.cons_append, List.nil_append,
        List.isPrefixOf_cons_cons, h1, h2, Bool.false_and, Bool.and_false, Bool.or_self]
  · cases op <;> first | exact absurd rfl hop | rfl

/-- Punctuation is looked for last. -/
theorem firstRule?_punct {k : SignClass} {c : Char} {cs : List Char} (hc : c ∈ k.members)
    (hblank : k ≠ .blank) (hquote : k ≠ .quote) (hslash : opensComment (c :: cs) = false)
    (hpunct : punctuation.contains c = true) (hnone : ∀ ds ∈ terminalOperators, ds.head? ≠ some c) :
    firstRule? (glyphsOf (c :: cs)) = some (.terminal .punct, 1) := by
  have hquote := SignClass.not_quote hc hquote
  have hrule : (ScanRule.terminal .punct).length? (glyphsOf (c :: cs)) = some 1 := by
    simp only [ScanRule.length?, List.map_cons, hpunct, if_true]
  simp only [firstRule?, scanRules, List.findSome?, space_none (SignClass.not_blank hc hblank),
    comment_none hslash, openComment_none hslash, number_none (SignClass.not_digit hc),
    string_none hquote, openString_none hquote, ident_none (SignClass.not_wordStart hc),
    operator_none hnone, hrule, Option.map_none, Option.map_some]

/-- An operator of the grammar is found by the rule for operators or the one for punctuation. -/
theorem firstRule?_operator {op : Operator} {cs : List Char}
    (h : Operator.leading? (op.chars ++ cs) = some op)
    (hcomment : op = .divide → ∀ c, cs.head? = some c → c ≠ '/' ∧ c ≠ '*')
    (hop : op ∉ foreignOperators) :
    ∃ kind, (kind = .operator ∨ kind = .punct) ∧
      firstRule? (glyphsOf (op.chars ++ cs)) = some (.terminal kind, op.chars.length) := by
  -- single characters that start no operator of the grammar are its punctuation
  have hkinds : ∀ op : Operator, op ∉ foreignOperators → op.chars ∈ terminalOperators ∨
      ∃ c, op.chars = [c] ∧ punctuation.contains c = true ∧
        ∀ ds ∈ terminalOperators, ds.head? ≠ some c := by
    intro op hop
    cases op <;> first
      | exact absurd (by decide) hop
      | exact .inl (by decide)
      | exact .inr ⟨_, rfl, by decide, by decide⟩
  have hslash := opensComment_operator hcomment
  have hclass : ∀ c ∈ op.chars, c ∈ SignClass.operator.members := fun c hc =>
    Operator.mem_operatorChars hc
  rcases hkinds op hop with hmem | ⟨c, hchars, hpunct, hnone⟩
  · refine ⟨.operator, .inl rfl, ?_⟩
    have hoperator : (ScanRule.terminal .operator).length? (glyphsOf (op.chars ++ cs))
        = some op.chars.length := by
      simp only [ScanRule.length?, find?_terminalOperators h hmem, Option.map_some]
    obtain ⟨c, more, hchars⟩ := List.exists_cons_of_ne_nil op.chars_ne_nil
    rw [hchars] at hclass hslash hoperator ⊢
    have hc := hclass c (by simp)
    have hquote := SignClass.not_quote hc (by decide)
    rw [List.cons_append] at hslash hoperator ⊢
    simp only [firstRule?, scanRules, List.findSome?,
      space_none (SignClass.not_blank hc (by decide)), comment_none hslash,
      openComment_none hslash, number_none (SignClass.not_digit hc), string_none hquote,
      openString_none hquote, ident_none (SignClass.not_wordStart hc), hoperator, Option.map_none,
      Option.map_some]
  · refine ⟨.punct, .inr rfl, ?_⟩
    rw [hchars] at hclass hslash ⊢
    exact firstRule?_punct (hclass c (by simp)) (by decide) (by decide) hslash hpunct hnone

/-- A delimiter is scanned alone. -/
theorem firstRule?_delimiter (f : Family) (s : Side) (cs : List Char) :
    firstRule? (glyphsOf (f.char s :: cs)) = some (.terminal .punct, 1) := by
  have hc := SignClass.char_mem_delimiter f s
  refine firstRule?_punct hc (by decide) (by decide) (opensComment_of_ne ?_) ?_ ?_ <;>
    cases f <;> cases s <;> decide

/-! ## §5 Scanning on -/

/-- Glyphs that are passed over move the place and leave the rest. -/
theorem scanFrom_passed_add (loc : Location) (gs : List Glyph) (k : Nat) (rest : List Glyph) :
    scanFrom loc (gs.length + k) (gs ++ rest) = scanFrom (gs.foldl Location.after loc) k rest := by
  induction gs generalizing loc with
  | nil => rw [List.length_nil, Nat.zero_add, List.nil_append, List.foldl_nil]
  | cons g gs ih =>
    rw [List.length_cons, Nat.add_right_comm, List.cons_append, scanFrom, ih, List.foldl_cons]

theorem scanFrom_passed (loc : Location) (gs rest : List Glyph) :
    scanFrom loc gs.length (gs ++ rest) = scanFrom (gs.foldl Location.after loc) 0 rest :=
  scanFrom_passed_add loc gs 0 rest

/-- From any place the glyphs are scanned into terminals of the symbols. -/
def Scans (gs : List Glyph) (xs : List Symbol) : Prop :=
  ∀ loc, ∃ items ending, scanFrom loc 0 gs = .ok (items, ending) ∧ items.map Terminal.symbol = xs

/-- A terminal and what is scanned behind it. -/
theorem Scans.terminal {kind : TerminalKind} {w cs : List Char} {x : Symbol} {xs : List Symbol}
    (hw : w ≠ []) (hrule : firstRule? (glyphsOf (w ++ cs)) = some (.terminal kind, w.length))
    (hx : ∀ loc, Terminal.symbol ⟨kind, Text.ofChars w, loc⟩ = x) (h : Scans (glyphsOf cs) xs) :
    Scans (glyphsOf (w ++ cs)) (x :: xs) := by
  intro loc
  obtain ⟨c, more, rfl⟩ := List.exists_cons_of_ne_nil hw
  obtain ⟨items, ending, hscan, hitems⟩ :=
    h ((glyphsOf more).foldl Location.after (loc.after (.char c)))
  -- the rest of the terminal is passed over, and scanning goes on behind it
  have hpassed := scanFrom_passed (loc.after (.char c)) (glyphsOf more) (glyphsOf cs)
  rw [hscan, List.length_map, ← List.map_append] at hpassed
  have htext : Glyph.text ((glyphsOf (c :: more ++ cs)).take (c :: more).length)
      = Text.ofChars (c :: more) := by
    rw [glyphsOf, List.map_append, List.take_left' (by simp)]
    exact text_glyphsOf (c :: more)
  refine ⟨⟨kind, Text.ofChars (c :: more), loc⟩ :: items, ending, ?_, ?_⟩
  · rw [← htext]
    rw [List.cons_append, glyphsOf, List.map_cons] at hrule ⊢
    rw [scanFrom, hrule]
    simp only [List.length_cons, Nat.add_sub_cancel, hpassed]
    rfl
  · rw [List.map_cons, hx, hitems]

/-- The glyph is a blank. -/
def Glyph.isBlank : Glyph → Bool
  | .char c => isSpaceChar c
  | .stray _ => false

/-- Blanks are those glyphs in front that are blank. -/
theorem runLength_blank (gs : List Glyph) :
    runLength isSpaceChar gs = (gs.takeWhile Glyph.isBlank).length := by
  unfold runLength
  congr 2

/-- The run of blanks in front goes on into what follows. -/
theorem runLength_blanks {gs : List Glyph} (hgs : ∀ g ∈ gs, g.isBlank = true) (hs : List Glyph) :
    runLength isSpaceChar (gs ++ hs) = gs.length + runLength isSpaceChar hs := by
  rw [runLength_blank, List.takeWhile_append_of_pos hgs, List.length_append, ← runLength_blank]

/-- Blanks at the head of a list are matched all at once. -/
theorem firstRule?_blank {g : Glyph} {gs : List Glyph} (hg : g.isBlank = true) :
    firstRule? (g :: gs) = some (.space, runLength isSpaceChar gs + 1) := by
  have hrun : runLength isSpaceChar (g :: gs) = runLength isSpaceChar gs + 1 := by
    rw [← List.singleton_append, runLength_blanks (by simpa using hg), Nat.add_comm]
    rfl
  have hspace : ScanRule.space.length? (g :: gs) = some (runLength isSpaceChar gs + 1) := by
    simp only [ScanRule.length?, hrun]
    rfl
  simp only [firstRule?, scanRules, List.findSome?, hspace, Option.map_some]

/-- A blank is passed, with the blanks behind it. -/
theorem scanFrom_of_blank {g : Glyph} (hg : g.isBlank = true) (loc : Location) (gs : List Glyph) :
    scanFrom loc 0 (g :: gs) = scanFrom (loc.after g) (runLength isSpaceChar gs) gs := by
  rw [scanFrom, firstRule?_blank hg]
  rfl

/-- Blanks are passed over one by one or all at once. -/
theorem scanFrom_runLength (loc : Location) (gs : List Glyph) :
    scanFrom loc (runLength isSpaceChar gs) gs = scanFrom loc 0 gs := by
  cases gs with
  | nil => rfl
  | cons g gs =>
    -- a run of blanks that is passed over may be empty
    cases hg : g.isBlank with
    | true =>
      rw [scanFrom_of_blank hg, ← List.singleton_append, runLength_blanks (by simpa using hg)]
      exact scanFrom_passed_add loc [g] _ gs
    | false =>
      have hzero : runLength isSpaceChar (g :: gs) = 0 := by
        rw [runLength_blank, List.takeWhile_cons, hg]
        rfl
      rw [hzero]

/-- Blanks are no symbols. -/
theorem Scans.blank {c : Char} {cs : List Char} {xs : List Symbol} (hc : isSpaceChar c = true)
    (h : Scans (glyphsOf cs) xs) : Scans (glyphsOf (c :: cs)) xs := by
  intro loc
  have hblank : (Glyph.char c).isBlank = true := hc
  rw [glyphsOf, List.map_cons, scanFrom_of_blank hblank, scanFrom_runLength]
  exact h (loc.after (.char c))

/-! ## §6 The contents of a literal -/

/-- The escapes of a body are decoded to what it is quoted from. -/
theorem decodeEscapes_quoted {q : Char} {body value : List Char} (h : Quoted q body value) :
    decodeEscapes body = value := by
  induction h with
  | nil => rfl
  | plain c body value _ hslash _ ih =>
    rw [decodeEscapes, ih]
    exact hslash
  | escaped c body value _ ih => rw [decodeEscapes, ih]

/-- Without a backslash the characters stand for themselves. -/
theorem eq_of_quoted {q : Char} {body value : List Char} (h : Quoted q body value)
    (hslash : '\\' ∉ body) : value = body := by
  induction h with
  | nil => rfl
  | plain c body value _ _ _ ih => rw [ih fun hmem => hslash (List.mem_cons_of_mem _ hmem)]
  | escaped c body value _ _ => exact absurd (by simp) hslash

/-- The string between the quotes is its value. -/
theorem unquote_literal {q : Char} {body value : List Char} (hq : Mark.isQuoteChar q = true)
    (h : Quoted q body value) :
    unquote (Text.ofChars (q :: (body ++ [q]))) = Text.ofChars value := by
  have hquotes : ∀ q ∈ SignClass.quote.members, ∃ b, Text.ofChar q = [b] := by
    intro q hq
    have hall : (SignClass.quote.members.all fun q =>
        Text.ofChar q == [(Text.ofChar q).headD 0]) = true := by decide
    exact ⟨_, eq_of_beq (List.all_eq_true.mp hall q hq)⟩
  obtain ⟨b, hb⟩ := hquotes q (SignClass.mem_quote.mp hq)
  have hbody : ((Text.ofChars (q :: (body ++ [q]))).drop 1).dropLast = Text.ofChars body := by
    simp [hb]
  -- escapes are only decoded if there is a backslash
  simp only [unquote, hbody]
  split
  · rw [Text.chars_ofChars, decodeEscapes_quoted h]
  · next hcontains =>
    have hslash : '\\' ∉ body := by
      intro hmem
      refine hcontains (List.contains_iff_mem.mpr ?_)
      exact List.mem_flatMap.mpr ⟨'\\', hmem, by decide⟩
    rw [eq_of_quoted h hslash]

/-! ## §7 Whole texts -/

/-- What spells symbols is scanned to them. -/
theorem scans_of_spells {cs : List Char} {xs : List Symbol} (h : Spells cs xs)
    (hxs : ∀ x ∈ xs, x.readable = true) : Scans (glyphsOf cs) xs := by
  induction h with
  | nil => exact fun loc => ⟨[], loc, rfl, rfl⟩
  | blank c cs xs hc _ ih => exact (ih hxs).blank hc
  | word w cs xs hw hstop _ ih =>
    have hne : w ≠ [] := by
      obtain ⟨c, more, rfl, _, _⟩ := hw
      simp
    exact .terminal hne (firstRule?_word hw hstop) (fun _ => rfl)
      (ih fun x hx => hxs x (List.mem_cons_of_mem _ hx))
  | number w cs xs hw hstop _ ih =>
    have hne : w ≠ [] := by
      obtain ⟨d, more, rfl, _⟩ := hw.head
      simp
    exact .terminal hne (firstRule?_number hw hstop) (fun _ => rfl)
      (ih fun x hx => hxs x (List.mem_cons_of_mem _ hx))
  | string q body value cs xs hq hbody _ ih =>
    have hrule : firstRule? (glyphsOf (q :: (body ++ q :: cs)))
        = some (.terminal .string, (q :: (body ++ [q])).length) := firstRule?_string hq hbody
    have hsplit : q :: (body ++ q :: cs) = q :: (body ++ [q]) ++ cs := by simp
    rw [hsplit] at hrule ⊢
    refine .terminal (by simp) hrule (fun _ => ?_)
      (ih fun x hx => hxs x (List.mem_cons_of_mem _ hx))
    exact congrArg Symbol.string (unquote_literal hq hbody)
  | operator op cs xs hop hcomment _ ih =>
    -- the operators that no rule finds are not readable
    have hknown : op ∉ foreignOperators := by
      intro hmem
      have hreadable := hxs (.mark op.spelling) (by simp)
      have hdiffers := List.all_eq_true.mp hreadable op hmem
      simp at hdiffers
    obtain ⟨kind, hkind, hrule⟩ := firstRule?_operator hop hcomment hknown
    refine .terminal op.chars_ne_nil hrule (fun _ => ?_)
      (ih fun x hx => hxs x (List.mem_cons_of_mem _ hx))
    rcases hkind with rfl | rfl <;> rfl
  | delimiter f s cs xs _ ih =>
    rw [← List.singleton_append]
    refine .terminal (by simp) (firstRule?_delimiter f s cs) (fun _ => ?_)
      (ih fun x hx => hxs x (List.mem_cons_of_mem _ hx))
    simp [Terminal.symbol]

/-- The terminals of a spelled text are its symbols. -/
theorem scanTerminals_of_spells {source : Text} {cs : List Char} {xs : List Symbol}
    (hsource : source.glyphs = glyphsOf cs) (h : Spells cs xs)
    (hxs : ∀ x ∈ xs, x.readable = true) : ∃ s, scanTerminals source = .ok s ∧ s.left 0 = xs := by
  obtain ⟨items, ending, hscan, hitems⟩ := scans_of_spells h hxs .start
  refine ⟨⟨items.toArray, ending⟩, ?_, ?_⟩
  · rw [scanTerminals, hsource, hscan]
    rfl
  · simpa [Stream.left] using hitems

end Scriptlet
